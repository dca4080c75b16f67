import SysY.Proofs.Lower.Constant
import SysY.Proofs.Names

/-!
# The checker and the lowering see the same variables

The checker gives every variable in scope a type, and the lowering a symbol.
Both follow the declarations of the program, so a symbol is that of a scalar
where the type is that of an integer, and it has as many dimensions as an
array type has (`Judged`). The one thing that code generation needs to know
from the checker is then this: an argument for an array parameter is an array
or a row of one.

Not every result needs the checker. What is said of the checker in this
development is therefore a choice, `Checked`: either nothing is asked of the
arguments of any function, or the program has been judged and nothing is
wrong with it.
-/

namespace SysY

/-! ## Types -/

theorem Ty.arrayOf_ne_function (n : Nat) (r : Ty) (ps : List Ty) :
    Ty.arrayOf .int n ≠ .function r ps := by
  cases n <;> exact nofun

variable {t : Ty}

/-- Less subscripts than dimensions give an array. -/
theorem Ty.lt_of_peel_arrayOf {n d : Nat} (h : peel n (arrayOf .int d) = some (.array t)) :
    n < d := by
  induction n generalizing d with
  | zero =>
    cases d with
    | zero => cases h
    | succ d => exact Nat.succ_pos d
  | succ n ih =>
    cases d with
    | zero => cases h
    | succ d => exact Nat.succ_lt_succ (ih h)

variable {ps : List Ty} {span : Span} {s : Lower.Symbol} {es args : List Expr}

namespace Lower

open IR (Value)

/-! ## Symbols and types -/

/-- A symbol has a type. -/
def Suits : Symbol → Ty → Prop
  | .scalar _ _, t => t = .int
  | .array _ dims _, t => t = .arrayOf .int dims.length

theorem Suits.ne_function {r : Ty} (h : Suits s t) : t ≠ .function r ps := by
  cases s with
  | scalar => exact fun ht => by cases ht.symm.trans h
  | array _ dims _ => exact fun ht => Ty.arrayOf_ne_function dims.length r ps (h.symm.trans ht)

/-- **The symbols in scope have the types in scope**, and `wants` says which
parameters of a function are arrays. -/
structure Judged (wants : String → List Bool) (env : TyEnv) (symbols : Symbols) : Prop where
  /-- The symbols have types. -/
  symbols : ∀ ⦃name s⦄, symbols.lookup name = some s → ∃ t, env.lookup name = some t ∧ Suits s t
  /-- The functions want arrays where their types say so. -/
  functions : ∀ ⦃name r ps⦄, env.lookup name = some (.function r ps) →
    wants name = ps.map (·.isArray)

namespace Judged

variable {wants : String → List Bool} {env : TyEnv} {symbols : Symbols}

theorem enter (h : Judged wants env symbols) : Judged wants env.enter symbols.enter where
  symbols := by
    intro name s hs
    rw [Env.lookup_enter] at hs ⊢
    exact h.symbols hs
  functions := by
    intro name r ps hf
    rw [Env.lookup_enter] at hf
    exact h.functions hf

theorem bind (h : Judged wants env symbols) (name : String) (hst : Suits s t) :
    Judged wants (env.bind name t) (symbols.bind name s) where
  symbols := by
    intro other s' hs'
    obtain ⟨rfl, rfl⟩ | ⟨hne, hs'⟩ := Env.of_lookup_bind hs'
    · exact ⟨t, Env.lookup_bind_self .., hst⟩
    · rw [Env.lookup_bind_of_ne hne]
      exact h.symbols hs'
  functions := by
    intro other r ps hf
    obtain ⟨-, ht⟩ | ⟨-, hf⟩ := Env.of_lookup_bind hf
    · exact absurd ht.symm hst.ne_function
    · exact h.functions hf

/-- A function that is declared is no variable. -/
theorem declare {frame : SysY.Frame Ty} (h : Judged wants [frame] symbols) {name : String} {r : Ty}
    (hfree : Env.Free [frame] name) (hwants : wants name = ps.map (·.isArray)) :
    Judged wants (Env.bind [frame] name (.function r ps)) symbols := by
  constructor
  · intro other s hs
    have hne : other ≠ name := by
      rintro rfl
      obtain ⟨t, ht, -⟩ := h.symbols hs
      cases (Env.lookup_of_free hfree).symm.trans ht
    rw [Env.lookup_bind_of_ne hne]
    exact h.symbols hs
  · intro other r' ps' hf
    obtain ⟨rfl, ⟨⟩⟩ | ⟨-, hf⟩ := Env.of_lookup_bind hf
    · exact hwants
    · exact h.functions hf

end Judged

/-! ## What is asked of the checker -/

/-- Nothing is asked of the arguments of functions, or the symbols are judged
and there are no findings. -/
def Checked (wants : String → List Bool) (env : TyEnv) (symbols : Symbols) (fs : List Finding) :
    Prop :=
  (∀ name, wants name = []) ∨ Judged wants env symbols ∧ fs = []

namespace Checked

variable {wants : String → List Bool} {env : TyEnv} {symbols : Symbols} {fs gs : List Finding}

theorem imp {env' : TyEnv} {symbols' : Symbols} (h : Checked wants env symbols fs)
    (himp : Judged wants env symbols → fs = [] → Judged wants env' symbols' ∧ gs = []) :
    Checked wants env' symbols' gs :=
  Or.imp_right (fun h => himp h.1 h.2) h

theorem left (h : Checked wants env symbols (fs ++ gs)) : Checked wants env symbols fs :=
  h.imp fun hj hnil => ⟨hj, (List.append_eq_nil_iff.1 hnil).1⟩

theorem right (h : Checked wants env symbols (fs ++ gs)) : Checked wants env symbols gs :=
  h.imp fun hj hnil => ⟨hj, (List.append_eq_nil_iff.1 hnil).2⟩

theorem enter (h : Checked wants env symbols fs) : Checked wants env.enter symbols.enter fs :=
  h.imp fun hj hnil => ⟨hj.enter, hnil⟩

end Checked

/-! ## Expressions and initial values -/

theorem findingsAll_eq_nil {env : TyEnv} :
    Expr.findingsAll env es = [] ↔ ∀ e ∈ es, e.findings env = [] := by
  induction es with
  | nil => simp [Expr.findingsAll]
  | cons e es ih => simp [Expr.findingsAll, ih]

theorem initFindingsAll_eq_nil {env : TyEnv} {is : List InitVal} :
    InitVal.findingsAll env is = [] ↔ ∀ i ∈ is, i.findings env = [] := by
  induction is with
  | nil => simp [InitVal.findingsAll]
  | cons i is ih => simp [InitVal.findingsAll, ih]

theorem findings_lval {env : TyEnv} {name : Ident} {indices : List Expr}
    (h : (Expr.lval span name indices).findings env = []) : Expr.findingsAll env indices = [] := by
  rw [Expr.findings] at h
  split at h
  · cases h
  · split at h
    · cases h
    · exact h

theorem findings_call {env : TyEnv} {callee : Ident}
    (h : (Expr.call span callee args).findings env = []) :
    ∃ r ps, env.lookup callee.value = some (.function r ps) ∧ Expr.findingsAll env args = [] ∧
      Expr.applicable env ps args = true := by
  rw [Expr.findings] at h
  split at h
  next r ps hf =>
    obtain ⟨hargs, hfit⟩ := List.append_eq_nil_iff.1 h
    refine ⟨r, ps, hf, hargs, ?_⟩
    unfold Finding.unless at hfit
    split at hfit
    · assumption
    · cases hfit
  next => cases h
  next => cases h

/-- Arguments have the types of the parameters. -/
theorem type?_of_applicable {env : TyEnv} (h : Expr.applicable env ps args = true) {i : Nat}
    {e : Expr} (ht : ps[i]? = some t) (he : args[i]? = some e) : e.type? env = some t := by
  induction ps generalizing args i with
  | nil => cases ht
  | cons p ps ih =>
    cases args with
    | nil => cases he
    | cons a args =>
      rw [Expr.applicable, Bool.and_eq_true, decide_eq_true_eq] at h
      cases i with
      | zero =>
        cases ht
        cases he
        exact h.1
      | succ i => exact ih h.2 ht he

theorem findings_of_mem_exprs {env : TyEnv} (i : InitVal) :
    i.findings env = [] → ∀ e ∈ i.exprs, e.findings env = [] := by
  induction i using InitVal.induction with
  | expr e =>
    intro h e' he
    cases List.mem_singleton.1 he
    rwa [InitVal.findings] at h
  | list span items ih =>
    intro h e he
    rw [InitVal.findings, initFindingsAll_eq_nil] at h
    rw [InitVal.exprs, InitVal.mem_exprsAll] at he
    obtain ⟨i, hi, he⟩ := he
    exact ih i hi (h i hi) e he

theorem evalDims_length {symbols : Symbols} {dims : List Nat} (h : evalDims symbols es = .ok dims) :
    dims.length = es.length := by
  induction es generalizing dims with
  | nil =>
    cases h
    rfl
  | cons e es ih =>
    rw [evalDims] at h
    obtain ⟨n, -, h⟩ := except_bind_ok.1 h
    split at h
    next =>
      obtain ⟨ds, hds, h⟩ := except_bind_ok.1 h
      cases h
      rw [List.length_cons, List.length_cons, ih hds]
    next => cases h

end Lower

end SysY
