import SysY.Proofs.Lower.Ends
import SysY.Proofs.Sites
import SysY.Proofs.Static.Program

/-!
# What the values of lowered code are for

A value of lowered code is an integer, or the address of something: of the
words of an array, of the word of a variable, or of the word that holds an
array parameter. Several results say that instructions use values as what they
are, and differ in two respects only. One is what is known of the program: that
it is judged, that no array stands where an integer is needed, that names are
those of variables, or nothing at all (`Policy`). The other is what it means
for a value to have a role (`Reading`).

So the code is walked once, for every policy and every reading. What a
temporary is follows from the instruction whose result it is. A walk therefore
says: if these instructions are instructions of the function, then they use
values as what they are, and the value of the expression has its role
(`Reading.Given`).
-/

namespace SysY

open List

variable {line : Nat} {kind : FindingKind}

theorem Finding.unless_eq_nil {ok : Bool} : Finding.unless ok kind line = [] ↔ ok = true := by
  unfold Finding.unless
  cases ok <;> simp

variable {op : IR.Op}

namespace IR

/-- The place from which an operation loads or to which it stores. -/
def Op.place? : Op → Option Value
  | load a | store _ a => some a
  | _ => none

/-- What else an operation reads. -/
def Op.inputs : Op → List Value
  | load _ => []
  | store v _ => [v]
  | op => op.operands

theorem Op.mem_operands {v : Value} : v ∈ op.operands ↔ v ∈ op.inputs ∨ op.place? = some v := by
  cases op <;> simp [operands, inputs, place?, eq_comm]

end IR

namespace Lower

open IR (Value Op Instr Label Temp)

/-! ## Roles -/

/-- What a value is for. -/
inductive Role where
  | int
  /-- The address of the words of an array. -/
  | array
  /-- The address of the word of a variable. -/
  | cell
  /-- The address of the word that holds an array parameter. -/
  | slot

/-- The role of an argument, which may be an array. -/
def Role.ofArray (isArray : Bool) : Role := if isArray then array else int

variable (has : Role → Value → Prop) (takes : String → List Bool → Prop)

/-- **How operations use values**, and the role of the result if there is
one. -/
inductive Uses : Op → Option Role → Prop
  | alloca : Uses .alloca (some .cell)
  | array {n} : Uses (.array n) (some .array)
  | load {a} : has .cell a ∨ has .array a → Uses (.load a) (some .int)
  | loadSlot {a} : has .slot a → Uses (.load a) (some .array)
  | store {v a} : has .int v → has .cell a ∨ has .array a → Uses (.store v a) none
  | binary {op a b} : has .int a → has .int b → Uses (.binary op a b) (some .int)
  | compare {op a b} : has .int a → has .int b → Uses (.compare op a b) (some .int)
  | zext {v} : has .int v → Uses (.zext v) (some .int)
  | phi {a la b lb} : has .int a → has .int b → Uses (.phi a la b lb) (some .int)
  | element {b o} : has .array b → has .int o → Uses (.element b o) (some .array)
  | jump {l} : Uses (.jump l) none
  | branch {v yes no} : has .int v → Uses (.branch v yes no) none
  | call {f arrays vs} {result : Option Role} : takes f arrays →
    Forall₂ (fun isArray => has (.ofArray isArray)) arrays vs → (∀ r ∈ result, r = .int) →
    Uses (.call f vs) result
  | ret {v} : has .int v → Uses (.ret v) none
  | retVoid : Uses .retVoid none

variable {has takes} {r : Option Role}

theorem Role.has_ofArray {isArray : Bool} {v : Value} (h : has (.ofArray isArray) v) :
    has .int v ∨ has .array v := by
  cases isArray
  · exact .inl h
  · exact .inr h

/-- What an operation reads is an integer or an array, unless it is the place
from which it loads or to which it stores. -/
theorem Uses.inputs (h : Uses has takes op r) : ∀ v ∈ op.inputs, has .int v ∨ has .array v := by
  cases h with
  | alloca | array | jump | retVoid | load | loadSlot => simp [Op.inputs, Op.operands]
  | store hv | zext hv | branch hv | ret hv => simp [Op.inputs, Op.operands, hv]
  | binary ha hb | compare ha hb | phi ha hb | element ha hb =>
    simp [Op.inputs, Op.operands, ha, hb]
  | call hf hvs =>
    clear hf
    show ∀ v ∈ _, _
    induction hvs with
    | nil => exact forall_mem_nil _
    | cons hv _ ih => exact forall_mem_cons.2 ⟨Role.has_ofArray hv, ih⟩

theorem Uses.place (h : Uses has takes op r) {v : Value} (hv : op.place? = some v) :
    ∃ role, has role v := by
  cases h with
  | load ha | store _ ha =>
    cases hv
    exact ha.elim (fun h => ⟨_, h⟩) fun h => ⟨_, h⟩
  | loadSlot ha =>
    cases hv
    exact ⟨_, ha⟩
  | _ => cases hv

/-! ## Policies -/

/-- Whether the reason to stop is a name that means nothing. -/
def isUndefined : Stop → Bool
  | .error ⟨.undefined _, _⟩ => true
  | _ => false

/-- **What is known of a program.** -/
structure Policy where
  /-- The reasons for which the lowering may stop. -/
  allowed : Stop → Prop
  /-- The program is judged, and nothing is wrong with it. -/
  judged : Prop
  /-- What holds at the places of the program. -/
  site : Site → Prop
  /-- Integers and arrays are not told apart. -/
  loose : Prop
  /-- Which arguments of a function are arrays. -/
  takes : String → List Bool → Prop
  /-- Only names that mean nothing are a reason to stop that is not allowed. -/
  stops : ∀ s, isUndefined s = false → allowed s
  /-- Names are those of variables where it matters. -/
  named : ∀ s, site s → s.named = true ∨ ∀ e, allowed e
  /-- No array stands where an integer is needed. -/
  scalar : ∀ s, site s → s.scalar = true ∨ loose
  /-- Of a program that is not judged, nothing is shown that would need it. -/
  unjudged : judged ∨ loose ∧ ∀ e, allowed e

namespace Policy

variable (P : Policy) {fs gs : List Finding} {ss ts : List Site}

/-- Nothing is wrong with a part of the program, and its places are in order. -/
def Ready (fs : List Finding) (ss : List Site) : Prop :=
  (P.judged → fs = []) ∧ ∀ s ∈ ss, P.site s

variable {P}

theorem ready_append : P.Ready (fs ++ gs) (ss ++ ts) ↔ P.Ready fs ss ∧ P.Ready gs ts := by
  simp only [Ready, append_eq_nil_iff, forall_mem_append, imp_and]
  exact and_and_and_comm

/-- A check that has no place of its own. -/
theorem ready_unless {ok : Bool} :
    P.Ready (fs ++ Finding.unless ok kind line) ss ↔ P.Ready fs ss ∧ (P.judged → ok = true) := by
  simp only [Ready, append_eq_nil_iff, Finding.unless_eq_nil, imp_and]
  exact and_right_comm

/-- Nothing is known of the program but the functions that are declared. -/
def unchecked (known : String → Prop) : Policy where
  allowed _ := True
  judged := False
  site _ := True
  loose := True
  takes name _ := known name
  stops _ _ := trivial
  named _ _ := .inr fun _ => trivial
  scalar _ _ := .inr trivial
  unjudged := .inr ⟨trivial, fun _ => trivial⟩

end Policy

/-! ## Scopes -/

/-- **What is known of a name** fits together: its type, the variable and the
function that it means. -/
structure Policy.Agrees (P : Policy) (ok : Symbol → Prop) (name : String) (t : Option Ty)
    (s : Option Symbol) (f : Option Signature) : Prop where
  /-- The variable has a property. -/
  symbol : ∀ x, s = some x → ok x
  /-- It has the type. -/
  typed : P.judged → ∀ x, s = some x → ∃ ty, t = some ty ∧ Suits x ty
  /-- What has the type of a variable is one. -/
  bound : P.judged → ∀ ty, t = some ty → (∀ r ps, ty ≠ .function r ps) → s.isSome = true
  /-- What has the type of a function is one, which takes what the type says. -/
  function : P.judged → ∀ r ps, t = some (.function r ps) →
    f.isSome = true ∧ P.takes name (ps.map (·.isArray))
  /-- A function takes anything if nothing is told apart. -/
  callee : P.loose → f.isSome = true → ∀ arrays, P.takes name arrays

/-- The same of all names in scope. -/
def Policy.Scope (P : Policy) (ok : Symbol → Prop) (env : TyEnv) (symbols : Symbols)
    (functions : Frame Signature) : Prop :=
  ∀ name, P.Agrees ok name (env.lookup name) (symbols.lookup name) (List.lookup name functions)

namespace Policy.Scope

variable {P : Policy} {ok : Symbol → Prop} {env env' : TyEnv} {symbols : Symbols}
  {functions : Frame Signature}

/-- Where nothing is in scope. -/
theorem start : P.Scope ok [[]] [[]] [] := fun _ =>
  { symbol := fun _ h => by cases h
    typed := fun _ _ h => by cases h
    bound := fun _ _ h => by cases h
    function := fun _ _ _ h => by cases h
    callee := fun _ h => by cases h }

section

variable (h : P.Scope ok env symbols functions)

include h

theorem imp {ok' : Symbol → Prop}
    (hok : ∀ s, ok s → ok' s) : P.Scope ok' env symbols functions := fun name =>
  ⟨fun x hx => hok x ((h name).symbol x hx), (h name).typed, (h name).bound, (h name).function,
    (h name).callee⟩

theorem enter :
    P.Scope ok env.enter symbols.enter functions := by
  intro name
  rw [Env.lookup_enter, Env.lookup_enter]
  exact h name

/-- A variable is declared. -/
theorem bind (name : String) {s : Symbol} (hs : ok s)
    (henv : P.judged → ∃ t, env' = env.bind name t ∧ Suits s t) :
    P.Scope ok env' (symbols.bind name s) functions := by
  intro other
  obtain ⟨hsymbol, htyped, hbound, hfunction, hcallee⟩ := h other
  by_cases heq : other = name
  · subst heq
    rw [Env.lookup_bind_self]
    refine ⟨?_, ?_, fun _ _ _ _ => rfl, ?_, hcallee⟩
    · rintro _ ⟨⟩
      exact hs
    · rintro hj _ ⟨⟩
      obtain ⟨t, rfl, hst⟩ := henv hj
      exact ⟨t, Env.lookup_bind_self _ _ _, hst⟩
    · intro hj r ps hf
      obtain ⟨t, rfl, hst⟩ := henv hj
      rw [Env.lookup_bind_self] at hf
      exact absurd (Option.some.inj hf) hst.ne_function
  · have hlookup : P.judged → env'.lookup other = env.lookup other := by
      intro hj
      obtain ⟨t, rfl, -⟩ := henv hj
      exact Env.lookup_bind_of_ne heq
    rw [Env.lookup_bind_of_ne heq]
    exact ⟨hsymbol, fun hj => hlookup hj ▸ htyped hj, fun hj => hlookup hj ▸ hbound hj,
      fun hj => hlookup hj ▸ hfunction hj, hcallee⟩

/-- A function is declared. -/
theorem declare {name : String} (sig : Signature)
    (hjudged : P.judged → ∃ frame r ps, env = [frame] ∧
      env.Free name ∧ env' = env.bind name (.function r ps) ∧ P.takes name (ps.map (·.isArray)))
    (hloose : P.loose → ∀ arrays, P.takes name arrays) :
    P.Scope ok env' symbols ((name, sig) :: functions) := by
  intro other
  obtain ⟨hsymbol, htyped, hbound, hfunction, hcallee⟩ := h other
  by_cases heq : other = name
  · subst heq
    rw [lookup_cons_self]
    -- the name was free, so it is that of no variable
    have hfree : P.judged → symbols.lookup other = none ∧
        ∃ r ps, env'.lookup other = some (.function r ps) ∧
          P.takes other (ps.map (·.isArray)) := by
      intro hj
      obtain ⟨frame, r, ps, rfl, hfree, rfl, htakes⟩ := hjudged hj
      refine ⟨Option.eq_none_iff_forall_ne_some.2 fun x hx => ?_, r, ps, Env.lookup_bind_self _ _ _,
        htakes⟩
      obtain ⟨t, ht, -⟩ := htyped hj x hx
      cases (Env.lookup_of_free hfree).symm.trans ht
    refine ⟨hsymbol, fun hj x hx => ?_, fun hj ty hty hne => ?_, fun hj r ps hf => ⟨rfl, ?_⟩,
      fun hl _ => hloose hl⟩
    · rw [(hfree hj).1] at hx
      cases hx
    · obtain ⟨-, r, ps, hlookup, -⟩ := hfree hj
      exact absurd (Option.some.inj (hty.symm.trans hlookup)) (hne r ps)
    · obtain ⟨-, r', ps', hlookup, htakes⟩ := hfree hj
      cases hf.symm.trans hlookup
      exact htakes
  · have hlookup : P.judged → env'.lookup other = env.lookup other := by
      intro hj
      obtain ⟨frame, r, ps, -, -, rfl, -⟩ := hjudged hj
      exact Env.lookup_bind_of_ne heq
    have hne : (other == name) = false := by simpa using heq
    rw [List.lookup_cons, hne]
    exact ⟨hsymbol, fun hj => hlookup hj ▸ htyped hj, fun hj => hlookup hj ▸ hbound hj,
      fun hj => hlookup hj ▸ hfunction hj, hcallee⟩

end

end Policy.Scope

/-! ## Readings -/

/-- **What it means for a value to have a role.** -/
structure Reading (P : Policy) where
  /-- The value has the role. -/
  has : Role → Value → Prop
  /-- The instruction is one of the function. -/
  there : Instr → Prop
  /-- A constant is an integer. -/
  const : ∀ n, has .int (.const n)
  /-- A temporary is what the instruction gives that defines it. -/
  result : ∀ ⦃t op r⦄, there ⟨some t, op⟩ → Uses has P.takes op (some r) → has r (.temp t)
  /-- Integers and arrays are the same if they are not told apart. -/
  same : P.loose → ∀ v, has .int v ↔ has .array v

namespace Reading

variable {P : Policy} (R : Reading P) {pre Q Q' : Prop} {is is' : List Instr} {v : Value}

/-- The address of a variable has the role that goes with it. -/
def Symbol : Symbol → Prop
  | .scalar a _ => R.has .cell a
  | .array (.address a) dims _ => R.has .array a ∧ dims ≠ []
  | .array (.pointer a) dims _ => R.has .slot a ∧ dims ≠ []

/-- An instruction uses values as what they are. -/
def Fits (i : Instr) : Prop :=
  ∃ r : Option Role, Uses R.has P.takes i.op r ∧ r.isSome = i.output.isSome

/-- If some instructions are instructions of the function, they use values as
what they are, and more is the case. -/
def Given (pre : Prop) (is : List Instr) (Q : Prop) : Prop :=
  pre → (∀ i ∈ is, R.there i) → (∀ i ∈ is, R.Fits i) ∧ Q

variable {R}

theorem Given.nil (h : pre → Q) : R.Given pre [] Q := fun hpre _ => ⟨by simp, h hpre⟩

theorem Given.imp (h : R.Given pre is Q) (hQ : Q → Q') : R.Given pre is Q' := fun hpre hall =>
  (h hpre hall).imp_right hQ

theorem Given.assume (h : pre → R.Given pre is Q) : R.Given pre is Q := fun hpre => h hpre hpre

/-- Instructions after others, of which more may be known then. -/
theorem Given.within (h : R.Given pre is Q)
    (h' : Q → R.Given (pre ∧ ∀ i ∈ is, R.there i) is' Q') : R.Given pre (is ++ is') Q' := by
  intro hpre hall
  rw [forall_mem_append] at hall ⊢
  obtain ⟨hfits, hQ⟩ := h hpre hall.1
  obtain ⟨hfits', hQ'⟩ := h' hQ ⟨hpre, hall.1⟩ hall.2
  exact ⟨⟨hfits, hfits'⟩, hQ'⟩

theorem Given.andThen (h : R.Given pre is Q) (h' : Q → R.Given pre is' Q') :
    R.Given pre (is ++ is') Q' :=
  h.within fun hQ hpre => h' hQ hpre.1

theorem Given.and (h : R.Given pre is Q) (h' : R.Given pre is' Q') :
    R.Given pre (is ++ is') (Q ∧ Q') :=
  h.andThen fun hQ => h'.imp fun hQ' => ⟨hQ, hQ'⟩

/-- The same, where more is known that is still needed. -/
theorem Given.next {A : Prop} (h : R.Given pre is (A ∧ Q)) (h' : Q → R.Given pre is' Q') :
    R.Given pre (is ++ is') (A ∧ Q') :=
  h.andThen fun hQ => (h' hQ.2).imp fun hQ' => ⟨hQ.1, hQ'⟩

/-- An instruction without a result. -/
theorem Given.perform (h : R.Given pre is Q) (hop : Q → Uses R.has P.takes op none) :
    R.Given pre (is ++ [⟨none, op⟩]) Q :=
  h.andThen fun hQ _ _ => ⟨forall_mem_singleton.2 ⟨none, hop hQ, rfl⟩, hQ⟩

/-- An instruction with one. -/
theorem define_given (R : Reading P) {op : Op} : GenEnds P.allowed (define op) fun r =>
    ∀ ⦃pre : Prop⦄ ⦃role : Role⦄, Uses R.has P.takes op (some role) →
      R.Given pre r.1 (R.has role r.2) :=
  fun _ _ role h _ hall => ⟨forall_mem_singleton.2 ⟨some role, h, rfl⟩,
    R.result (hall _ (mem_singleton_self _)) h⟩

/-- A value that may be an array has the role that the program says. -/
theorem has_ofArray {a b : Bool} (h : P.judged → a = b) (hv : R.has (.ofArray b) v) :
    R.has (.ofArray a) v := by
  rcases P.unjudged with hj | ⟨hloose, -⟩
  · rwa [h hj]
  · have hsame := R.same hloose v
    cases a <;> cases b
    · exact hv
    · exact hsame.2 hv
    · exact hsame.1 hv
    · exact hv

end Reading

/-! ## Code -/

def Code.instrs (c : Code) : List Instr :=
  c.filterMap fun
    | .label _ => none
    | .instr i => some i

@[simp] theorem Code.instrs_nil : Code.instrs [] = [] := rfl

@[simp] theorem Code.instrs_append (c c' : Code) :
    Code.instrs (c ++ c') = Code.instrs c ++ Code.instrs c' := filterMap_append

@[simp] theorem Code.instrs_label (l : Label) : Code.instrs [.label l] = [] := rfl

@[simp] theorem Code.instrs_straight (is : List Instr) : Code.instrs (straight is) = is := by
  simp [Code.instrs, straight, filterMap_map]

@[simp] theorem Code.instrs_perform (op : Op) : Code.instrs (perform op) = [⟨none, op⟩] := rfl

/-! ## Constants -/

section

variable {P : Policy} {ok : Symbol → Prop} {env : TyEnv} {symbols : Symbols}
  {functions : Frame Signature}

theorem Policy.fail_ends (P : Policy) {α : Type} {Q : α → Prop} {e : Error} (span : Span)
    (he : ∀ name, e ≠ .undefined name) : Ends P.allowed (fail span e : Except Stop α) Q := by
  refine P.stops _ ?_
  cases e with
  | undefined name => exact absurd rfl (he name)
  | _ => rfl

theorem literal_ends (P : Policy) (span : Span) (text : String) :
    Ends P.allowed (literal span text) fun _ => True := by
  unfold literal
  split
  · trivial
  · exact P.fail_ends span fun _ h => Error.noConfusion h
  · exact P.stops _ rfl

theorem checkedWords_ends (P : Policy) (dims : List Nat) (name : Ident) :
    Ends P.allowed (checkedWords dims name) fun _ => True := by
  unfold checkedWords
  dsimp only
  split
  · trivial
  · split
    · exact P.fail_ends _ fun _ h => Error.noConfusion h
    · exact P.stops _ rfl

/-- A name that is taken for a variable is found. -/
theorem Policy.Scope.resolve_ends (h : P.Scope ok env symbols functions) {name : Ident}
    (hsite : P.site ⟨env, .variable name.value⟩) :
    Ends P.allowed (symbols.resolve name) fun s => symbols.lookup name.value = some s := by
  unfold Symbols.resolve
  cases hlookup : symbols.lookup name.value with
  | some s => rfl
  | none =>
    have hfree : ∀ e, P.allowed e := by
      rcases P.unjudged with hj | ⟨-, hfree⟩
      · refine (P.named _ hsite).resolve_left fun hnamed => ?_
        have hbound := (h name.value).bound hj
        rw [hlookup] at hbound
        unfold Site.named TyEnv.isVariable at hnamed
        dsimp only at hnamed
        split at hnamed
        next => cases hnamed
        next => cases hnamed
        next ty hne hty => cases hbound ty hty fun r ps => hne r ps
      · exact hfree
    exact hfree _

/-- **Constant expressions find their names.** -/
theorem evalConst_ends (h : P.Scope ok env symbols functions) (e : Expr) :
    (∀ s ∈ e.sites env, P.site s) → Ends P.allowed (evalConst symbols e) fun _ => True := by
  have hnot : ∀ span, Ends P.allowed (fail span .notConstant : Except Stop Int32) fun _ => True :=
    fun span => P.fail_ends span fun _ h => Error.noConfusion h
  induction e using Expr.induction with
  | number span text =>
    intro _
    rw [evalConst]
    exact literal_ends P span text
  | paren span e ih =>
    intro hsites
    rw [Expr.sites] at hsites
    rw [evalConst]
    exact ih hsites
  | unary span op e ih =>
    intro hsites
    rw [Expr.sites] at hsites
    rw [evalConst]
    exact (ih hsites).bind fun _ _ => trivial
  | binary span op a b iha ihb =>
    intro hsites
    rw [Expr.sites, forall_mem_append] at hsites
    rw [evalConst]
    refine (iha hsites.1).bind fun x _ => (ihb hsites.2).bind fun y _ => ?_
    split
    · trivial
    · exact P.fail_ends span fun _ h => Error.noConfusion h
  | call span callee args =>
    intro _
    rw [evalConst]
    exact hnot span
  | lval span name indices ih =>
    intro hsites
    rw [Expr.sites, forall_mem_cons, forall_mem_append] at hsites
    obtain ⟨hname, -, hindices⟩ := hsites
    have hes : ∀ e ∈ indices, Ends P.allowed (evalConst symbols e) fun _ => True := fun e he =>
      ih e he fun s hs => hindices s (Expr.mem_sitesAll.2 ⟨e, he, hs⟩)
    rw [evalConst]
    refine (h.resolve_ends hname).bind fun s _ => ?_
    split
    · split
      · trivial
      · exact hnot span
    · split
      · refine (evalOffset_ends hes (P.stops _ rfl) _ _).bind fun k _ => ?_
        split
        · trivial
        · exact hnot span
      · exact hnot span
    · exact hnot span

theorem Policy.Scope.evalDims_ends (h : P.Scope ok env symbols functions) {es : List Expr}
    (hsites : ∀ s ∈ Expr.sitesAll env es, P.site s) :
    Ends P.allowed (evalDims symbols es) fun _ => True :=
  Lower.evalDims_ends
    (fun e he => evalConst_ends h e fun s hs => hsites s (Expr.mem_sitesAll.2 ⟨e, he, hs⟩))
    fun _ _ => P.stops _ rfl

end

end Lower

end SysY
