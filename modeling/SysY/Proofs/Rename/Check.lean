import SysY.Proofs.Names
import SysY.Proofs.Rename.Syntax
import SysY.Proofs.Roles.Expr

/-!
# A renamed program is judged alike

The renamed declaration has its old name in one environment and its new name
in the other, and what a name means in the first is what the renamed name
means in the second (`Renaming.Agrees`). Expressions are then judged alike,
finding by finding.

Declarations keep the agreement as long as the new name occurs nowhere. The
judgement asks one thing more of them, that the frame does not have the name
yet; `Renaming.Types` says what is needed for that.
-/

namespace SysY

open List

/-! ## Renamings -/

namespace Renaming

variable {r : Renaming} {α : Type} {A A' : Env α} {x : Ident} {z : String} {a : α}

@[simp] theorem ident_value : (r.ident x).value = r.name x.value := rfl
@[simp] theorem ident_line : (r.ident x).line = x.line := rfl

@[simp] theorem newName_enter : r.enter.newName = r.newName := rfl
@[simp] theorem newName_declare : (r.declare x).newName = r.newName := rfl

@[simp] theorem newName_declareAll (xs : List Ident) :
    (r.declareAll xs).newName = r.newName := by
  induction xs generalizing r with
  | nil => rfl
  | cons x xs ih => exact ih

@[simp] theorem marked_enter (z : String) : r.enter.marked z = r.marked z := by
  simp [marked, enter]

@[simp] theorem name_enter (z : String) : r.enter.name z = r.name z := by
  simp [name]

/-- The declaration that is passed means itself. -/
@[simp] theorem marked_declare_self : (r.declare x).marked x.value = decide (r.before = some 0) := by
  simp [marked, declare]

theorem marked_declare_of_ne (hz : z ≠ x.value) : (r.declare x).marked z = r.marked z := by
  simp [marked, declare, Env.lookup_bind_of_ne hz]

theorem name_declare_of_ne (hz : z ≠ x.value) : (r.declare x).name z = r.name z := by
  simp [name, marked_declare_of_ne hz]

theorem name_declare_of_next (h : r.before = some 0) : (r.declare x).name x.value = r.newName := by
  simp [name, h]

theorem name_declare_of_not_next (h : r.before ≠ some 0) :
    (r.declare x).name x.value = x.value := by
  simp [name, h]

theorem name_of_not_marked (h : r.marked z = false) : r.name z = z := by
  simp [name, h]

/-- What a renaming does not change of the things that it goes through. -/
theorem map_through {β γ : Type} {name : β → Ident} {rename : Renaming → β → β} {g : β → γ}
    (r : Renaming) (h : ∀ r x, g (rename r x) = g x) (xs : List β) :
    (r.through name rename xs).map g = xs.map g := by
  induction xs generalizing r with
  | nil => rfl
  | cons x xs ih => rw [through, map_cons, map_cons, h, ih]

/-- There is something left to rename only if nothing has been renamed. -/
def Once (r : Renaming) : Prop := r.before ≠ none → ∀ z, r.marked z = false

theorem Once.enter (h : r.Once) : r.enter.Once := fun hb z => (marked_enter z).trans (h hb z)

theorem before_of_skip {n : Nat} (h : (r.skip n).before ≠ none) : r.before ≠ none := by
  intro hnone
  exact h (by simp [skip, hnone])

theorem Once.skip (h : r.Once) (n : Nat) : (r.skip n).Once := fun hb => h (before_of_skip hb)

/-- A declaration that leaves something to rename is not the renamed one. -/
theorem before_of_declare (h : (r.declare x).before ≠ none) :
    r.before ≠ none ∧ r.before ≠ some 0 := by
  refine ⟨before_of_skip h, fun hnext => h ?_⟩
  show r.before.bind _ = none
  rw [hnext]
  rfl

theorem Once.declare (h : r.Once) : (r.declare x).Once := by
  intro hb z
  obtain ⟨hsome, hnext⟩ := before_of_declare hb
  by_cases hz : z = x.value
  · rw [hz, marked_declare_self]
    exact decide_eq_false hnext
  · rw [marked_declare_of_ne hz]
    exact h hsome z

/-- What a name means in one environment, the renamed name means in the
other. -/
def Agrees (r : Renaming) (A A' : Env α) : Prop :=
  ∀ z, z ≠ r.newName → A'.lookup (r.name z) = A.lookup z

theorem Agrees.enter (h : r.Agrees A A') : r.enter.Agrees A.enter A'.enter := by
  intro z hz
  rw [name_enter, Env.lookup_enter, Env.lookup_enter]
  exact h z hz

theorem Agrees.skip (h : r.Agrees A A') (n : Nat) : (r.skip n).Agrees A A' := h

/-- **A declaration keeps the agreement**, under the name that it has in each
environment. -/
theorem Agrees.declare (h : r.Agrees A A') (honce : r.Once) (hx : x.value ≠ r.newName) :
    (r.declare x).Agrees (A.bind x.value a) (A'.bind ((r.declare x).name x.value) a) := by
  intro z hz
  rw [newName_declare] at hz
  by_cases hzx : z = x.value
  · rw [hzx, Env.lookup_bind_self, Env.lookup_bind_self]
  · -- another name: it must not become the one that is bound here
    have hne : r.name z ≠ (r.declare x).name x.value := by
      by_cases hnext : r.before = some 0
      · rw [name_declare_of_next hnext, name_of_not_marked (honce (by simp [hnext]) z)]
        exact hz
      · rw [name_declare_of_not_next hnext]
        unfold name
        split
        · exact hx.symm
        · exact hzx
    rw [name_declare_of_ne hzx, Env.lookup_bind_of_ne hne, Env.lookup_bind_of_ne hzx]
    exact h z hz

/-! ## Environments of types -/

/-- The environments in which a program and its renamed form are judged at a
place. -/
structure Types (r : Renaming) (Γ Γ' : TyEnv) : Prop where
  /-- At most one declaration is renamed. -/
  once : r.Once
  /-- Names have the same types. -/
  agrees : r.Agrees Γ Γ'
  /-- The renamed declaration is a variable. -/
  isVariable : ∀ z, r.marked z = true → ∃ n, Γ.lookup z = some (.arrayOf .int n)
  /-- No name is taken in the second frame only. -/
  free : ∀ z, z ≠ r.newName → Γ.Free z → Γ'.Free z
  /-- The new name is not taken before it is given. -/
  unused : r.before ≠ none → Γ'.Free r.newName

namespace Types

variable {Γ Γ' : TyEnv}

/-- At the start of a function the environments are the same. -/
theorem initial (Γ : TyEnv) (y : String) (before : Option Nat) :
    Types (Renaming.mk y [] before).enter Γ.enter Γ.enter where
  once := fun _ _ => rfl
  agrees := fun _ _ => rfl
  isVariable := fun z h => by
    rw [marked_enter] at h
    cases h
  free := fun _ _ h => h
  unused := fun _ => rfl

theorem enter (h : r.Types Γ Γ') : r.enter.Types Γ.enter Γ'.enter where
  once := h.once.enter
  agrees := h.agrees.enter
  isVariable := by
    intro z hz
    rw [Env.lookup_enter]
    exact h.isVariable z (by rwa [marked_enter] at hz)
  free := fun z _ _ => Env.free_enter Γ' z
  unused := fun _ => Env.free_enter Γ' _

theorem skip (h : r.Types Γ Γ') (n : Nat) : (r.skip n).Types Γ Γ' where
  once := h.once.skip n
  agrees := h.agrees.skip n
  isVariable := h.isVariable
  free := h.free
  unused := fun hb => h.unused (before_of_skip hb)

/-- The renamed declaration may be declared where the old one may. -/
theorem free_name (h : r.Types Γ Γ') (hx : x.value ≠ r.newName) (hfree : Γ.Free x.value) :
    Γ'.Free ((r.declare x).name x.value) := by
  by_cases hnext : r.before = some 0
  · rw [name_declare_of_next hnext]
    exact h.unused (by simp [hnext])
  · rw [name_declare_of_not_next hnext]
    exact h.free _ hx hfree

/-- **Declaring a variable** in both environments. -/
theorem declare (h : r.Types Γ Γ') (hx : x.value ≠ r.newName) (n : Nat) :
    (r.declare x).Types (Γ.bind x.value (.arrayOf .int n))
      (Γ'.bind ((r.declare x).name x.value) (.arrayOf .int n)) where
  once := h.once.declare
  agrees := h.agrees.declare h.once hx
  isVariable := by
    intro z hz
    by_cases hzx : z = x.value
    · rw [hzx, Env.lookup_bind_self]
      exact ⟨n, rfl⟩
    · rw [Env.lookup_bind_of_ne hzx]
      exact h.isVariable z (by rwa [marked_declare_of_ne hzx] at hz)
  free := by
    intro z hz hfree
    obtain ⟨hzx, hfree⟩ := Env.free_bind_iff.1 hfree
    refine Env.free_bind_iff.2 ⟨?_, h.free z hz hfree⟩
    unfold name
    split
    · exact hz
    · exact hzx
  unused := by
    intro hb
    obtain ⟨hsome, hnext⟩ := before_of_declare hb
    refine Env.free_bind_iff.2 ⟨?_, h.unused hsome⟩
    rw [name_declare_of_not_next hnext]
    exact hx.symm

end Types

end Renaming

/-! ## Expressions -/

variable {es : List Expr}

section Expressions

variable {r : Renaming} {Γ Γ' : TyEnv} {y : String}

theorem Expr.renameAll_eq_map (es : List Expr) : Expr.renameAll r es = es.map (Expr.rename r) := by
  induction es with
  | nil => rfl
  | cons e es ih => rw [Expr.renameAll, ih, map_cons]

@[simp] theorem Expr.length_renameAll (es : List Expr) : (Expr.renameAll r es).length = es.length := by
  rw [Expr.renameAll_eq_map, length_map]

theorem Expr.mem_identsAll {z : String} : z ∈ Expr.identsAll es ↔ ∃ e ∈ es, z ∈ e.idents := by
  induction es with
  | nil => simp [Expr.identsAll]
  | cons e es ih => simp [Expr.identsAll, ih]

theorem Expr.not_mem_identsAll (h : y ∉ Expr.identsAll es) : ∀ e ∈ es, y ∉ e.idents :=
  fun e he hy => h (Expr.mem_identsAll.2 ⟨e, he, hy⟩)

@[simp] theorem Expr.span_rename (e : Expr) : (e.rename r).span = e.span := by
  cases e <;> rfl

theorem Renaming.Agrees.lvalType? (h : r.Agrees Γ Γ') {x : String} (hx : x ≠ r.newName) (n : Nat) :
    Γ'.lvalType? (r.name x) n = Γ.lvalType? x n := by
  unfold TyEnv.lvalType?
  rw [h x hx]

/-- **A renamed expression has the same type.** -/
theorem Expr.type?_rename (h : r.Agrees Γ Γ') (e : Expr) (hy : r.newName ∉ e.idents) :
    (e.rename r).type? Γ' = e.type? Γ := by
  induction e using Expr.induction with
  | number span text => rfl
  | lval span x is ih =>
    rw [Expr.idents, mem_cons, not_or] at hy
    rw [Expr.rename, Expr.type?, Expr.type?, Expr.length_renameAll]
    exact h.lvalType? (Ne.symm hy.1) _
  | call span f args ih =>
    rw [Expr.idents, mem_cons, not_or] at hy
    rw [Expr.rename, Expr.type?, Expr.type?, Renaming.ident_value, h _ (Ne.symm hy.1)]
  | unary span op e ih | paren span e ih => rw [Expr.rename, Expr.type?, Expr.type?, ih hy]
  | binary span op a b iha ihb =>
    rw [Expr.idents, mem_append, not_or] at hy
    rw [Expr.rename, Expr.type?, Expr.type?, iha hy.1, ihb hy.2]

theorem Expr.applicable_rename (h : r.Agrees Γ Γ') (hy : r.newName ∉ Expr.identsAll es)
    (ts : List Ty) : Expr.applicable Γ' ts (Expr.renameAll r es) = Expr.applicable Γ ts es := by
  induction es generalizing ts with
  | nil => cases ts <;> rfl
  | cons e es ih =>
    rw [Expr.identsAll, mem_append, not_or] at hy
    cases ts with
    | nil => rfl
    | cons t ts =>
      rw [Expr.renameAll, Expr.applicable, Expr.applicable, Expr.type?_rename h e hy.1, ih hy.2]

theorem Expr.findingsAll_rename (hes : ∀ e ∈ es, (e.rename r).findings Γ' = e.findings Γ) :
    Expr.findingsAll Γ' (Expr.renameAll r es) = Expr.findingsAll Γ es := by
  induction es with
  | nil => rfl
  | cons e es ih =>
    obtain ⟨hhead, htail⟩ := forall_mem_cons.1 hes
    rw [Expr.renameAll, Expr.findingsAll, Expr.findingsAll, hhead, ih htail]

/-- **The same is wrong with a renamed expression.** -/
theorem Expr.findings_rename (h : r.Agrees Γ Γ') (e : Expr) (hy : r.newName ∉ e.idents) :
    (e.rename r).findings Γ' = e.findings Γ := by
  induction e using Expr.induction with
  | number span text => rfl
  | lval span x is ih =>
    rw [Expr.idents, mem_cons, not_or] at hy
    obtain ⟨hx, hy⟩ := hy
    have his := Expr.findingsAll_rename fun e he => ih e he (Expr.not_mem_identsAll hy e he)
    rw [Expr.rename, Expr.findings, Expr.findings, Expr.length_renameAll, his,
      Renaming.ident_value, Renaming.ident_line, h _ (Ne.symm hx), h.lvalType? (Ne.symm hx)]
  | call span f args ih =>
    rw [Expr.idents, mem_cons, not_or] at hy
    obtain ⟨hf, hy⟩ := hy
    have hargs := Expr.findingsAll_rename fun e he => ih e he (Expr.not_mem_identsAll hy e he)
    have hline : (Expr.renameAll r args).head?.map (·.span.line)
        = args.head?.map (·.span.line) := by
      cases args with
      | nil => rfl
      | cons e es => exact congrArg some (congrArg Span.line e.span_rename)
    rw [Expr.rename, Expr.findings, Expr.findings, Renaming.ident_value, Renaming.ident_line,
      h _ (Ne.symm hf), hargs, hline]
    simp only [Expr.applicable_rename h hy]
  | unary span op e ih =>
    rw [Expr.rename, Expr.findings, Expr.findings, ih hy, Expr.type?_rename h e hy]
  | binary span op a b iha ihb =>
    rw [Expr.idents, mem_append, not_or] at hy
    rw [Expr.rename, Expr.findings, Expr.findings, iha hy.1, ihb hy.2,
      Expr.type?_rename h a hy.1, Expr.type?_rename h b hy.2]
  | paren span e ih => rw [Expr.rename, Expr.findings, Expr.findings, ih hy]

theorem Expr.findingsAll_renameAll (h : r.Agrees Γ Γ') (hy : r.newName ∉ Expr.identsAll es) :
    Expr.findingsAll Γ' (Expr.renameAll r es) = Expr.findingsAll Γ es :=
  Expr.findingsAll_rename fun e he => Expr.findings_rename h e (Expr.not_mem_identsAll hy e he)

@[simp] theorem Cond.span_rename (c : Cond) : (c.rename r).span = c.span := by
  cases c with
  | expr e => exact e.span_rename
  | _ => rfl

theorem Cond.type?_rename (h : r.Agrees Γ Γ') (c : Cond) (hy : r.newName ∉ c.idents) :
    (c.rename r).type? Γ' = c.type? Γ := by
  induction c with
  | expr e => exact Expr.type?_rename h e hy
  | compare span op a b iha ihb | logic span op a b iha ihb =>
    rw [Cond.idents, mem_append, not_or] at hy
    rw [Cond.rename, Cond.type?, Cond.type?, iha hy.1, ihb hy.2]

theorem Cond.findings_rename (h : r.Agrees Γ Γ') (c : Cond) (hy : r.newName ∉ c.idents) :
    (c.rename r).findings Γ' = c.findings Γ := by
  have htype := Cond.type?_rename h c hy
  have hspan := Cond.span_rename (r := r) c
  induction c with
  | expr e =>
    rw [Cond.rename] at htype hspan
    rw [Cond.rename, Cond.findings, Cond.findings, htype, hspan, Expr.findings_rename h e hy]
  | compare span op a b iha ihb | logic span op a b iha ihb =>
    rw [Cond.idents, mem_append, not_or] at hy
    rw [Cond.rename] at htype
    rw [Cond.rename, Cond.findings, Cond.findings, htype,
      iha hy.1 (Cond.type?_rename h a hy.1) a.span_rename,
      ihb hy.2 (Cond.type?_rename h b hy.2) b.span_rename]
    rfl

theorem InitVal.not_mem_idents_of_mem {span : Span} {items : List InitVal}
    (hy : y ∉ (InitVal.list span items).idents) : ∀ i ∈ items, y ∉ i.idents := by
  intro i hi hmem
  obtain ⟨e, he, hz⟩ := mem_flatMap.1 hmem
  exact hy (mem_flatMap.2 ⟨e, InitVal.mem_exprsAll.2 ⟨i, hi, he⟩, hz⟩)

theorem InitVal.not_mem_idents_expr {e : Expr} (hy : y ∉ (InitVal.expr e).idents) : y ∉ e.idents :=
  fun h => hy (mem_flatMap.2 ⟨e, mem_singleton_self e, h⟩)

theorem InitVal.type?_rename (h : r.Agrees Γ Γ') (i : InitVal) (hy : r.newName ∉ i.idents) :
    (i.rename r).type? Γ' = i.type? Γ := by
  cases i with
  | expr e => exact Expr.type?_rename h e (InitVal.not_mem_idents_expr hy)
  | list span items => rfl

theorem InitVal.findings_rename (h : r.Agrees Γ Γ') (i : InitVal) (hy : r.newName ∉ i.idents) :
    (i.rename r).findings Γ' = i.findings Γ := by
  induction i using InitVal.induction with
  | expr e => exact Expr.findings_rename h e (InitVal.not_mem_idents_expr hy)
  | list span items ih =>
    have hitems (is : List InitVal) (his : ∀ i ∈ is, (i.rename r).findings Γ' = i.findings Γ) :
        InitVal.findingsAll Γ' (InitVal.renameAll r is) = InitVal.findingsAll Γ is := by
      induction is with
      | nil => rfl
      | cons i is ihis =>
        obtain ⟨hhead, htail⟩ := forall_mem_cons.1 his
        rw [InitVal.renameAll, InitVal.findingsAll, InitVal.findingsAll, hhead, ihis htail]
    exact hitems items fun i hi => ih i hi (InitVal.not_mem_idents_of_mem hy i hi)

theorem Initializer.findings_rename (h : r.Agrees Γ Γ') (declared : Ty) (i : Initializer)
    (hy : r.newName ∉ i.value.idents) :
    Initializer.findings Γ' declared { i with value := i.value.rename r }
      = i.findings Γ declared := by
  unfold Initializer.findings Initializer.suits
  dsimp only
  rw [InitVal.findings_rename h _ hy, InitVal.type?_rename h _ hy]

end Expressions

/-! ## Declarations -/

section Declarations

variable {r : Renaming} {Γ Γ' : TyEnv}

theorem Definition.type_rename (d : Definition) : (d.rename r).type = d.type :=
  congrArg (Ty.arrayOf .int) (Expr.length_renameAll d.dims)

theorem Definition.innerFindings_rename {d : Definition} (h : (r.declare d.name).Agrees Γ Γ')
    (hdims : r.newName ∉ Expr.identsAll d.dims) (hinit : r.newName ∉ d.initIdents) :
    (d.rename r).innerFindings Γ' = d.innerFindings Γ := by
  unfold Definition.innerFindings
  rw [Definition.type_rename]
  refine congr (congrArg _ (Expr.findingsAll_renameAll h hdims)) ?_
  unfold Definition.initIdents at hinit
  unfold Definition.rename
  cases hd : d.init with
  | none => rfl
  | some i =>
    rw [hd] at hinit
    exact Initializer.findings_rename h d.type i hinit

/-- **A renamed definition is judged alike.** -/
theorem Definition.judge_rename (h : r.Types Γ Γ') {d : Definition} (hy : r.newName ∉ d.idents)
    (hnil : (d.judge Γ).2 = []) :
    ((d.rename r).judge Γ').2 = [] ∧
      (r.declare d.name).Types (d.judge Γ).1 ((d.rename r).judge Γ').1 := by
  rw [Definition.idents, mem_cons, mem_append, not_or, not_or] at hy
  obtain ⟨hname, hdims, hinit⟩ := hy
  obtain ⟨hfree, henv, hinner⟩ := Definition.judge_iff.1 (TyEnv.eq_of_nil hnil)
  have htypes := h.declare (Ne.symm hname) d.dims.length
  have hrenamed := (Definition.judge_iff (d := d.rename r)).2
    ⟨h.free_name (Ne.symm hname) hfree, rfl, by
      rw [Definition.type_rename]
      exact (Definition.innerFindings_rename htypes.agrees hdims hinit).trans (henv ▸ hinner)⟩
  rw [hrenamed, henv, Definition.type_rename]
  exact ⟨rfl, htypes⟩

theorem Parameter.exists_type (p : Parameter) : ∃ n, p.type = .arrayOf .int n := by
  unfold Parameter.type
  split
  next => exact ⟨0, rfl⟩
  next dims _ => exact ⟨dims.length + 1, rfl⟩

theorem Parameter.type_rename (p : Parameter) : (p.rename r).type = p.type := by
  unfold Parameter.type Parameter.rename
  cases p.array with
  | none => rfl
  | some dims => exact congrArg (fun n => Ty.arrayOf .int (n + 1)) (Expr.length_renameAll dims)

theorem Parameter.dims_rename (p : Parameter) :
    (p.rename r).array.getD [] = Expr.renameAll (r.declare p.name) (p.array.getD []) := by
  unfold Parameter.rename
  cases p.array <;> rfl

/-- **A renamed parameter is judged alike.** -/
theorem Parameter.judge_rename (h : r.Types Γ Γ') {p : Parameter} (hy : r.newName ∉ p.idents)
    (hnil : (p.judge Γ).2 = []) :
    ((p.rename r).judge Γ').2 = [] ∧
      (r.declare p.name).Types (p.judge Γ).1 ((p.rename r).judge Γ').1 := by
  rw [Parameter.idents, mem_cons, not_or] at hy
  obtain ⟨hname, hdims⟩ := hy
  obtain ⟨hfree, henv, hinner⟩ := Parameter.judge_iff.1 (TyEnv.eq_of_nil hnil)
  obtain ⟨n, hn⟩ := p.exists_type
  have htypes := h.declare (Ne.symm hname) n
  rw [← hn] at htypes
  have hrenamed := (Parameter.judge_iff (p := p.rename r)).2
    ⟨h.free_name (Ne.symm hname) hfree, rfl, by
      rw [Parameter.type_rename, Parameter.dims_rename]
      exact (Expr.findingsAll_renameAll htypes.agrees hdims).trans (henv ▸ hinner)⟩
  rw [hrenamed, henv, Parameter.type_rename]
  exact ⟨rfl, htypes⟩

/-- Things that declare a name each are judged alike one after the other, if
each of them is. -/
theorem Renaming.Types.judgeAll {α : Type} {name : α → Ident} {idents : α → List String}
    {rename : Renaming → α → α} {judge : TyEnv → α → TyEnv × List Finding}
    (hstep : ∀ {r : Renaming} {Γ Γ' : TyEnv}, r.Types Γ Γ' → ∀ {x : α}, r.newName ∉ idents x →
      (judge Γ x).2 = [] → (judge Γ' (rename r x)).2 = [] ∧
        (r.declare (name x)).Types (judge Γ x).1 (judge Γ' (rename r x)).1)
    (h : r.Types Γ Γ') {xs : List α} (hy : r.newName ∉ xs.flatMap idents)
    (hnil : (TyEnv.judgeAll judge Γ xs).2 = []) :
    (TyEnv.judgeAll judge Γ' (r.through name rename xs)).2 = [] ∧
      (r.declareAll (xs.map name)).Types (TyEnv.judgeAll judge Γ xs).1
        (TyEnv.judgeAll judge Γ' (r.through name rename xs)).1 := by
  induction xs generalizing r Γ Γ' with
  | nil => exact ⟨rfl, h⟩
  | cons x xs ih =>
    rw [flatMap_cons, mem_append, not_or] at hy
    obtain ⟨hhere, hlater⟩ := append_eq_nil_iff.1 hnil
    obtain ⟨hhere', htypes⟩ := hstep h hy.1 hhere
    obtain ⟨hlater', htypes'⟩ := ih htypes hy.2 hlater
    exact ⟨append_eq_nil_iff.2 ⟨hhere', hlater'⟩, htypes'⟩

theorem Decl.definitions_rename (d : Decl) :
    (d.rename r).definitions = r.through Definition.name Definition.rename d.definitions := rfl

theorem Decl.judge_rename (h : r.Types Γ Γ') {d : Decl}
    (hy : r.newName ∉ d.definitions.flatMap Definition.idents) (hnil : (d.judge Γ).2 = []) :
    ((d.rename r).judge Γ').2 = [] ∧
      (r.declareAll d.names).Types (d.judge Γ).1 ((d.rename r).judge Γ').1 :=
  h.judgeAll Definition.judge_rename hy hnil

end Declarations

/-! ## Statements -/

section Statements

variable {returns : Ty}

theorem Stmt.findings_rename_assign {r : Renaming} {Γ Γ' : TyEnv} (h : r.Agrees Γ Γ')
    {target : LVal} {mark : Span} {value : Expr} (hy : r.newName ∉ target.idents ++ value.idents) :
    (Stmt.assign (target.rename r) mark (value.rename r)).findings returns Γ'
      = (Stmt.assign target mark value).findings returns Γ := by
  rw [mem_append, not_or] at hy
  obtain ⟨htarget, hvalue⟩ := hy
  -- the target is judged as the expression that reads it
  have hlval := Expr.findings_rename h (.lval target.span target.name target.indices) htarget
  rw [LVal.idents, mem_cons, not_or] at htarget
  have hname : (target.rename r).name.value = r.name target.name.value := rfl
  have hlength : (target.rename r).indices.length = target.indices.length :=
    Expr.length_renameAll target.indices
  rw [Stmt.findings, Stmt.findings, hname, hlength, h _ (Ne.symm htarget.1),
    h.lvalType? (Ne.symm htarget.1), Expr.findings_rename h value hvalue,
    Expr.type?_rename h value hvalue]
  simp only [LVal.findings]
  rw [← hlval]
  rfl

mutual

/-- **A renamed statement is judged alike.** -/
theorem Stmt.findings_rename {r : Renaming} {Γ Γ' : TyEnv} (h : r.Types Γ Γ') :
    (s : Stmt) → r.newName ∉ s.idents → s.findings returns Γ = [] → (s.rename r).findings returns Γ' = []
  | .assign _ _ _, hy, hnil => (Stmt.findings_rename_assign h.agrees hy).trans hnil
  | .eval none, _, _ => rfl
  | .eval (some e), hy, hnil => (Expr.findings_rename h.agrees e hy).trans hnil
  | .block b, hy, hnil => Block.findings_rename h.enter b hy hnil
  | .if_ c s rest, hy, hnil => by
    rw [Stmt.idents, mem_append, mem_append, not_or, not_or] at hy
    rw [Stmt.findings, append_eq_nil_iff, append_eq_nil_iff] at hnil
    rw [Stmt.rename, Stmt.findings, Cond.findings_rename h.agrees c hy.1.1, hnil.1.1,
      Stmt.findings_rename h s hy.1.2 hnil.1.2,
      Otherwise.findings_rename (h.skip _) rest hy.2 hnil.2]
    rfl
  | .while_ c s, hy, hnil => by
    rw [Stmt.idents, mem_append, not_or] at hy
    rw [Stmt.findings, append_eq_nil_iff] at hnil
    rw [Stmt.rename, Stmt.findings, Cond.findings_rename h.agrees c hy.1, hnil.1,
      Stmt.findings_rename h s hy.2 hnil.2]
    rfl
  | .break_ _, _, _ => rfl
  | .continue_ _, _, _ => rfl
  | .return_ _ none, _, hnil => hnil
  | .return_ keyword (some e), hy, hnil => by
    rw [Stmt.rename, Option.map_some, Stmt.findings, Expr.findings_rename h.agrees e hy,
      Expr.type?_rename h.agrees e hy, Expr.span_rename]
    exact hnil

/-- The items of a renamed block are judged alike. -/
theorem Block.findings_rename {r : Renaming} {Γ Γ' : TyEnv} (h : r.Types Γ Γ') :
    (b : Block) → r.newName ∉ b.idents → b.findings returns Γ = [] → (b.rename r).findings returns Γ' = []
  | .nil, _, _ => rfl
  | .decl d rest, hy, hnil => by
    rw [Block.idents, mem_append, not_or] at hy
    obtain ⟨hhere, hlater⟩ := append_eq_nil_iff.1 hnil
    obtain ⟨hhere', htypes⟩ := Decl.judge_rename h hy.1 hhere
    have hy' : (r.declareAll d.names).newName ∉ rest.idents := by
      rw [Renaming.newName_declareAll]
      exact hy.2
    exact append_eq_nil_iff.2 ⟨hhere', Block.findings_rename htypes rest hy' hlater⟩
  | .stmt s rest, hy, hnil => by
    rw [Block.idents, mem_append, not_or] at hy
    rw [Block.findings, append_eq_nil_iff] at hnil
    rw [Block.rename, Block.findings, Stmt.findings_rename h s hy.1 hnil.1,
      Block.findings_rename (h.skip _) rest hy.2 hnil.2]
    rfl

/-- The alternatives of a renamed `if` are judged alike. -/
theorem Otherwise.findings_rename {r : Renaming} {Γ Γ' : TyEnv} (h : r.Types Γ Γ') :
    (o : Otherwise) → r.newName ∉ o.idents → o.findings returns Γ = [] →
    (o.rename r).findings returns Γ' = []
  | .done, _, _ => rfl
  | .else_ s, hy, hnil => Stmt.findings_rename h s hy hnil
  | .elseIf c s rest, hy, hnil => by
    rw [Otherwise.idents, mem_append, mem_append, not_or, not_or] at hy
    rw [Otherwise.findings, append_eq_nil_iff, append_eq_nil_iff] at hnil
    rw [Otherwise.rename, Otherwise.findings, Cond.findings_rename h.agrees c hy.1.1, hnil.1.1,
      Stmt.findings_rename h s hy.1.2 hnil.1.2,
      Otherwise.findings_rename (h.skip _) rest hy.2 hnil.2]
    rfl

end

end Statements

/-! ## Programs -/

variable {f : FunctionDef}

section Programs

variable {y : String} {before : Option Nat} {Γ : TyEnv}

theorem FunctionDef.types_rename (r : Renaming) (f : FunctionDef) :
    (f.rename r).params.map (·.type) = f.params.map (·.type) :=
  r.enter.map_through (fun _ p => p.type_rename) f.params

theorem FunctionDef.type_rename (r : Renaming) (f : FunctionDef) : (f.rename r).type = f.type :=
  congrArg (Ty.function f.returns.type) (f.types_rename r)

theorem FunctionDef.length_params_rename (r : Renaming) (f : FunctionDef) :
    (f.rename r).params.length = f.params.length := by
  simpa using congrArg List.length (f.types_rename r)

theorem FunctionDef.not_mem_body (hy : y ∉ f.body.idents) :
    (f.bodyRenaming ⟨y, [], before⟩).newName ∉ f.body.idents := by
  rw [FunctionDef.bodyRenaming, Renaming.newName_enter, Renaming.newName_declareAll]
  exact hy

/-- **A renamed function is judged alike.** -/
theorem FunctionDef.judge_rename (hy : y ∉ f.idents) (hnil : (f.judge Γ).2 = []) :
    (f.rename ⟨y, [], before⟩).judge Γ = f.judge Γ := by
  rw [FunctionDef.idents, mem_cons, mem_append, not_or, not_or] at hy
  obtain ⟨-, hparams, hbody⟩ := hy
  have hjudge := TyEnv.eq_of_nil hnil
  obtain ⟨hfree, henv, hinner⟩ := FunctionDef.judge_iff.1 hjudge
  obtain ⟨hofParams, hofBody⟩ := append_eq_nil_iff.1 hinner
  obtain ⟨hofParams', htypes⟩ :=
    (Renaming.Types.initial (f.judge Γ).1 y before).judgeAll Parameter.judge_rename hparams hofParams
  have hofBody' := Block.findings_rename htypes.enter f.body (f.not_mem_body hbody) hofBody
  rw [hjudge]
  refine FunctionDef.judge_iff.2 ⟨hfree, ?_, append_eq_nil_iff.2 ⟨hofParams', hofBody'⟩⟩
  rw [FunctionDef.type_rename]
  exact henv

theorem TopLevel.judge_rename {u : TopLevel} (hy : y ∉ u.idents) (hnil : (u.judge Γ).2 = []) :
    (u.rename ⟨y, [], before⟩).judge Γ = u.judge Γ := by
  cases u with
  | decl d => rfl
  | function f => exact FunctionDef.judge_rename hy hnil

/-- The top level after a renaming is judged alike. -/
theorem TopLevel.judgeAll_renameAll {us : List TopLevel} (hy : y ∉ us.flatMap TopLevel.idents)
    (hnil : (TyEnv.judgeAll TopLevel.judge Γ us).2 = []) :
    (TyEnv.judgeAll TopLevel.judge Γ (TopLevel.renameAll ⟨y, [], before⟩ us)).2 = [] := by
  induction us generalizing Γ before with
  | nil => rfl
  | cons u us ih =>
    rw [flatMap_cons, mem_append, not_or] at hy
    obtain ⟨hhere, hlater⟩ := append_eq_nil_iff.1 hnil
    have hu : (u.rename ⟨y, [], before⟩).judge Γ = u.judge Γ := TopLevel.judge_rename hy.1 hhere
    rw [TopLevel.renameAll, TyEnv.judgeAll, hu]
    exact append_eq_nil_iff.2 ⟨hhere, ih hy.2 hlater⟩

end Programs

end SysY
