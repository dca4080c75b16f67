import SysY.Proofs.Rename.Check
import SysY.Proofs.Static.Stmt

/-!
# A renamed program is lowered alike

Expressions, conditions and statements become the same code, or fail alike:
what a name means before the renaming is what the renamed name means after it.
Of a call this needs that the program is accepted, since a function and a
variable are looked up in different places.

A declaration leaves two environments that differ in one name, so the code that
follows is related rather than equal until the frame is closed
(`Renaming.Alike`). The dimensions and the value of a constant are evaluated
before the name is in scope; that they come out alike is `readsAlike`.
-/

namespace SysY

open Lower (Symbols Symbol Gen Context Supply Stop)
open List

/-! ## Names -/

section Congruence

variable {r r' : Renaming}

/-- Renamings that agree on the names of an expression rename it alike. -/
theorem Expr.rename_congr (e : Expr) (h : ∀ z ∈ e.idents, r.name z = r'.name z) :
    e.rename r = e.rename r' := by
  have hall {es : List Expr} (hes : ∀ e ∈ es, e.rename r = e.rename r') :
      Expr.renameAll r es = Expr.renameAll r' es := by
    rw [Expr.renameAll_eq_map, Expr.renameAll_eq_map]
    exact map_congr_left hes
  have hident {x : Ident} (hx : r.name x.value = r'.name x.value) : r.ident x = r'.ident x := by
    unfold Renaming.ident
    rw [hx]
  induction e using Expr.induction with
  | number span text => rfl
  | lval span x is ih | call span f args ih =>
    rw [Expr.idents, forall_mem_cons] at h
    rw [Expr.rename, Expr.rename, hident h.1, hall fun e he => ih e he fun z hz =>
      h.2 z (Expr.mem_identsAll.2 ⟨e, he, hz⟩)]
  | unary span op e ih | paren span e ih => rw [Expr.rename, Expr.rename, ih h]
  | binary span op a b iha ihb =>
    rw [Expr.idents, forall_mem_append] at h
    rw [Expr.rename, Expr.rename, iha h.1, ihb h.2]

end Congruence

variable {x : Ident}

namespace Renaming

/-- The environments in which a program and its renamed form are lowered at a
place. -/
structure Meanings (r : Renaming) (A A' : Symbols) : Prop where
  /-- Names mean the same variables. -/
  agrees : r.Agrees A A'
  /-- The renamed declaration means something. -/
  known : ∀ z, r.marked z = true → ∃ s, A.lookup z = some s

variable {r : Renaming} {A A' : Symbols}

namespace Meanings

/-- At the start of a function the environments are the same. -/
theorem initial (A : Symbols) (y : String) (before : Option Nat) :
    Meanings (Renaming.mk y [] before).enter A.enter A.enter where
  agrees := fun _ _ => rfl
  known := fun z h => by
    rw [marked_enter] at h
    cases h

theorem enter (h : r.Meanings A A') : r.enter.Meanings A.enter A'.enter where
  agrees := h.agrees.enter
  known := fun z hz => by
    rw [Env.lookup_enter]
    exact h.known z (by rwa [marked_enter] at hz)

theorem skip (h : r.Meanings A A') (n : Nat) : (r.skip n).Meanings A A' := ⟨h.agrees, h.known⟩

theorem declare (h : r.Meanings A A') (honce : r.Once) (hx : x.value ≠ r.newName) (s : Symbol) :
    (r.declare x).Meanings (A.bind x.value s) (A'.bind ((r.declare x).name x.value) s) where
  agrees := h.agrees.declare honce hx
  known := by
    intro z hz
    by_cases hzx : z = x.value
    · rw [hzx, Env.lookup_bind_self]
      exact ⟨s, rfl⟩
    · rw [Env.lookup_bind_of_ne hzx]
      exact h.known z (by rwa [marked_declare_of_ne hzx] at hz)

/-- A name resolves alike; one that means nothing has not been renamed. -/
theorem resolve (h : r.Meanings A A') (hx : x.value ≠ r.newName) :
    A'.resolve (r.ident x) = A.resolve x := by
  unfold Symbols.resolve
  rw [ident_value, h.agrees _ hx]
  cases hlookup : A.lookup x.value with
  | some s => rfl
  | none =>
    have hmarked : r.marked x.value = false := by
      by_contra hmarked
      obtain ⟨s, hs⟩ := h.known _ (Bool.not_eq_false _ ▸ hmarked)
      rw [hlookup] at hs
      cases hs
    rw [name_of_not_marked hmarked]
    rfl

end Meanings

end Renaming

variable {es : List Expr} {constant : Bool} {items : Option (List (Option Expr))} {f : FunctionDef}
  {d : Definition}

namespace Lower

open IR (Value Op Instr Label)

variable {r : Renaming} {A A' : Symbols}

/-! ## Constants -/

theorem evalOffset_rename {span : Span} (hes : ∀ e ∈ es, evalConst A' (e.rename r) = evalConst A e)
    (offset : Nat) (dims : List Nat) :
    evalOffset A' span offset (Expr.renameAll r es) dims = evalOffset A span offset es dims := by
  induction es generalizing offset dims with
  | nil => cases dims <;> rw [Expr.renameAll, evalOffset, evalOffset] <;> simp
  | cons e es ih =>
    obtain ⟨hhead, htail⟩ := forall_mem_cons.1 hes
    cases dims with
    | nil => rw [Expr.renameAll, evalOffset, evalOffset] <;> simp
    | cons size sizes =>
      rw [Expr.renameAll, evalOffset, evalOffset, hhead]
      simp only [ih htail]

/-- **A renamed expression has the same constant value.** -/
theorem evalConst_rename (h : r.Meanings A A') (e : Expr) (hy : r.newName ∉ e.idents) :
    evalConst A' (e.rename r) = evalConst A e := by
  induction e using Expr.induction with
  | number span text | call span f args ih => rw [Expr.rename, evalConst, evalConst]
  | lval span x is ih =>
    rw [Expr.idents, mem_cons, not_or] at hy
    have his (dims : List Nat) :
        evalOffset A' span 0 (Expr.renameAll r is) dims = evalOffset A span 0 is dims :=
      evalOffset_rename (fun e he => ih e he (Expr.not_mem_identsAll hy.2 e he)) 0 dims
    have hempty : (Expr.renameAll r is).isEmpty = is.isEmpty := by cases is <;> rfl
    rw [Expr.rename, evalConst, evalConst, h.resolve (Ne.symm hy.1)]
    simp only [Expr.length_renameAll, his, hempty]
  | unary span op e ih | paren span e ih => rw [Expr.rename, evalConst, evalConst, ih hy]
  | binary span op a b iha ihb =>
    rw [Expr.idents, mem_append, not_or] at hy
    rw [Expr.rename, evalConst, evalConst, iha hy.1, ihb hy.2]

theorem evalDims_rename (h : r.Meanings A A') (hy : r.newName ∉ Expr.identsAll es) :
    evalDims A' (Expr.renameAll r es) = evalDims A es := by
  induction es with
  | nil => rfl
  | cons e es ih =>
    rw [Expr.identsAll, mem_append, not_or] at hy
    rw [Expr.renameAll, evalDims, evalDims, evalConst_rename h e hy.1, ih hy.2, Expr.span_rename]

theorem evalItems_rename (h : r.Meanings A A') {items : List (Option Expr)}
    (hy : ∀ e, some e ∈ items → r.newName ∉ e.idents) :
    evalItems A' (items.map (Option.map (Expr.rename r))) = evalItems A items := by
  induction items with
  | nil => rfl
  | cons item items ih =>
    have htail := ih fun e he => hy e (mem_cons_of_mem _ he)
    cases item with
    | none => rw [map_cons, Option.map_none, evalItems, evalItems, htail]
    | some e =>
      rw [map_cons, Option.map_some, evalItems, evalItems,
        evalConst_rename h e (hy e mem_cons_self), htail]

/-! ## Expressions -/

section Expressions

variable {Γ Γ' : TyEnv} {ctx : Context}

theorem lowerArgs_rename {ctx ctx' : Context}
    (hes : ∀ e ∈ es, lowerExpr ctx' (e.rename r) = lowerExpr ctx e) :
    lowerArgs ctx' (Expr.renameAll r es) = lowerArgs ctx es := by
  induction es with
  | nil => rw [Expr.renameAll, lowerArgs, lowerArgs]
  | cons e es ih =>
    obtain ⟨hhead, htail⟩ := forall_mem_cons.1 hes
    rw [Expr.renameAll, lowerArgs, lowerArgs, hhead, ih htail]

theorem lowerOffset_rename {ctx ctx' : Context}
    (hes : ∀ e ∈ es, lowerExpr ctx' (e.rename r) = lowerExpr ctx e) (offset : Value)
    (dims : List Nat) :
    lowerOffset ctx' offset (Expr.renameAll r es) dims = lowerOffset ctx offset es dims := by
  induction es generalizing offset dims with
  | nil => cases dims <;> rw [Expr.renameAll, lowerOffset, lowerOffset] <;> simp
  | cons e es ih =>
    obtain ⟨hhead, htail⟩ := forall_mem_cons.1 hes
    cases dims with
    | nil => rw [Expr.renameAll, lowerOffset, lowerOffset] <;> simp
    | cons size sizes =>
      rw [Expr.renameAll, lowerOffset, lowerOffset, hhead]
      simp only [ih htail]

theorem lowerAddress_rename (h : r.Meanings ctx.symbols A') (hx : x.value ≠ r.newName)
    (hes : ∀ e ∈ es, lowerExpr { ctx with symbols := A' } (e.rename r) = lowerExpr ctx e) :
    lowerAddress { ctx with symbols := A' } (r.ident x) (Expr.renameAll r es)
      = lowerAddress ctx x es := by
  rw [lowerAddress, lowerAddress, h.resolve hx]
  cases es with
  | nil => rfl
  | cons e es =>
    obtain ⟨hhead, htail⟩ := forall_mem_cons.1 hes
    simp only [Expr.renameAll, hhead, lowerOffset_rename htail, Expr.length_renameAll]

/-- **A renamed expression becomes the same code.** -/
theorem lowerExpr_rename (ht : r.Types Γ Γ') (h : r.Meanings ctx.symbols A') (e : Expr)
    (hy : r.newName ∉ e.idents) (hnil : e.findings Γ = []) :
    lowerExpr { ctx with symbols := A' } (e.rename r) = lowerExpr ctx e := by
  induction e using Expr.induction with
  | number span text => rw [Expr.rename, lowerExpr, lowerExpr]
  | lval span x is ih =>
    rw [Expr.idents, mem_cons, not_or] at hy
    have hfindings := findingsAll_eq_nil.1 (findings_lval hnil)
    rw [Expr.rename, lowerExpr, lowerExpr, lowerAddress_rename h (Ne.symm hy.1)
      fun e he => ih e he (Expr.not_mem_identsAll hy.2 e he) (hfindings e he)]
  | call span f args ih =>
    rw [Expr.idents, mem_cons, not_or] at hy
    obtain ⟨t, ps, hf, hargs, -⟩ := findings_call hnil
    have hfindings := findingsAll_eq_nil.1 hargs
    -- the renamed declaration is a variable, so it is not what is called
    have hmarked : r.marked f.value = false := by
      by_contra hmarked
      obtain ⟨n, hn⟩ := ht.isVariable _ (Bool.not_eq_false _ ▸ hmarked)
      rw [hf] at hn
      exact Ty.arrayOf_ne_function n t ps (Option.some.inj hn).symm
    have hident : r.ident f = f := by
      unfold Renaming.ident
      rw [Renaming.name_of_not_marked hmarked]
    rw [Expr.rename, lowerExpr, lowerExpr, hident, lowerArgs_rename
      fun e he => ih e he (Expr.not_mem_identsAll hy.2 e he) (hfindings e he)]
    rfl
  | unary span op e ih =>
    rw [Expr.findings, append_eq_nil_iff] at hnil
    rw [Expr.rename, lowerExpr, lowerExpr, ih hy hnil.1]
  | binary span op a b iha ihb =>
    rw [Expr.idents, mem_append, not_or] at hy
    rw [Expr.findings, append_eq_nil_iff, append_eq_nil_iff] at hnil
    rw [Expr.rename, lowerExpr, lowerExpr, iha hy.1 hnil.1.1, ihb hy.2 hnil.1.2]
  | paren span e ih => rw [Expr.rename, lowerExpr, lowerExpr, ih hy hnil]

theorem lowerCond_rename (ht : r.Types Γ Γ') (h : r.Meanings ctx.symbols A') (c : Cond)
    (hy : r.newName ∉ c.idents) (hnil : c.findings Γ = []) :
    lowerCond { ctx with symbols := A' } (c.rename r) = lowerCond ctx c := by
  induction c with
  | expr e =>
    rw [Cond.rename, lowerCond, lowerCond,
      lowerExpr_rename ht h e hy (append_eq_nil_iff.1 hnil).1]
  | compare span op a b iha ihb | logic span op a b iha ihb =>
    rw [Cond.idents, mem_append, not_or] at hy
    obtain ⟨ha, hb⟩ := append_eq_nil_iff.1 (append_eq_nil_iff.1 hnil).1
    rw [Cond.rename, lowerCond, lowerCond, iha hy.1 ha, ihb hy.2 hb]

end Expressions

/-! ## Initial values -/

section InitialValues

/-- The words of an initial value after a renaming. -/
def renameItems (r : Renaming) (items : List (Option Expr)) : List (Option Expr) :=
  items.map (Option.map (Expr.rename r))

theorem isList_rename (i : InitVal) : isList (i.rename r) = isList i := by
  cases i <;> rfl

theorem renameItems_replicate (n : Nat) :
    renameItems r (List.replicate n none) = List.replicate n none :=
  map_replicate

theorem renameItems_append (xs ys : List (Option Expr)) :
    renameItems r (xs ++ ys) = renameItems r xs ++ renameItems r ys :=
  map_append

theorem join_head?_renameItems (items : Option (List (Option Expr))) :
    ((items.map (renameItems r)).bind (·.head?)).join
      = ((items.bind (·.head?)).join).map (Expr.rename r) := by
  cases items with
  | none => rfl
  | some is => cases is <;> rfl

theorem getD_renameItems (items : Option (List (Option Expr))) :
    (items.map (renameItems r)).getD [] = renameItems r (items.getD []) := by
  cases items <;> rfl

theorem layItems_rename {items : List InitVal}
    (hitems : ∀ i ∈ items, ∀ dims, layItem dims (i.rename r) = renameItems r (layItem dims i))
    (dims : List Nat) (filled : Nat) :
    layItems dims filled (InitVal.renameAll r items) = renameItems r (layItems dims filled items) := by
  induction items generalizing filled with
  | nil =>
    rw [InitVal.renameAll, layItems, renameItems_replicate]
  | cons i items ih =>
    obtain ⟨hhead, htail⟩ := forall_mem_cons.1 hitems
    rw [InitVal.renameAll, layItems, layItems]
    simp only [isList_rename, hhead, ih htail, apply_ite (renameItems r), renameItems_append,
      renameItems_replicate]

theorem layItem_rename (i : InitVal) (dims : List Nat) :
    layItem dims (i.rename r) = renameItems r (layItem dims i) := by
  induction i using InitVal.induction generalizing dims with
  | expr e => rw [InitVal.rename, layItem, layItem]; rfl
  | list span items ih => rw [InitVal.rename, layItem, layItem, layItems_rename ih]

/-- The words of a renamed initial value. -/
theorem layOut_rename (dims : List Nat) (i : InitVal) :
    layOut dims (i.rename r) = renameItems r (layOut dims i) := by
  cases i with
  | expr e =>
    rw [InitVal.rename, layOut, layOut, renameItems, map_cons, map_replicate]
    rfl
  | list span items =>
    rw [InitVal.rename, layOut, layOut, layItems_rename fun i _ => layItem_rename i]

variable {Γ Γ' : TyEnv} (ctx : Context)

theorem initialValue_rename (ht : r.Types Γ Γ') (h : r.Meanings ctx.symbols A')
    (known : Option Int32) {item : Option Expr}
    (hitem : ∀ e ∈ item, r.newName ∉ e.idents ∧ e.findings Γ = []) :
    initialValue { ctx with symbols := A' } known (item.map (Expr.rename r))
      = initialValue ctx known item := by
  cases known with
  | some n => rfl
  | none =>
    cases item with
    | none => rfl
    | some e =>
      obtain ⟨hy, hnil⟩ := hitem e rfl
      exact lowerExpr_rename ht h e hy hnil

theorem storeItems_rename (ht : r.Types Γ Γ') (h : r.Meanings ctx.symbols A') (base : Value)
    (constants : Option (List Int32)) (i : Nat) {items : List (Option Expr)}
    (hitems : ∀ e, some e ∈ items → r.newName ∉ e.idents ∧ e.findings Γ = []) :
    storeItems { ctx with symbols := A' } base constants i (renameItems r items)
      = storeItems ctx base constants i items := by
  induction items generalizing constants i with
  | nil => rfl
  | cons item items ih =>
    have hhead := initialValue_rename ctx ht h (constants.bind (·.head?))
      fun e he => hitems e (mem_cons.2 (.inl (Option.mem_def.1 he).symm))
    rw [renameItems, map_cons, storeItems, storeItems, hhead]
    have htail := ih (constants.map (·.tail)) (i + 1)
      fun e he => hitems e (mem_cons_of_mem _ he)
    rw [renameItems] at htail
    rw [htail]

end InitialValues

/-! ## Code that leaves related environments -/

/-- Two pieces of code in the making fail alike, or leave the same supply and
results that are related. -/
def Alike {α β : Type} (R : α → β → Prop) (g : Gen α) (g' : Gen β) : Prop :=
  ∀ σ, (∃ e, g σ = .error e ∧ g' σ = .error e) ∨
    ∃ a b σ', g σ = .ok (a, σ') ∧ g' σ = .ok (b, σ') ∧ R a b

namespace Alike

variable {α β γ δ : Type} {R : α → β → Prop} {S : γ → δ → Prop}

theorem refl (g : Gen α) : Alike Eq g g := by
  intro σ
  cases h : g σ with
  | error e => exact .inl ⟨e, rfl, rfl⟩
  | ok p => exact .inr ⟨p.1, p.1, p.2, rfl, rfl, rfl⟩

theorem pure {a : α} {b : β} (h : R a b) : Alike R (Pure.pure a) (Pure.pure b) :=
  fun σ => .inr ⟨a, b, σ, rfl, rfl, h⟩

theorem bind {g : Gen α} {g' : Gen β} {f : α → Gen γ} {f' : β → Gen δ} (h : Alike R g g')
    (hf : ∀ a b, R a b → Alike S (f a) (f' b)) : Alike S (g >>= f) (g' >>= f') := by
  intro σ
  show (∃ e, (g σ >>= fun p => f p.1 p.2) = .error e ∧ (g' σ >>= fun p => f' p.1 p.2) = .error e) ∨
    ∃ a b σ', (g σ >>= fun p => f p.1 p.2) = .ok (a, σ') ∧
      (g' σ >>= fun p => f' p.1 p.2) = .ok (b, σ') ∧ S a b
  obtain ⟨e, he, he'⟩ | ⟨a, b, σ', ha, hb, hR⟩ := h σ
  · rw [he, he']
    exact .inl ⟨e, rfl, rfl⟩
  · rw [ha, hb]
    exact hf a b hR σ'

/-- What is related by equality is the same. -/
theorem eq {g g' : Gen α} (h : Alike Eq g g') : g = g' := by
  funext σ
  obtain ⟨e, he, he'⟩ | ⟨a, b, σ', ha, hb, rfl⟩ := h σ
  · rw [he, he']
  · rw [ha, hb]

theorem of_eq {g g' : Gen α} (h : g = g') : Alike Eq g g' := h ▸ refl g

/-- What is computed without the supply, and a function of it. -/
theorem lift_map (x : Except Stop α) (f : α → β) :
    Alike (fun a b => x = .ok a ∧ b = f a) (liftM x : Gen α) (liftM (x.map f) : Gen β) := by
  intro σ
  cases x with
  | error e => exact .inl ⟨e, rfl, rfl⟩
  | ok a => exact .inr ⟨a, f a, σ, rfl, rfl, rfl, rfl⟩

/-- The same first step. -/
theorem bind_refl {g : Gen α} {f : α → Gen γ} {f' : α → Gen δ} (hf : ∀ a, Alike S (f a) (f' a)) :
    Alike S (g >>= f) (g >>= f') := by
  refine (refl g).bind fun a b hab => ?_
  subst hab
  exact hf a

end Alike

/-- The same code, and environments in which a renaming has come to the same
place. -/
def Leaves (r : Renaming) (x x' : List Instr × Symbols) : Prop :=
  x.1 = x'.1 ∧ r.Meanings x.2 x'.2

/-- Code that is written in the environments that are left. -/
theorem Alike.andThen {γ δ : Type} {R : γ → δ → Prop} {first first' : Gen (List Instr × Symbols)}
    {f : List Instr × Symbols → Gen γ} {f' : List Instr × Symbols → Gen δ}
    (h : Alike (Leaves r) first first')
    (hf : ∀ c S S', r.Meanings S S' → Alike R (f (c, S)) (f' (c, S'))) :
    Alike R (first >>= f) (first' >>= f') := by
  refine h.bind fun p p' hp => ?_
  obtain ⟨c, S⟩ := p
  obtain ⟨c', S'⟩ := p'
  obtain ⟨rfl, hm⟩ := hp
  exact hf c S S' hm

/-! ## Declarations -/

section Declarations

variable {Γ Γ' : TyEnv} {ctx : Context}

theorem definitionItems_rename (dims : List Nat) (d : Definition) :
    definitionItems dims (d.rename r).init
      = (definitionItems dims d.init).map (Option.map (renameItems (r.declare d.name))) := by
  unfold Definition.rename
  cases d.init with
  | none => rfl
  | some i =>
    show (wordVolume dims >>= fun _ => _) = Except.map _ (wordVolume dims >>= fun _ => _)
    cases wordVolume dims with
    | error e => rfl
    | ok n => exact congrArg (fun is => Except.ok (some is)) (layOut_rename dims i.value)

/-- Early names make no difference to the dimensions. -/
theorem evalDims_early (h : r.Meanings A A') (hy : r.newName ∉ Expr.identsAll es)
    (halike : ∀ z ∈ Expr.identsAll es, (r.declare x).name z = r.name z) :
    evalDims A' (Expr.renameAll (r.declare x) es) = evalDims A es := by
  have hsame : Expr.renameAll (r.declare x) es = Expr.renameAll r es := by
    rw [Expr.renameAll_eq_map, Expr.renameAll_eq_map]
    refine map_congr_left fun e he => Expr.rename_congr e fun z hz => ?_
    exact halike z (Expr.mem_identsAll.2 ⟨e, he, hz⟩)
  rw [hsame, evalDims_rename h hy]

/-- Nor to the values of a constant. -/
theorem knownValues_early (h : r.Meanings A A')
    (hy : ∀ e, some e ∈ items.getD [] → r.newName ∉ e.idents)
    (halike : constant = true → ∀ e, some e ∈ items.getD [] →
      ∀ z ∈ e.idents, (r.declare x).name z = r.name z) :
    knownValues constant A' (items.map (renameItems (r.declare x)))
      = knownValues constant A items := by
  cases constant with
  | false => rfl
  | true =>
    cases items with
    | none => rfl
    | some is =>
      have hsame : renameItems (r.declare x) is = renameItems r is := by
        refine map_congr_left fun item hitem => ?_
        cases item with
        | none => rfl
        | some e => exact congrArg some (Expr.rename_congr e (halike rfl e hitem))
      have hvalues : evalItems A' (renameItems r is) = evalItems A is := evalItems_rename h hy
      rw [Option.map_some, knownValues, knownValues, hsame, hvalues]

/-- The expressions of an initial value are judged with the name in scope. -/
theorem mem_items_of_judge (hnil : (d.judge Γ).2 = []) {dims : List Nat}
    (hitems : definitionItems dims d.init = .ok items) {e : Expr} (he : some e ∈ items.getD []) :
    e.idents ⊆ d.initIdents ∧ e.findings (d.judge Γ).1 = [] := by
  rw [definitionItems_ok hitems] at he
  cases hi : d.init with
  | none =>
    rw [hi] at he
    cases he
  | some i =>
    rw [hi] at he
    have hmem := mem_exprs_of_mem_layOut he
    refine ⟨fun z hz => ?_, findings_of_mem_exprs _ ((judge_definition hnil).2 i hi) e hmem⟩
    rw [Definition.initIdents, hi]
    exact mem_flatMap.2 ⟨e, hmem, hz⟩

/-- **A renamed definition becomes the same code.** -/
theorem lowerDefinition_rename (ht : r.Types Γ Γ') (h : r.Meanings ctx.symbols A')
    (hy : r.newName ∉ d.idents) (hnil : (d.judge Γ).2 = [])
    (halike : d.readsAlike constant r = true) :
    Alike (Leaves (r.declare d.name)) (lowerDefinition constant ctx d)
      (lowerDefinition constant { ctx with symbols := A' } (d.rename r)) := by
  have hy' := hy
  rw [Definition.idents, mem_cons, mem_append, not_or, not_or] at hy'
  obtain ⟨hname, hdims, hinit⟩ := hy'
  have htypes := (Definition.judge_rename ht hy hnil).2
  rw [Definition.readsAlike, all_eq_true, Definition.early, forall_mem_append] at halike
  simp only [decide_eq_true_eq] at halike
  have hdims' : evalDims A' (d.rename r).dims = evalDims ctx.symbols d.dims :=
    evalDims_early h hdims halike.1
  unfold lowerDefinition
  rw [hdims']
  refine Alike.bind_refl fun dims => ?_
  rw [definitionItems_rename]
  refine (Alike.lift_map _ _).bind fun items items' hitems => ?_
  obtain ⟨hitems, rfl⟩ := hitems
  have hitem {e : Expr} (he : some e ∈ items.getD []) := mem_items_of_judge hnil hitems he
  have hready : ∀ e, some e ∈ items.getD [] → r.newName ∉ e.idents ∧ e.findings (d.judge Γ).1 = [] :=
    fun e he => ⟨fun hz => hinit ((hitem he).1 hz), (hitem he).2⟩
  have hknown : knownValues constant A' (items.map (renameItems (r.declare d.name)))
      = knownValues constant ctx.symbols items := by
    refine knownValues_early h (fun e he => (hready e he).1) fun hconstant e he z hz => ?_
    refine halike.2 z ?_
    rw [if_pos hconstant]
    exact (hitem he).1 hz
  rw [hknown]
  refine Alike.bind_refl fun constants => ?_
  split
  next =>
    -- a scalar
    refine Alike.bind_refl fun p => ?_
    obtain ⟨room, slot⟩ := p
    have hm := h.declare ht.once (Ne.symm hname) (.scalar slot (constants.bind (·.head?)))
    have hcode := initialValue_rename { ctx with symbols := _ } htypes hm
      (constants.bind (·.head?)) fun e he => hready e (mem_of_join_head? (Option.mem_def.1 he))
    rw [join_head?_renameItems]
    refine (Alike.of_eq hcode.symm).bind fun p p' hp => ?_
    subst hp
    exact .pure ⟨rfl, hm⟩
  next =>
    -- an array
    refine Alike.bind_refl fun words => ?_
    refine Alike.bind_refl fun p => ?_
    obtain ⟨room, base⟩ := p
    have hm := h.declare ht.once (Ne.symm hname) (.array (.address base) dims constants)
    have hcode := storeItems_rename { ctx with symbols := _ } htypes hm base constants 0 hready
    rw [getD_renameItems]
    refine (Alike.of_eq hcode.symm).bind fun c c' hc => ?_
    subst hc
    exact .pure ⟨rfl, hm⟩

/-- Renamed definitions one after the other become the same code. -/
theorem lowerDefinitions_rename (ht : r.Types Γ Γ') (h : r.Meanings ctx.symbols A')
    {ds : List Definition} (hy : r.newName ∉ ds.flatMap Definition.idents)
    (hnil : (TyEnv.judgeAll Definition.judge Γ ds).2 = [])
    (halike : (r.through Definition.name (Definition.readsAlike constant) ds).all id = true) :
    Alike (Leaves (r.declareAll (ds.map (·.name)))) (lowerDefinitions constant ctx ds)
      (lowerDefinitions constant { ctx with symbols := A' }
        (r.through Definition.name Definition.rename ds)) := by
  induction ds generalizing r Γ Γ' ctx A' with
  | nil => exact .pure ⟨rfl, h⟩
  | cons d ds ih =>
    rw [flatMap_cons, mem_append, not_or] at hy
    obtain ⟨hhere, hlater⟩ := append_eq_nil_iff.1 hnil
    rw [Renaming.through, all_cons, Bool.and_eq_true] at halike
    have htypes := (Definition.judge_rename ht hy.1 hhere).2
    rw [Renaming.through, lowerDefinitions, lowerDefinitions]
    refine (lowerDefinition_rename ht h hy.1 hhere halike.1).andThen fun c S S' hm => ?_
    have hm : (r.declare d.name).Meanings { ctx with symbols := S }.symbols S' := hm
    exact (ih htypes hm hy.2 hlater halike.2).andThen fun _ _ _ hm' => .pure ⟨rfl, hm'⟩

theorem parameterSymbol_rename (h : r.Meanings A A') (slot : Value) {p : Parameter}
    (hy : r.newName ∉ p.idents) (halike : p.readsAlike r = true) :
    parameterSymbol A' slot (p.rename r) = parameterSymbol A slot p := by
  rw [Parameter.idents, mem_cons, not_or] at hy
  rw [Parameter.readsAlike, all_eq_true] at halike
  simp only [decide_eq_true_eq] at halike
  unfold parameterSymbol Parameter.rename
  cases hp : p.array with
  | none => rfl
  | some dims =>
    rw [hp] at hy halike
    have hdims : evalDims A' (Expr.renameAll (r.declare p.name) dims) = evalDims A dims :=
      evalDims_early h hy.2 halike
    show (evalDims A' (Expr.renameAll (r.declare p.name) dims) >>= fun _ => _) = _
    rw [hdims]

/-- Renamed parameters become the same code. -/
theorem lowerParameters_rename (ht : r.Types Γ Γ') (h : r.Meanings A A') (i : Nat)
    {ps : List Parameter} (hy : r.newName ∉ ps.flatMap Parameter.idents)
    (hnil : (TyEnv.judgeAll Parameter.judge Γ ps).2 = [])
    (halike : (r.through Parameter.name Parameter.readsAlike ps).all id = true) :
    Alike (Leaves (r.declareAll (ps.map (·.name)))) (lowerParameters A i ps)
      (lowerParameters A' i (r.through Parameter.name Parameter.rename ps)) := by
  induction ps generalizing r Γ Γ' A A' i with
  | nil => exact .pure ⟨rfl, h⟩
  | cons p ps ih =>
    rw [flatMap_cons, mem_append, not_or] at hy
    obtain ⟨hhere, hlater⟩ := append_eq_nil_iff.1 hnil
    rw [Renaming.through, all_cons, Bool.and_eq_true] at halike
    have htypes := (Parameter.judge_rename ht hy.1 hhere).2
    have hname : p.name.value ≠ r.newName := by
      intro heq
      exact hy.1 (heq ▸ mem_cons_self)
    have hfirst : Alike (Leaves (r.declare p.name)) (lowerParameter A i p)
        (lowerParameter A' i (p.rename r)) := by
      unfold lowerParameter
      refine Alike.bind_refl fun q => ?_
      obtain ⟨room, slot⟩ := q
      dsimp only
      rw [parameterSymbol_rename h slot hy.1 halike.1]
      refine Alike.bind_refl fun s => ?_
      exact .pure ⟨rfl, h.declare ht.once hname s⟩
    rw [Renaming.through, lowerParameters, lowerParameters]
    refine hfirst.andThen fun c S S' hm => ?_
    exact (ih htypes hm (i + 1) hy.2 hlater halike.2).andThen fun _ _ _ hm' => .pure ⟨rfl, hm'⟩

end Declarations

/-! ## Statements -/

section Statements

variable {returns : Ty}

mutual

/-- **A renamed statement becomes the same code.** -/
theorem lowerStmt_rename (ctx : Context) {r : Renaming} {Γ Γ' : TyEnv} {A' : Symbols}
    (ht : r.Types Γ Γ') (h : r.Meanings ctx.symbols A') :
    (s : Stmt) → r.newName ∉ s.idents → s.findings returns Γ = [] → s.readsAlike r = true →
    lowerStmt { ctx with symbols := A' } (s.rename r) = lowerStmt ctx s
  | .assign target mark value, hy, hnil, _ => by
    rw [Stmt.idents, mem_append, LVal.idents, mem_cons, not_or, not_or] at hy
    obtain ⟨⟨hname, hindices⟩, hvalue⟩ := hy
    obtain ⟨htarget, hnil⟩ := findings_assign hnil
    have haddress := lowerAddress_rename h (Ne.symm hname) fun e he =>
      lowerExpr_rename ht h e (Expr.not_mem_identsAll hindices e he)
        (findingsAll_eq_nil.1 (findings_lval htarget) e he)
    rw [Stmt.rename, lowerStmt, lowerStmt, lowerExpr_rename ht h value hvalue hnil, LVal.rename,
      haddress]
  | .eval none, _, _, _ | .return_ _ none, _, _, _ =>
    by rw [Stmt.rename, Option.map_none, lowerStmt, lowerStmt]
  | .eval (some e), hy, hnil, _ => by
    rw [Stmt.rename, Option.map_some, lowerStmt, lowerStmt, lowerExpr_rename ht h e hy hnil]
  | .block b, hy, hnil, halike => by
    rw [Stmt.rename, lowerStmt, lowerStmt]
    exact lowerBlock_rename { ctx with symbols := ctx.symbols.enter } ht.enter h.enter b hy hnil halike
  | .if_ c s rest, hy, hnil, halike => by
    rw [Stmt.idents, mem_append, mem_append, not_or, not_or] at hy
    rw [Stmt.findings, append_eq_nil_iff, append_eq_nil_iff] at hnil
    rw [Stmt.readsAlike, Bool.and_eq_true] at halike
    rw [Stmt.rename, lowerStmt, lowerStmt, lowerCond_rename ht h c hy.1.1 hnil.1.1,
      lowerStmt_rename ctx ht h s hy.1.2 hnil.1.2 halike.1]
    simp only [lowerOtherwise_rename ctx (ht.skip _) (h.skip _) rest hy.2 hnil.2 halike.2]
  | .while_ c s, hy, hnil, halike => by
    rw [Stmt.idents, mem_append, not_or] at hy
    rw [Stmt.findings, append_eq_nil_iff] at hnil
    have hbody (loop : Loop) :
        lowerStmt { ctx with symbols := A', loop := some loop } (s.rename r)
          = lowerStmt { ctx with loop := some loop } s :=
      lowerStmt_rename { ctx with loop := some loop } ht h s hy.2 hnil.2 halike
    rw [Stmt.rename, lowerStmt, lowerStmt, lowerCond_rename ht h c hy.1 hnil.1]
    simp only [hbody]
  | .break_ _, _, _, _ | .continue_ _, _, _, _ =>
    by rw [Stmt.rename, lowerStmt, lowerStmt]
  | .return_ keyword (some e), hy, hnil, _ => by
    rw [Stmt.findings, append_eq_nil_iff] at hnil
    rw [Stmt.rename, Option.map_some, lowerStmt, lowerStmt, lowerExpr_rename ht h e hy hnil.1]

/-- The items of a renamed block become the same code. -/
theorem lowerBlock_rename (ctx : Context) {r : Renaming} {Γ Γ' : TyEnv} {A' : Symbols}
    (ht : r.Types Γ Γ') (h : r.Meanings ctx.symbols A') :
    (b : Block) → r.newName ∉ b.idents → b.findings returns Γ = [] → b.readsAlike r = true →
    lowerBlock { ctx with symbols := A' } (b.rename r) = lowerBlock ctx b
  | .nil, _, _, _ => by rw [Block.rename, lowerBlock, lowerBlock]
  | .decl d rest, hy, hnil, halike => by
    rw [Block.idents, mem_append, not_or] at hy
    obtain ⟨hhere, hlater⟩ := append_eq_nil_iff.1 hnil
    rw [Block.readsAlike, Bool.and_eq_true] at halike
    have htypes := (Decl.judge_rename ht hy.1 hhere).2
    have hy' : (r.declareAll d.names).newName ∉ rest.idents := by
      rw [Renaming.newName_declareAll]
      exact hy.2
    -- the environments come together again only when the frame is closed
    have hrest {S S' : Symbols} (hm : (r.declareAll d.names).Meanings S S') :
        lowerBlock { ctx with symbols := S' } (rest.rename (r.declareAll d.names))
          = lowerBlock { ctx with symbols := S } rest :=
      lowerBlock_rename { ctx with symbols := S } htypes hm rest hy' hlater halike.2
    rw [Block.rename, lowerBlock, lowerBlock]
    refine (Alike.eq ?_).symm
    exact (lowerDefinitions_rename ht h hy.1 hhere halike.1).andThen fun c _ _ hm =>
      .of_eq (congrArg (· >>= _) (hrest hm).symm)
  | .stmt s rest, hy, hnil, halike => by
    rw [Block.idents, mem_append, not_or] at hy
    rw [Block.findings, append_eq_nil_iff] at hnil
    rw [Block.readsAlike, Bool.and_eq_true] at halike
    rw [Block.rename, lowerBlock, lowerBlock, lowerStmt_rename ctx ht h s hy.1 hnil.1 halike.1,
      lowerBlock_rename ctx (ht.skip _) (h.skip _) rest hy.2 hnil.2 halike.2]

/-- The alternatives of a renamed `if` become the same code. -/
theorem lowerOtherwise_rename (ctx : Context) {r : Renaming} {Γ Γ' : TyEnv} {A' : Symbols}
    {join : Label} (ht : r.Types Γ Γ') (h : r.Meanings ctx.symbols A') :
    (o : Otherwise) → r.newName ∉ o.idents → o.findings returns Γ = [] → o.readsAlike r = true →
    lowerOtherwise { ctx with symbols := A' } join (o.rename r) = lowerOtherwise ctx join o
  | .done, _, _, _ => by
    rw [Otherwise.rename, lowerOtherwise, lowerOtherwise]
  | .else_ s, hy, hnil, halike => by
    rw [Otherwise.rename, lowerOtherwise, lowerOtherwise, lowerStmt_rename ctx ht h s hy hnil halike]
  | .elseIf c s rest, hy, hnil, halike => by
    rw [Otherwise.idents, mem_append, mem_append, not_or, not_or] at hy
    rw [Otherwise.findings, append_eq_nil_iff, append_eq_nil_iff] at hnil
    rw [Otherwise.readsAlike, Bool.and_eq_true] at halike
    rw [Otherwise.rename, lowerOtherwise, lowerOtherwise, lowerCond_rename ht h c hy.1.1 hnil.1.1,
      lowerStmt_rename ctx ht h s hy.1.2 hnil.1.2 halike.1,
      lowerOtherwise_rename ctx (ht.skip _) (h.skip _) rest hy.2 hnil.2 halike.2]

end

end Statements

/-! ## Functions and programs -/

section Programs

variable {y : String} {before : Option Nat} {Γ : TyEnv}

/-- **A renamed function becomes the same code.** -/
theorem functionCode_rename (symbols : Symbols) (functions : Frame Signature) (hy : y ∉ f.idents)
    (hnil : (f.judge Γ).2 = []) (halike : f.readsAlike ⟨y, [], before⟩ = true) :
    functionCode symbols functions (f.rename ⟨y, [], before⟩) = functionCode symbols functions f := by
  rw [FunctionDef.idents, mem_cons, mem_append, not_or, not_or] at hy
  obtain ⟨-, hparams, hbody⟩ := hy
  rw [FunctionDef.readsAlike, Bool.and_eq_true] at halike
  obtain ⟨hofParams, hofBody⟩ :=
    append_eq_nil_iff.1 (FunctionDef.judge_iff.1 (TyEnv.eq_of_nil hnil)).2.2
  have hstart := Renaming.Types.initial (f.judge Γ).1 y before
  have htypes := (hstart.judgeAll Parameter.judge_rename hparams hofParams).2
  unfold functionCode
  refine (Alike.eq ?_).symm
  refine Alike.bind_refl fun entry => ?_
  refine Alike.bind_refl fun start => ?_
  have hcode := lowerParameters_rename hstart (Renaming.Meanings.initial symbols y before) 0
    hparams hofParams halike.1
  refine hcode.andThen fun c S S' hm => ?_
  have hblock : lowerBlock { symbols := S'.enter, functions }
      (f.body.rename (f.bodyRenaming ⟨y, [], before⟩))
        = lowerBlock { symbols := S.enter, functions } f.body :=
    lowerBlock_rename { symbols := S.enter, functions } htypes.enter hm.enter f.body
      (f.not_mem_body hbody) hofBody halike.2
  exact .of_eq (congrArg (· >>= _) hblock.symm)

theorem lowerFunction_rename (symbols : Symbols) (functions : Frame Signature) (hy : y ∉ f.idents)
    (hnil : (f.judge Γ).2 = []) (halike : f.readsAlike ⟨y, [], before⟩ = true) :
    lowerFunction symbols functions (f.rename ⟨y, [], before⟩)
      = lowerFunction symbols functions f := by
  unfold lowerFunction
  rw [functionCode_rename symbols functions hy hnil halike, FunctionDef.length_params_rename]
  rfl

/-- The top level after a renaming is lowered alike. -/
theorem lowerUnits_rename (symbols : Symbols) (functions : Frame Signature) {us : List TopLevel}
    (hy : y ∉ us.flatMap TopLevel.idents) (hnil : (TyEnv.judgeAll TopLevel.judge Γ us).2 = [])
    (halike : TopLevel.allReadAlike ⟨y, [], before⟩ us = true) :
    lowerUnits symbols functions (TopLevel.renameAll ⟨y, [], before⟩ us)
      = lowerUnits symbols functions us := by
  induction us generalizing Γ before symbols functions with
  | nil => rfl
  | cons u us ih =>
    rw [flatMap_cons, mem_append, not_or] at hy
    obtain ⟨hhere, hlater⟩ := append_eq_nil_iff.1 hnil
    rw [TopLevel.allReadAlike, Bool.and_eq_true] at halike
    have hus (A : Symbols) (fs : Frame Signature) :
        lowerUnits A fs (TopLevel.renameAll ((Renaming.mk y [] before).skip u.locals.length) us)
          = lowerUnits A fs us := ih A fs hy.2 hlater halike.2
    rw [TopLevel.renameAll]
    cases u with
    | decl d =>
      rw [TopLevel.rename, lowerUnits, lowerUnits]
      simp only [hus]
    | function f =>
      have hname : (f.rename ⟨y, [], before⟩).name = f.name := rfl
      have hsignature : (Signature.mk ((f.rename ⟨y, [], before⟩).returns = .void)
          (f.rename ⟨y, [], before⟩).params.length)
          = ⟨f.returns = .void, f.params.length⟩ := by
        rw [FunctionDef.length_params_rename]
        rfl
      rw [TopLevel.rename, lowerUnits, lowerUnits, hname, hsignature]
      simp only [lowerFunction_rename symbols _ hy.1 hhere halike.1, hus]

end Programs

end Lower

end SysY
