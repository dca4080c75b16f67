import SysY.Proofs.Grammar.Spell
import SysY.Proofs.Lower.Declared
import SysY.Proofs.Lower.Ends

/-!
# Sizes of arrays

The lowering multiplies dimensions in several places: to check the size of a
variable, to tell the size that it found too large, to lay out an initial
value, and to scale a subscript by the size of a row. The products are of
different widths, and not all of them come after the check.

This module says which sizes every one of these places can count. If the
variables of a program are `countable`, its lowering gives a module or an error
that stands somewhere; and if it gives a module, then all its variables `fit`.
A variable that can be counted and does not fit is refused as such, wherever it
is declared.
-/

namespace SysY

open List

/-! ## Literals of a tree -/

theorem subset_spellList {x : List Token} {xs : List (List Token)} (close : Mark) (hx : x ∈ xs) :
    x ⊆ spellList close xs := by
  intro t ht
  cases xs with
  | nil => cases hx
  | cons y ys =>
    rw [spellList, mem_append, mem_append, mem_flatMap]
    rcases mem_cons.1 hx with rfl | hx
    · exact .inl ht
    · exact .inr (.inl ⟨x, hx, mem_cons_of_mem _ ht⟩)

variable {es : List Expr}

theorem Expr.subset_spellSubscripts {e : Expr} (he : e ∈ es) :
    e.spell ⊆ spellSubscripts (Expr.spellAll es) := by
  intro t ht
  rw [Expr.spellSubscripts_eq, mem_flatMap]
  exact ⟨e, he, mem_cons_of_mem _ (mem_append_left _ ht)⟩

theorem Expr.subset_spellList {e : Expr} (he : e ∈ es) (close : Mark) :
    e.spell ⊆ spellList close (Expr.spellAll es) := by
  rw [Expr.spellAll_eq_map]
  exact SysY.subset_spellList close (mem_map_of_mem he)

/-- The expressions of an initial value are spelled in it. -/
theorem InitVal.subset_spell (i : InitVal) : ∀ e ∈ i.exprs, e.spell ⊆ i.spell := by
  induction i using InitVal.induction with
  | expr e' =>
    intro e he
    cases mem_singleton.1 he
    exact List.Subset.refl _
  | list span items ih =>
    intro e he
    rw [InitVal.exprs, InitVal.mem_exprsAll] at he
    obtain ⟨i, hi, he⟩ := he
    rw [InitVal.spell, InitVal.spellAll_eq_map]
    exact subset_cons_of_subset _
      (List.Subset.trans (ih i hi e he) (subset_spellList _ (mem_map_of_mem hi)))

/-- The definitions of a declaration are spelled in it. -/
theorem Decl.subset_spell {d : Decl} {d' : Definition} (h : d' ∈ d.definitions) :
    d'.spell ⊆ d.spell := by
  intro t ht
  rw [Decl.spell]
  rcases mem_cons.1 h with rfl | h
  · simp [ht]
  · have hothers : t ∈ d.others.flatMap fun d => .mark .comma :: d.spell :=
      mem_flatMap.2 ⟨d', h, mem_cons_of_mem _ ht⟩
    simp only [mem_append, mem_cons, hothers, true_or, or_true]

variable {v : Declared} {us : List TopLevel} {init : Option Initializer} {ds : List Definition}

namespace Lower

open IR (Value Op Instr Label Temp)

/-! ## Computations without an answer -/

/-- The errors that stand somewhere and are not about a literal, and these
reasons to stop. -/
def Expected (stops : Stop → Prop) : Stop → Prop
  | .error ⟨.literal e, span⟩ => stops (.error ⟨.literal e, span⟩)
  | .error _ => True
  | .fault f => stops (.fault f)

/-- A computation gives something that has a property, or it stops as is
expected. -/
abbrev Settles (stops : Stop → Prop) {α : Type} (r : Except Stop α) (P : α → Prop) : Prop :=
  Ends (Expected stops) r P

/-- The same of lowering, wherever it starts. -/
abbrev GenSettles (stops : Stop → Prop) {α : Type} (g : Gen α) (P : α → Prop) : Prop :=
  GenEnds (Expected stops) g P

variable {stops : Stop → Prop} {seen symbols : Symbols} {ctx : Context}

theorem resolve_settles (symbols : Symbols) (name : Ident) :
    Settles stops (symbols.resolve name) fun s => symbols.lookup name.value = some s := by
  unfold Symbols.resolve
  cases symbols.lookup name.value <;> trivial

/-- That one of these literals is not decoded is a reason to stop that is
expected. -/
def Whole (stops : Stop → Prop) (ts : List Token) : Prop :=
  ∀ text, .number text ∈ ts → ∀ span s, literal span text = .error s → stops s

theorem Whole.mono {ss ts : List Token} (h : Whole stops ts) (hsub : ss ⊆ ts) : Whole stops ss :=
  fun text htext => h text (hsub htext)

variable {d : Definition} {constant : Bool}

/-- The dimensions of a definition. -/
theorem Whole.dims (h : Whole stops d.spell) : ∀ e ∈ d.dims, Whole stops e.spell :=
  fun _ he => h.mono (subset_cons_of_subset _
    (List.Subset.trans (Expr.subset_spellSubscripts he) (subset_append_left _ _)))

/-- The expressions that are laid out over the words of a definition. -/
theorem Whole.items (h : Whole stops d.spell) (dims : List Nat) :
    ∀ e, some e ∈ (d.init.map fun i => layOut dims i.value).getD [] → Whole stops e.spell := by
  intro e he
  cases hi : d.init with
  | none =>
    rw [hi] at he
    cases he
  | some i =>
    rw [hi] at he
    refine h.mono (List.Subset.trans (i.value.subset_spell e (mem_exprs_of_mem_layOut he)) ?_)
    intro t ht
    rw [Definition.spell, hi]
    simp [Initializer.spell, ht]

theorem literal_settles (span : Span) {text : String} (h : Whole stops [.number text]) :
    Settles stops (literal span text) fun _ => True := by
  have hstops := h text (mem_singleton_self _) span
  cases hliteral : literal span text with
  | ok => trivial
  | error s =>
    have hs := hstops s hliteral
    unfold literal at hliteral
    split at hliteral <;> cases hliteral <;> exact hs

/-! ## Products of dimensions -/

theorem checkedWords_settles {dims : List Nat} (name : Ident)
    (h : volume dims < 0x8000000000000000 ∨ stops (.fault .sizeOverflow)) :
    Settles stops (checkedWords dims name) fun words => words = volume dims ∧ words ≤ maxWords := by
  unfold checkedWords
  dsimp only
  split
  next hfits => exact ⟨rfl, hfits⟩
  next =>
    split
    · trivial
    next hlarge => exact h.resolve_left hlarge

/-- A row is not larger than its array. -/
theorem volume_drop_le {dims : List Nat} (hpos : ∀ d ∈ dims, 0 < d) (n : Nat) :
    volume (dims.drop n) ≤ volume dims := by
  induction dims generalizing n with
  | nil => exact Nat.le_of_eq (by rw [drop_nil])
  | cons d ds ih =>
    rw [forall_mem_cons] at hpos
    cases n with
    | zero => exact Nat.le_refl _
    | succ n => exact Nat.le_trans (ih hpos.2 n) (Nat.le_mul_of_pos_left _ hpos.1)

/-- The sizes of the rows of arrays in scope can be counted. -/
def Rows (stops : Stop → Prop) (symbols : Symbols) : Prop :=
  ∀ ⦃name base dims k⦄, symbols.lookup name = some (.array base dims k) →
    ∀ n, volume (dims.drop (n + 1)) < 0x100000000 ∨ stops (.fault .sizeOverflow)

/-! ## Scopes -/

/-- **The lowering knows the variables that are declared**, and can count their
rows. -/
structure Tracks (stops : Stop → Prop) (seen symbols : Symbols) : Prop where
  known : SameKnown symbols seen
  rows : Rows stops symbols

namespace Tracks

/-- There are no variables at the start. -/
theorem start : Tracks stops [[]] [[]] where
  known := fun _ => rfl
  rows := fun _ _ _ _ h => by cases h

theorem enter (h : Tracks stops seen symbols) : Tracks stops seen.enter symbols.enter where
  known := by
    intro name
    rw [Env.lookup_enter, Env.lookup_enter]
    exact h.known name
  rows := by
    intro name base dims k hname
    rw [Env.lookup_enter] at hname
    exact h.rows hname

theorem declare (h : Tracks stops seen symbols) {s : Symbol} (hs : s.known = v.symbol.known)
    (hrow : volume v.dims.tail < 0x100000000 ∨ stops (.fault .sizeOverflow)) :
    Tracks stops (seen.declare v) (symbols.bind v.name.value s) where
  known := by
    intro name
    by_cases heq : name = v.name.value
    · subst heq
      rw [Symbols.declare, Env.lookup_bind_self, Env.lookup_bind_self, Option.map_some, hs,
        Option.map_some]
    · rw [Symbols.declare, Env.lookup_bind_of_ne heq, Env.lookup_bind_of_ne heq]
      exact h.known name
  rows := by
    intro name base dims k hname n
    obtain ⟨-, rfl⟩ | ⟨-, hname⟩ := Env.of_lookup_bind hname
    · -- the dimensions of the symbol are those of the variable
      have hdims : dims = v.dims := by
        unfold Declared.symbol at hs
        split at hs <;> cases hs
        rfl
      subst hdims
      refine hrow.imp_left fun hrow => ?_
      rw [← drop_tail]
      exact Nat.lt_of_le_of_lt (volume_drop_le v.positive n) hrow
    · exact h.rows hname n

end Tracks

/-! ## Constants -/

theorem evalConst_settles (symbols : Symbols) (e : Expr) :
    Whole stops e.spell → Settles stops (evalConst symbols e) fun _ => True := by
  induction e using Expr.induction with
  | number span text =>
    intro h
    rw [evalConst]
    exact literal_settles span h
  | paren span e ih =>
    intro h
    rw [evalConst]
    exact ih (h.mono (by simp [Expr.spell]))
  | unary span op e ih =>
    intro h
    rw [evalConst]
    exact (ih (h.mono (by simp [Expr.spell]))).bind fun _ _ => trivial
  | binary span op a b iha ihb =>
    intro h
    rw [evalConst]
    refine (iha (h.mono (by simp [Expr.spell]))).bind fun x _ => ?_
    refine (ihb (h.mono (by simp [Expr.spell]))).bind fun y _ => ?_
    split <;> trivial
  | call span callee args =>
    intro _
    rw [evalConst]
    trivial
  | lval span name indices ih =>
    intro h
    have hes : ∀ e ∈ indices, Settles stops (evalConst symbols e) fun _ => True := fun e he =>
      ih e he (h.mono (subset_cons_of_subset _ (Expr.subset_spellSubscripts he)))
    rw [evalConst]
    refine (resolve_settles symbols name).bind fun s _ => ?_
    split
    · split <;> trivial
    · split
      · refine (evalOffset_ends hes trivial _ _).bind fun k _ => ?_
        split <;> trivial
      · trivial
    · trivial

theorem evalDims_settles (symbols : Symbols) (hes : ∀ e ∈ es, Whole stops e.spell) :
    Settles stops (evalDims symbols es) fun _ => True :=
  evalDims_ends (fun e he => evalConst_settles symbols e (hes e he)) fun _ _ => trivial

/-! ## Expressions -/

/-- Where subscripts leave a row, its size is a product of dimensions after the
first. -/
theorem lowerAddress_settles (hrows : Rows stops ctx.symbols) (name : Ident) {indices : List Expr}
    (hes : ∀ e ∈ indices, GenSettles stops (lowerExpr ctx e) fun _ => True) :
    GenSettles stops (lowerAddress ctx name indices) fun _ => True := by
  refine lowerAddress_ends ((resolve_settles ctx.symbols name).imp ?_) hes
  rintro _ hs base dims ks rfl e es rfl
  exact hrows hs es.length

theorem lowerExpr_settles (hrows : Rows stops ctx.symbols) (e : Expr) :
    Whole stops e.spell → GenSettles stops (lowerExpr ctx e) fun _ => True := by
  induction e using Expr.induction with
  | number span text =>
    intro h
    rw [lowerExpr]
    exact (literal_settles span h).lift.bind fun _ _ => .pure trivial
  | paren span e ih =>
    intro h
    rw [lowerExpr]
    exact ih (h.mono (by simp [Expr.spell]))
  | unary span op e ih =>
    intro h
    rw [lowerExpr]
    exact (ih (h.mono (by simp [Expr.spell]))).bind fun _ _ =>
      (unaryCode_ends _ _).bind fun _ _ => .pure trivial
  | binary span op a b iha ihb =>
    intro h
    rw [lowerExpr]
    refine (iha (h.mono (by simp [Expr.spell]))).bind fun _ _ => ?_
    refine (ihb (h.mono (by simp [Expr.spell]))).bind fun _ _ => ?_
    exact define_ends.bind fun _ _ => .pure trivial
  | call span callee args ih =>
    intro h
    have hes : ∀ e ∈ args, GenSettles stops (lowerExpr ctx e) fun _ => True := fun e he =>
      ih e he (h.mono (subset_cons_of_subset _
        (subset_cons_of_subset _ (Expr.subset_spellList he _))))
    have hfunction : Settles stops (ctx.function callee) fun _ => True := by
      unfold Context.function
      cases List.lookup callee.value ctx.functions <;> trivial
    rw [lowerExpr]
    refine hfunction.lift.bind fun s _ => (lowerArgs_ends hes).bind fun _ _ => ?_
    dsimp only
    split
    · exact .pure trivial
    · exact define_ends.bind fun _ _ => .pure trivial
  | lval span name indices ih =>
    intro h
    have hes : ∀ e ∈ indices, GenSettles stops (lowerExpr ctx e) fun _ => True := fun e he =>
      ih e he (h.mono (subset_cons_of_subset _ (Expr.subset_spellSubscripts he)))
    rw [lowerExpr]
    refine (lowerAddress_settles hrows name hes).bind fun r _ => ?_
    obtain ⟨code, address, isScalar⟩ := r
    cases isScalar with
    | true => exact define_ends.bind fun _ _ => .pure trivial
    | false => exact .pure trivial

/-! ## Conditions -/

theorem lowerCond_settles (hrows : Rows stops ctx.symbols) (c : Cond) (h : Whole stops c.spell) :
    GenSettles stops (lowerCond ctx c) fun _ => True := by
  induction c with
  | expr e =>
    rw [lowerCond]
    exact (lowerExpr_settles hrows e h).bind fun _ _ => .pure trivial
  | compare span op a b iha ihb =>
    rw [lowerCond]
    refine (iha (h.mono (by simp [Cond.spell]))).bind fun _ _ => ?_
    refine (ihb (h.mono (by simp [Cond.spell]))).bind fun _ _ => ?_
    exact define_ends.bind fun _ _ => define_ends.bind fun _ _ => .pure trivial
  | logic span op a b iha ihb =>
    rw [lowerCond]
    exact connect_ends op (truth_ends (iha (h.mono (by simp [Cond.spell]))))
      (truth_ends (ihb (h.mono (by simp [Cond.spell]))))

/-! ## Declarations -/

/-- An array that is not too large to be an object has rows that can be
counted. -/
theorem volume_tail_lt {dims : List Nat} (hpos : ∀ d ∈ dims, 0 < d) (h : volume dims ≤ maxWords) :
    volume dims.tail < 0x100000000 := by
  have hrow := volume_drop_le hpos 1
  rw [drop_one] at hrow
  exact Nat.lt_of_le_of_lt (Nat.le_trans hrow h) (by decide)

theorem definitionItems_settles {dims : List Nat}
    (h : init.isSome = true → volume dims < 0x100000000 ∨ stops (.fault .sizeOverflow)) :
    Settles stops (definitionItems dims init) fun items =>
      items = init.map fun i => layOut dims i.value := by
  cases init with
  | none => rfl
  | some i =>
    have hwords : Settles stops (wordVolume dims) fun _ => True := wordVolume_ends (h rfl)
    exact hwords.bind fun _ _ => rfl

theorem knownValues_settles {dims : List Nat}
    (hknown : SameKnown symbols seen)
    (hwhole : ∀ e, some e ∈ (init.map fun i => layOut dims i.value).getD [] → Whole stops e.spell) :
    Settles stops (knownValues constant symbols (init.map fun i => layOut dims i.value))
      fun ks => ks = knownWords .stack constant seen dims init := by
  cases constant with
  | false => rfl
  | true =>
    cases init with
    | none => rfl
    | some i =>
      have hitems : ∀ e, some e ∈ layOut dims i.value → Whole stops e.spell := hwhole
      refine (evalItems_ends fun e he => evalConst_settles symbols e (hitems e he)).eq_ok.bind fun ks hks => ?_
      rw [evalItems_known hknown] at hks
      show _ = (evalItems seen (layOut dims i.value)).toOption
      rw [hks]
      rfl

theorem lowerDefinition_settles (h : Tracks stops seen ctx.symbols) (hwhole : Whole stops d.spell)
    (hcount : ∀ v, d.declared? .stack constant seen = some v → v.countable = false →
      stops (.fault .sizeOverflow)) :
    GenSettles stops (lowerDefinition constant ctx d) fun r =>
      ∃ v, d.declared? .stack constant seen = some v ∧ v.fits = true ∧
        Tracks stops (seen.declare v) r.2 := by
  rw [lowerDefinition]
  refine (evalDims_settles ctx.symbols hwhole.dims).eq_ok.lift.bind fun dims hdims => ?_
  rw [evalDims_known h.known] at hdims
  obtain ⟨v, hv, hstorage, hname, hinit, rfl, hvalues⟩ :=
    Definition.exists_declared .stack constant hdims
  -- what cannot be counted is a fault that is expected
  have hlarge : volume v.dims < (if d.init.isSome then 0x100000000 else 0x8000000000000000) ∨
      stops (.fault .sizeOverflow) := by
    have hv := hcount v hv
    rw [Declared.countable, hstorage, hinit] at hv
    by_cases hlt : volume v.dims < if d.init.isSome then 0x100000000 else 0x8000000000000000
    · exact .inl hlt
    · exact .inr (hv (decide_eq_false hlt))
  refine (definitionItems_settles fun hsome => ?_).lift.bind fun items hitems => ?_
  · rwa [if_pos hsome] at hlarge
  subst hitems
  refine (knownValues_settles h.known (hwhole.items v.dims)).lift.bind fun ks hks => ?_
  rw [← hvalues] at hks
  subst hks
  split
  next hscalar =>
    have htracks : ∀ slot, Tracks stops (seen.declare v)
        (ctx.symbols.bind d.name.value (.scalar slot (v.values.bind (·.head?)))) := fun slot => by
      rw [← hname]
      refine h.declare ?_ (.inl ?_)
      · rw [Declared.symbol, if_pos hscalar]
        rfl
      · rw [isEmpty_iff.1 hscalar]
        decide
    refine define_ends.bind fun _ _ => ?_
    refine (initialValue_ends fun e he => lowerExpr_settles (htracks _).rows e ?_).bind fun _ _ => ?_
    · exact hwhole.items v.dims e (mem_of_join_head? he)
    · refine .pure ⟨v, hv, ?_, htracks _⟩
      rw [Declared.fits, isEmpty_iff.1 hscalar]
      simp [volume, maxWords]
  next harray =>
    refine (checkedWords_settles d.name ?_).lift.bind fun words hwords => ?_
    · refine hlarge.imp_left fun hlt => Nat.lt_of_lt_of_le hlt ?_
      split <;> decide
    obtain ⟨rfl, hfits⟩ := hwords
    have htracks : ∀ base, Tracks stops (seen.declare v)
        (ctx.symbols.bind d.name.value (.array (.address base) v.dims v.values)) := fun base => by
      rw [← hname]
      refine h.declare ?_ (.inl (volume_tail_lt (evalDims_pos hdims) hfits))
      rw [Declared.symbol, if_neg harray]
      rfl
    refine define_ends.bind fun _ _ => ?_
    refine (storeItems_ends (fun e he =>
      lowerExpr_settles (htracks _).rows e (hwhole.items v.dims e he)) _ _).bind
      fun _ _ => .pure ⟨v, hv, ?_, htracks _⟩
    rw [Declared.fits, decide_eq_true hfits, Bool.or_true]

/-- What definitions one after the other are known to end with: each variable
fits, and the lowering knows them all. -/
def Declares (stops : Stop → Prop) (seen : Symbols) (vs : List Declared) (symbols : Symbols) : Prop :=
  (∀ v ∈ vs, v.fits = true) ∧ Tracks stops (seen.declareAll vs) symbols

theorem Declares.nil (h : Tracks stops seen symbols) : Declares stops seen [] symbols :=
  ⟨fun _ hv => absurd hv not_mem_nil, h⟩

theorem Declares.cons {vs : List Declared} (hfits : v.fits = true)
    (h : Declares stops (seen.declare v) vs symbols) : Declares stops seen (v :: vs) symbols :=
  ⟨forall_mem_cons.2 ⟨hfits, h.1⟩, h.2⟩

/-- That these variables can be counted, or that one cannot is a fault that is
expected. -/
def Counted (stops : Stop → Prop) (vs : List Declared) : Prop :=
  ∀ v ∈ vs, v.countable = false → stops (.fault .sizeOverflow)

theorem counted_append {vs ws : List Declared} :
    Counted stops (vs ++ ws) ↔ Counted stops vs ∧ Counted stops ws := forall_mem_append

theorem lowerDefinitions_settles (h : Tracks stops seen ctx.symbols)
    (hwhole : ∀ d ∈ ds, Whole stops d.spell)
    (hcount : Counted stops (Definition.declaredAll .stack constant seen ds)) :
    GenSettles stops (lowerDefinitions constant ctx ds) fun r =>
      Declares stops seen (Definition.declaredAll .stack constant seen ds) r.2 := by
  induction ds generalizing seen ctx with
  | nil => exact fun _ => .nil h
  | cons d ds ih =>
    rw [Definition.declaredAll, counted_append] at hcount
    rw [forall_mem_cons] at hwhole
    rw [lowerDefinitions]
    refine (lowerDefinition_settles h hwhole.1 fun v hv => ?_).bind fun r hr => ?_
    · exact hcount.1 v (by rw [hv]; exact mem_singleton_self v)
    · obtain ⟨v, hv, hfits, htracks⟩ := hr
      rw [Definition.declaredAll]
      rw [hv] at hcount ⊢
      have hrest : GenSettles stops (lowerDefinitions constant { ctx with symbols := r.2 } ds) _ :=
        ih htracks hwhole.2 hcount.2
      exact hrest.bind fun _ hrest => .pure (.cons hfits hrest)

/-! ## Statements -/

mutual

/-- **The lowering of statements**, and that their variables fit. -/
theorem lowerStmt_settles {seen : Symbols} (ctx : Context) (h : Tracks stops seen ctx.symbols) :
    (s : Stmt) → Whole stops s.spell → Counted stops (s.declared seen) →
    GenSettles stops (lowerStmt ctx s) fun _ => ∀ v ∈ s.declared seen, v.fits = true
  | .assign target mark value, hwhole, _ => by
    have htarget : Whole stops target.spell := hwhole.mono (by simp [Stmt.spell])
    have hes : ∀ e ∈ target.indices, GenSettles stops (lowerExpr ctx e) fun _ => True := fun e he =>
      lowerExpr_settles h.rows e
        (htarget.mono (subset_cons_of_subset _ (Expr.subset_spellSubscripts he)))
    have hvalue : Whole stops value.spell := hwhole.mono (by
      intro t ht
      simp [Stmt.spell, ht])
    rw [lowerStmt, Stmt.declared]
    exact (lowerExpr_settles h.rows value hvalue).bind fun _ _ =>
      (lowerAddress_settles h.rows _ hes).bind fun _ _ => .pure (by simp)
  | .eval none, _, _ => by
    rw [lowerStmt, Stmt.declared]
    exact .pure (by simp)
  | .eval (some e), hwhole, _ => by
    rw [lowerStmt, Stmt.declared]
    exact (lowerExpr_settles h.rows e (hwhole.mono (by simp [Stmt.spell]))).bind fun _ _ =>
      .pure (by simp)
  | .block b, hwhole, hcount => by
    rw [Stmt.declared] at hcount ⊢
    rw [lowerStmt]
    exact lowerBlock_settles _ h.enter b (hwhole.mono (by simp [Stmt.spell])) hcount
  | .if_ c s rest, hwhole, hcount => by
    rw [Stmt.declared, counted_append] at hcount
    rw [lowerStmt, Stmt.declared]
    have hcond : Whole stops c.spell := hwhole.mono (by
      intro t ht
      simp [Stmt.spell, Cond.spellGuard, ht])
    have hbody := lowerStmt_settles ctx h s (hwhole.mono (by intro t ht; simp [Stmt.spell, ht])) hcount.1
    refine newBlock_ends.bind fun join _ => ?_
    refine (branchCode_ends join (truth_ends (lowerCond_settles h.rows c hcond)) hbody).bind
      fun _ hfits => ?_
    refine (lowerOtherwise_settles ctx h join rest (hwhole.mono (by simp [Stmt.spell])) hcount.2).bind
      fun _ hfits' => ?_
    exact startBlock_ends.bind fun _ _ => .pure (forall_mem_append.2 ⟨hfits, hfits'⟩)
  | .while_ c s, hwhole, hcount => by
    rw [Stmt.declared] at hcount ⊢
    rw [lowerStmt]
    have hcond : Whole stops c.spell := hwhole.mono (by
      intro t ht
      simp [Stmt.spell, Cond.spellGuard, ht])
    exact loopCode_ends (truth_ends (lowerCond_settles h.rows c hcond)) fun loop =>
      lowerStmt_settles { ctx with loop := some loop } h s (hwhole.mono (by simp [Stmt.spell])) hcount
  | .break_ _, _, _ | .continue_ _, _, _ => by
    rw [lowerStmt, Stmt.declared]
    exact (leaveTo_ends _).imp fun _ _ => by simp
  | .return_ _ none, _, _ => by
    rw [lowerStmt, Stmt.declared]
    exact (deadEnd_ends _).imp fun _ _ => by simp
  | .return_ _ (some e), hwhole, _ => by
    rw [lowerStmt, Stmt.declared]
    exact (lowerExpr_settles h.rows e (hwhole.mono (by simp [Stmt.spell]))).bind fun _ _ =>
      (deadEnd_ends _).bind fun _ _ => .pure (by simp)

theorem lowerBlock_settles {seen : Symbols} (ctx : Context) (h : Tracks stops seen ctx.symbols) :
    (b : Block) → Whole stops b.spell → Counted stops (b.declared seen) →
    GenSettles stops (lowerBlock ctx b) fun _ => ∀ v ∈ b.declared seen, v.fits = true
  | .nil, _, _ => by
    rw [lowerBlock, Block.declared]
    exact .pure (by simp)
  | .decl d rest, hwhole, hcount => by
    rw [Block.declared, counted_append] at hcount
    rw [lowerBlock, Block.declared]
    have hdefinitions : ∀ d' ∈ d.definitions, Whole stops d'.spell := fun d' hd' =>
      hwhole.mono (List.Subset.trans (Decl.subset_spell hd') (by simp [Block.spell]))
    refine GenEnds.bind (lowerDefinitions_settles h hdefinitions hcount.1) fun r hr => ?_
    refine (lowerBlock_settles { ctx with symbols := r.2 } hr.2 rest (hwhole.mono (by simp [Block.spell]))
      hcount.2).bind fun _ hrest => ?_
    exact .pure (forall_mem_append.2 ⟨hr.1, hrest⟩)
  | .stmt s rest, hwhole, hcount => by
    rw [Block.declared, counted_append] at hcount
    rw [lowerBlock, Block.declared]
    refine (lowerStmt_settles ctx h s (hwhole.mono (by simp [Block.spell])) hcount.1).bind fun _ hs => ?_
    refine (lowerBlock_settles ctx h rest (hwhole.mono (by simp [Block.spell])) hcount.2).bind
      fun _ hrest => ?_
    exact .pure (forall_mem_append.2 ⟨hs, hrest⟩)

theorem lowerOtherwise_settles {seen : Symbols} (ctx : Context) (h : Tracks stops seen ctx.symbols)
    (join : Label) : (o : Otherwise) → Whole stops o.spell → Counted stops (o.declared seen) →
    GenSettles stops (lowerOtherwise ctx join o) fun _ => ∀ v ∈ o.declared seen, v.fits = true
  | .done, _, _ => by
    rw [lowerOtherwise, Otherwise.declared]
    exact .pure (by simp)
  | .else_ s, hwhole, hcount => by
    rw [Otherwise.declared] at hcount ⊢
    rw [lowerOtherwise]
    exact lowerStmt_settles ctx h s (hwhole.mono (by simp [Otherwise.spell])) hcount
  | .elseIf c s rest, hwhole, hcount => by
    rw [Otherwise.declared, counted_append] at hcount
    rw [lowerOtherwise, Otherwise.declared]
    have hcond : Whole stops c.spell := hwhole.mono (by
      intro t ht
      simp [Otherwise.spell, Cond.spellGuard, ht])
    have hbody := lowerStmt_settles ctx h s (hwhole.mono (by intro t ht; simp [Otherwise.spell, ht]))
      hcount.1
    refine (branchCode_ends join (truth_ends (lowerCond_settles h.rows c hcond)) hbody).bind
      fun _ hfits => ?_
    refine (lowerOtherwise_settles ctx h join rest (hwhole.mono (by
      intro t ht
      simp [Otherwise.spell, ht])) hcount.2).bind fun _ hfits' => ?_
    exact .pure (forall_mem_append.2 ⟨hfits, hfits'⟩)

end

/-! ## Programs -/

/-- What a parameter declares. The sizes of parameters are not looked at. -/
theorem parameterSymbol_settles {p : Parameter} (slot : Value)
    (hknown : SameKnown symbols seen)
    (hwhole : Whole stops p.spell) :
    Settles stops (parameterSymbol symbols slot p) fun s =>
      ∃ v, p.declared? seen = some v ∧ v.storage = .parameter ∧ v.name = p.name ∧
        s.known = v.symbol.known := by
  unfold parameterSymbol Parameter.declared?
  cases hp : p.array with
  | none => exact ⟨_, rfl, rfl, rfl, rfl⟩
  | some es =>
    have hes : ∀ e ∈ es, Whole stops e.spell := fun e he => hwhole.mono (by
      intro t ht
      rw [Parameter.spell, hp]
      simp [Expr.subset_spellSubscripts he ht])
    refine (evalDims_settles symbols hes).eq_ok.bind fun dims hdims => ?_
    rw [evalDims_known hknown] at hdims
    dsimp only
    split
    next heq => cases hdims.symm.trans heq
    next heq =>
      cases hdims.symm.trans heq
      exact ⟨_, rfl, rfl, rfl, rfl⟩

theorem lowerParameters_settles {ps : List Parameter} (h : Tracks stops seen symbols)
    (hwhole : ∀ p ∈ ps, Whole stops p.spell)
    (hcount : Counted stops (Parameter.declaredAll seen ps)) (i : Nat) :
    GenSettles stops (lowerParameters symbols i ps) fun r =>
      Declares stops seen (Parameter.declaredAll seen ps) r.2 := by
  induction ps generalizing seen symbols i with
  | nil => exact fun _ => .nil h
  | cons p ps ih =>
    rw [Parameter.declaredAll, counted_append] at hcount
    rw [forall_mem_cons] at hwhole
    rw [lowerParameters, lowerParameter]
    refine GenEnds.bind (P := fun r => ∃ v, p.declared? seen = some v ∧ v.fits = true ∧
      Tracks stops (seen.declare v) r.2) ?_ fun r hr => ?_
    · refine define_ends.bind fun _ _ => ?_
      refine (parameterSymbol_settles _ h.known hwhole.1).lift.bind fun s hs => ?_
      obtain ⟨v, hv, hstorage, hname, hs⟩ := hs
      refine .pure ⟨v, hv, by rw [Declared.fits, hstorage]; rfl, ?_⟩
      rw [← hname]
      refine h.declare hs (or_iff_not_imp_left.2 fun hlarge => ?_)
      refine hcount.1 v (by rw [hv]; exact mem_singleton_self v) ?_
      rw [Declared.countable, hstorage]
      exact decide_eq_false hlarge
    · obtain ⟨v, hv, hfits, htracks⟩ := hr
      rw [Parameter.declaredAll]
      rw [hv] at hcount ⊢
      exact (ih htracks hwhole.2 hcount.2 _).bind fun _ hrest => .pure (.cons hfits hrest)

theorem lowerFunction_settles {d : FunctionDef} (functions : Frame Signature)
    (h : Tracks stops seen symbols) (hwhole : Whole stops d.spell)
    (hcount : Counted stops (d.declared seen)) :
    Settles stops (lowerFunction symbols functions d) fun _ => ∀ v ∈ d.declared seen, v.fits = true := by
  rw [FunctionDef.declared, counted_append] at hcount
  rw [FunctionDef.declared]
  have hparams : ∀ p ∈ d.params, Whole stops p.spell := fun p hp => hwhole.mono (by
    intro t ht
    have hlist := subset_spellList .closeParen (mem_map_of_mem hp) ht
    simp [FunctionDef.spell, hlist])
  have hbody : Whole stops d.body.spell := hwhole.mono (by
    intro t ht
    simp [FunctionDef.spell, ht])
  have hcode : GenSettles stops (functionCode symbols functions d) fun _ =>
      ∀ v ∈ Parameter.declaredAll seen.enter d.params ++ d.body.declared
        (Symbols.declareAll seen.enter (Parameter.declaredAll seen.enter d.params)).enter,
        v.fits = true := by
    refine newBlock_ends.bind fun _ _ => startBlock_ends.bind fun _ _ => ?_
    refine (lowerParameters_settles h.enter hparams hcount.1 0).bind fun r hr => ?_
    refine (lowerBlock_settles { symbols := r.2.enter, functions } hr.2.enter d.body hbody
      hcount.2).bind fun _ hfits => ?_
    exact .pure (forall_mem_append.2 ⟨hr.1, hfits⟩)
  exact (hcode {}).bind fun _ hfits => hfits

theorem globalInit_settles {dims : List Nat}
    (hknown : SameKnown symbols seen)
    (hwhole : Whole stops d.spell) :
    Settles stops (globalInit symbols dims (volume dims) d.init) fun init =>
      knownWords .global true seen dims d.init = some init := by
  have hitems := hwhole.items dims
  cases hi : d.init with
  | none => rfl
  | some i =>
    rw [hi] at hitems
    refine (show Settles stops (evalItems symbols (layOut dims i.value)) fun init =>
      evalItems symbols (layOut dims i.value) = .ok init from
      (evalItems_ends fun e he => evalConst_settles symbols e (hitems e he)).eq_ok).imp fun init hinit => ?_
    rw [evalItems_known hknown] at hinit
    rw [knownWords, hinit]
    rfl

theorem known_globalSymbol {init : List Int32}
    (hvalues : v.values = knownWords .global constant seen v.dims d.init)
    (hinit : knownWords .global true seen v.dims d.init = some init) :
    (globalSymbol constant d.name.value v.dims init).known = v.symbol.known := by
  have hinit' : v.values = if constant then some init else none := by
    cases constant with
    | false => exact hvalues
    | true => exact hvalues.trans hinit
  rw [globalSymbol, Declared.symbol, hinit']
  cases constant <;> split <;> rfl

theorem lowerGlobals_settles (constant : Bool) (h : Tracks stops seen symbols)
    (hwhole : ∀ d ∈ ds, Whole stops d.spell)
    (hcount : Counted stops (Definition.declaredAll .global constant seen ds)) :
    Settles stops (lowerGlobals constant symbols ds) fun r =>
      Declares stops seen (Definition.declaredAll .global constant seen ds) r.2 := by
  induction ds generalizing seen symbols with
  | nil => exact .nil h
  | cons d ds ih =>
    rw [forall_mem_cons] at hwhole
    rw [lowerGlobals]
    refine (evalDims_settles symbols hwhole.1.dims).eq_ok.bind fun dims hdims => ?_
    rw [evalDims_known h.known] at hdims
    obtain ⟨v, hv, hstorage, hname, -, rfl, hvalues⟩ :=
      Definition.exists_declared .global constant hdims
    rw [Definition.declaredAll, hv, counted_append] at hcount
    rw [Definition.declaredAll, hv]
    refine (checkedWords_settles d.name (or_iff_not_imp_left.2 fun hlarge => ?_)).bind
      fun words hwords => ?_
    · refine hcount.1 v (mem_singleton_self v) ?_
      rw [Declared.countable, hstorage]
      exact decide_eq_false hlarge
    obtain ⟨rfl, hfits⟩ := hwords
    refine (globalInit_settles h.known hwhole.1).bind fun init hinit => ?_
    have htracks : Tracks stops (seen.declare v)
        (symbols.bind d.name.value (globalSymbol constant d.name.value v.dims init)) := by
      rw [← hname]
      refine h.declare ?_ (.inl (volume_tail_lt (evalDims_pos hdims) hfits))
      rw [hname]
      exact known_globalSymbol hvalues hinit
    refine (ih htracks hwhole.2 hcount.2).bind fun r hrest => .cons ?_ hrest
    rw [Declared.fits, decide_eq_true hfits, Bool.or_true]

theorem lowerUnits_settles {us : List TopLevel} (functions : Frame Signature)
    (h : Tracks stops seen symbols) (hwhole : ∀ u ∈ us, Whole stops u.spell)
    (hcount : Counted stops (TopLevel.declaredAll seen us)) :
    Settles stops (lowerUnits symbols functions us).result fun _ =>
      ∀ v ∈ TopLevel.declaredAll seen us, v.fits = true := by
  induction us generalizing seen symbols functions with
  | nil => exact fun _ hv => absurd hv not_mem_nil
  | cons u us ih =>
    rw [forall_mem_cons] at hwhole
    cases u with
    | decl d =>
      rw [TopLevel.declaredAll, counted_append] at hcount
      rw [TopLevel.declaredAll, lowerUnits]
      have hglobals := lowerGlobals_settles d.constant h
        (fun d' hd' => hwhole.1.mono (Decl.subset_spell hd')) hcount.1
      split
      next gs inner heq =>
        rw [heq] at hglobals
        exact (ih functions hglobals.2 hwhole.2 hcount.2).map _ fun _ hrest =>
          forall_mem_append.2 ⟨hglobals.1, hrest⟩
      next e heq =>
        rw [heq] at hglobals
        exact hglobals
    | function d =>
      rw [TopLevel.declaredAll, counted_append] at hcount
      rw [TopLevel.declaredAll, lowerUnits]
      have hfunction := lowerFunction_settles
        ((d.name.value, ⟨d.returns = .void, d.params.length⟩) :: functions) h hwhole.1 hcount.1
      split
      next f heq =>
        rw [heq] at hfunction
        exact (ih _ h hwhole.2 hcount.2).map _ fun _ hrest =>
          forall_mem_append.2 ⟨hfunction, hrest⟩
      next e heq =>
        rw [heq] at hfunction
        exact hfunction

/-- Any error that stands somewhere, and these faults. -/
def AnyError (faults : Fault → Prop) : Stop → Prop
  | .error _ => True
  | .fault f => faults f

/-- A computation gives something that has a property, or an error that stands
somewhere, or it ends in one of these faults. -/
abbrev Answers (faults : Fault → Prop) {α : Type} (r : Except Stop α) (P : α → Prop) : Prop :=
  Settles (AnyError faults) r P

theorem lowerUnits_answers {faults : Fault → Prop} (functions : Frame Signature)
    (h : Tracks (AnyError faults) seen symbols)
    (hsplit : ∀ u ∈ us, ∀ text, .number text ∈ u.spell → Literal.boundary 2 text.toList = false →
      faults .splitCharacter)
    (hcount : ∀ v ∈ TopLevel.declaredAll seen us, v.countable = false → faults .sizeOverflow) :
    Answers faults (lowerUnits symbols functions us).result fun _ =>
      ∀ v ∈ TopLevel.declaredAll seen us, v.fits = true := by
  refine lowerUnits_settles functions h (fun u hu text htext span s hs => ?_) hcount
  unfold literal Literal.decode at hs
  cases hboundary : Literal.boundary 2 text.toList with
  | false =>
    rw [hboundary] at hs
    cases hs
    exact hsplit u hu text htext hboundary
  | true =>
    rw [hboundary] at hs
    cases hvalue : Literal.value text.toList <;> rw [hvalue] at hs <;> cases hs
    trivial

end Lower

end SysY
