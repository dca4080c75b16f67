import SysY.Lower.Program

/-!
# How lowering ends

Lowering gives something or stops for a reason. A statement about the reasons
goes through most of the lowering unchanged, since most of its steps never
stop: here is what holds of every such statement, once for each construct whose
parts are known to end well.
-/

namespace SysY.Lower

open List

open IR (Value Op Instr Label Temp)

section

variable {ε α β : Type} {P : α → Prop} {Q : β → Prop}

section

variable {allowed : ε → Prop} {r : Except ε α}

/-- A computation gives something that has a property, or stops for a reason
that is allowed. -/
def Ends (allowed : ε → Prop) (r : Except ε α) (P : α → Prop) : Prop :=
  match r with
  | .ok a => P a
  | .error e => allowed e

theorem Ends.pure {a : α} (h : P a) : Ends allowed (Pure.pure a : Except ε α) P := h

theorem Ends.any (r : Except ε α) : Ends (fun _ => True) r fun _ => True := by
  cases r <;> trivial

theorem Ends.imp {P' : α → Prop} (h : Ends allowed r P) (hP : ∀ a, P a → P' a) : Ends allowed r P' := by
  cases r with
  | ok a => exact hP a h
  | error e => exact h

theorem Ends.bind {f : α → Except ε β} (h : Ends allowed r P) (hf : ∀ a, P a → Ends allowed (f a) Q) :
    Ends allowed (r >>= f) Q := by
  cases r with
  | ok a => exact hf a h
  | error e => exact h

theorem Ends.bind_ok {a : α} {f : α → Except ε β} (hr : r = .ok a) (hf : Ends allowed (f a) Q) :
    Ends allowed (r >>= f) Q := by
  rw [hr]
  exact hf

theorem Ends.map (h : Ends allowed r P) (f : α → β) (hf : ∀ a, P a → Q (f a)) :
    Ends allowed (r.map f) Q := by
  cases r with
  | ok a => exact hf a h
  | error e => exact h

/-- What a computation gives is what it comes to. -/
theorem Ends.eq_ok (h : Ends allowed r P) : Ends allowed r fun a => r = .ok a := by
  cases r with
  | ok a => rfl
  | error e => exact h

end

variable {allowed : Stop → Prop}

/-- The same of lowering, wherever it starts. -/
def GenEnds (allowed : Stop → Prop) (g : Gen α) (P : α → Prop) : Prop :=
  ∀ σ, Ends allowed (g σ) fun r => P r.1

theorem GenEnds.pure {a : α} (h : P a) : GenEnds allowed (Pure.pure a) P := fun _ => h

theorem GenEnds.bind {g : Gen α} {f : α → Gen β} (h : GenEnds allowed g P)
    (hf : ∀ a, P a → GenEnds allowed (f a) Q) : GenEnds allowed (g >>= f) Q :=
  fun σ => (h σ).bind fun r hr => hf r.1 hr r.2

/-- One computation after another, from where the first starts. -/
theorem Ends.seq {g : Gen α} {f : α → Gen β} {σ : Supply} {P : α × Supply → Prop}
    {Q : β × Supply → Prop} (h : Ends allowed (g σ) P)
    (hf : ∀ r, P r → Ends allowed (f r.1 r.2) Q) : Ends allowed ((g >>= f) σ) Q := h.bind hf

theorem GenEnds.imp {P' : α → Prop} {g : Gen α} (h : GenEnds allowed g P) (hP : ∀ a, P a → P' a) :
    GenEnds allowed g P' :=
  fun σ => (h σ).imp fun r hr => hP r.1 hr

theorem Ends.lift {r : Except Stop α} (h : Ends allowed r P) : GenEnds allowed (liftM r) P :=
  fun _ => h.bind fun _ ha => ha

end

variable {allowed : Stop → Prop} {ctx : Context}

/-! ## Steps that do not stop -/

theorem define_ends {op : Op} : GenEnds allowed (define op) fun _ => True := fun _ => trivial

theorem newBlock_ends {name : String} : GenEnds allowed (newBlock name) fun _ => True :=
  fun _ => trivial

theorem startBlock_ends {l : Label} : GenEnds allowed (startBlock l) fun _ => True := fun _ => trivial

theorem deadEnd_ends (op : Op) : GenEnds allowed (deadEnd op) fun _ => True := fun _ => trivial

theorem leaveTo_ends (target : Option Label) : GenEnds allowed (leaveTo target) fun _ => True := by
  cases target <;> exact fun _ => trivial

theorem unaryCode_ends (op : UnaryOp) (v : Value) : GenEnds allowed (unaryCode op v) fun _ => True := by
  cases op <;> exact fun _ => trivial

theorem baseAddress_ends (base : Base) : GenEnds allowed (baseAddress base) fun _ => True := by
  cases base <;> exact fun _ => trivial

/-! ## Constructs whose parts end well -/

/-- Subscripts of constants stop where one of them does, or out of range. -/
theorem evalOffset_ends {symbols : Symbols} {span : Span} {es : List Expr}
    (hes : ∀ e ∈ es, Ends allowed (evalConst symbols e) fun _ => True)
    (hrange : allowed (.error ⟨.notConstant, span⟩)) (offset : Nat) (sizes : List Nat) :
    Ends allowed (evalOffset symbols span offset es sizes) fun _ => True := by
  induction es generalizing offset sizes with
  | nil => cases sizes <;> trivial
  | cons e es ih =>
    cases sizes with
    | nil => trivial
    | cons size sizes =>
      rw [evalOffset]
      refine (hes e mem_cons_self).bind fun n _ => ?_
      split
      · exact ih (fun e he => hes e (mem_cons_of_mem _ he)) _ _
      · exact hrange

theorem evalDims_ends {symbols : Symbols} {es : List Expr}
    (hes : ∀ e ∈ es, Ends allowed (evalConst symbols e) fun _ => True)
    (hsize : ∀ n span, allowed (.error ⟨.badDimension n, span⟩)) :
    Ends allowed (evalDims symbols es) fun _ => True := by
  induction es with
  | nil => trivial
  | cons e es ih =>
    rw [evalDims]
    refine (hes e mem_cons_self).bind fun n _ => ?_
    split
    · exact (ih fun e he => hes e (mem_cons_of_mem _ he)).bind fun _ _ => trivial
    · exact hsize _ _

theorem evalItems_ends {symbols : Symbols} {items : List (Option Expr)}
    (hitems : ∀ e, some e ∈ items → Ends allowed (evalConst symbols e) fun _ => True) :
    Ends allowed (evalItems symbols items) fun _ => True := by
  induction items with
  | nil => trivial
  | cons item items ih =>
    have hrest := ih fun e he => hitems e (mem_cons_of_mem _ he)
    cases item with
    | none => exact hrest.bind fun _ _ => trivial
    | some e => exact (hitems e mem_cons_self).bind fun _ _ => hrest.bind fun _ _ => trivial

theorem lowerArgs_ends {es : List Expr}
    (hes : ∀ e ∈ es, GenEnds allowed (lowerExpr ctx e) fun _ => True) :
    GenEnds allowed (lowerArgs ctx es) fun _ => True := by
  induction es with
  | nil => exact fun _ => trivial
  | cons e es ih =>
    rw [lowerArgs]
    exact (hes e mem_cons_self).bind fun _ _ =>
      (ih fun e he => hes e (mem_cons_of_mem _ he)).bind fun _ _ => .pure trivial

theorem lowerOffset_ends {es : List Expr}
    (hes : ∀ e ∈ es, GenEnds allowed (lowerExpr ctx e) fun _ => True) (offset : Value)
    (sizes : List Nat) : GenEnds allowed (lowerOffset ctx offset es sizes) fun _ => True := by
  induction es generalizing offset sizes with
  | nil => cases sizes <;> exact fun _ => trivial
  | cons e es ih =>
    cases sizes with
    | nil => exact fun _ => trivial
    | cons size sizes =>
      rw [lowerOffset]
      refine define_ends.bind fun _ _ => (hes e mem_cons_self).bind fun _ _ => ?_
      refine define_ends.bind fun _ _ => ?_
      exact (ih (fun e he => hes e (mem_cons_of_mem _ he)) _ _).bind fun _ _ => .pure trivial

theorem wordVolume_ends {dims : List Nat}
    (h : volume dims < 0x100000000 ∨ allowed (.fault .sizeOverflow)) :
    Ends allowed (wordVolume dims) fun _ => True := by
  unfold wordVolume
  split
  · trivial
  next hlarge => exact h.resolve_left hlarge

theorem scaleByRow_ends (offset : Value) {rest : List Nat}
    (h : volume rest < 0x100000000 ∨ allowed (.fault .sizeOverflow)) :
    GenEnds allowed (scaleByRow offset rest) fun _ => True := by
  unfold scaleByRow
  split
  · exact fun _ => trivial
  · exact (wordVolume_ends h).lift.bind fun _ _ => define_ends

/-- An address, where the rows that subscripts leave can be counted. -/
theorem lowerAddress_ends {name : Ident} {indices : List Expr}
    (hs : Ends allowed (ctx.symbols.resolve name) fun s => ∀ base dims ks, s = .array base dims ks →
      ∀ e es, indices = e :: es → volume (dims.drop indices.length) < 0x100000000 ∨
        allowed (.fault .sizeOverflow))
    (hes : ∀ e ∈ indices, GenEnds allowed (lowerExpr ctx e) fun _ => True) :
    GenEnds allowed (lowerAddress ctx name indices) fun _ => True := by
  rw [lowerAddress]
  refine hs.lift.bind fun s hs => ?_
  cases s with
  | scalar => exact fun _ => trivial
  | array base dims ks =>
    refine (baseAddress_ends base).bind fun _ _ => ?_
    cases indices with
    | nil => exact fun _ => trivial
    | cons e es =>
      refine (hes e mem_cons_self).bind fun _ _ => ?_
      refine (lowerOffset_ends (fun e he => hes e (mem_cons_of_mem _ he)) _ _).bind fun _ _ => ?_
      exact (scaleByRow_ends _ (hs _ _ _ rfl _ _ rfl)).bind fun _ _ => define_ends.bind fun _ _ =>
        .pure trivial

theorem truth_ends {g : Gen (Code × Value)} (h : GenEnds allowed g fun _ => True) :
    GenEnds allowed (truth g) fun _ => True :=
  h.bind fun _ _ => define_ends.bind fun _ _ => .pure trivial

theorem connect_ends (op : LogicOp) {lhs rhs : Gen (Code × Value)}
    (hl : GenEnds allowed lhs fun _ => True) (hr : GenEnds allowed rhs fun _ => True) :
    GenEnds allowed (connect op lhs rhs) fun _ => True := by
  refine hl.bind fun _ _ => GenEnds.bind (P := fun _ => True) (fun _ => trivial) fun _ _ => ?_
  refine newBlock_ends.bind fun _ _ => newBlock_ends.bind fun _ _ => ?_
  refine startBlock_ends.bind fun _ _ => hr.bind fun _ _ => ?_
  exact fun _ => trivial

theorem initialValue_ends {constant : Option Int32} {item : Option Expr}
    (hitem : ∀ e, item = some e → GenEnds allowed (lowerExpr ctx e) fun _ => True) :
    GenEnds allowed (initialValue ctx constant item) fun _ => True := by
  unfold initialValue
  split
  · exact fun _ => trivial
  · exact hitem _ rfl
  · exact fun _ => trivial

theorem storeItems_ends {base : Value} {items : List (Option Expr)}
    (hitems : ∀ e, some e ∈ items → GenEnds allowed (lowerExpr ctx e) fun _ => True)
    (constants : Option (List Int32)) (i : Nat) :
    GenEnds allowed (storeItems ctx base constants i items) fun _ => True := by
  induction items generalizing constants i with
  | nil => exact fun _ => trivial
  | cons item items ih =>
    rw [storeItems]
    refine (initialValue_ends fun e he => hitems e (he ▸ mem_cons_self)).bind fun _ _ => ?_
    refine define_ends.bind fun _ _ => ?_
    exact (ih (fun e he => hitems e (mem_cons_of_mem _ he)) _ _).bind fun _ _ => .pure trivial

theorem branchCode_ends (join : Label) {cond : Gen (Code × Value)} {body : Gen Code} {P : Prop}
    (hc : GenEnds allowed cond fun _ => True) (hb : GenEnds allowed body fun _ => P) :
    GenEnds allowed (branchCode join cond body) fun _ => P :=
  newBlock_ends.bind fun _ _ => newBlock_ends.bind fun _ _ => hc.bind fun _ _ =>
    startBlock_ends.bind fun _ _ => hb.bind fun _ hP => startBlock_ends.bind fun _ _ =>
      .pure hP

theorem loopCode_ends {cond : Gen (Code × Value)} {body : Loop → Gen Code} {P : Prop}
    (hc : GenEnds allowed cond fun _ => True) (hb : ∀ loop, GenEnds allowed (body loop) fun _ => P) :
    GenEnds allowed (loopCode cond body) fun _ => P :=
  newBlock_ends.bind fun _ _ => newBlock_ends.bind fun _ _ =>
    newBlock_ends.bind fun _ _ => startBlock_ends.bind fun _ _ => hc.bind fun _ _ =>
      startBlock_ends.bind fun _ _ => (hb _).bind fun _ hP => startBlock_ends.bind fun _ _ =>
        .pure hP

end SysY.Lower
