import SysY.Lower.Program

/-!
# What lowering can produce

Lowering draws on a supply and may stop. Where it does not stop, what it
returns is built from what its parts return, and this module says how, once
for each construct: from `g σ = .ok (a, σ')` to the equations that `a` and
`σ'` satisfy. Everything that is proved of lowered code starts from these
equations, and opens no definition of the lowering itself.
-/

namespace SysY

open List

variable {ε α β : Type} {x : Except ε α} {b : β}

/-- What two steps return, the second gets from the first. -/
theorem except_bind_ok {f : α → Except ε β} : (x >>= f) = .ok b ↔ ∃ a, x = .ok a ∧ f a = .ok b := by
  cases x with
  | error e | ok a => simp [bind, Except.bind]

theorem except_map_ok {g : α → β} : x.map g = .ok b ↔ ∃ a, x = .ok a ∧ g a = b := by
  cases x <;> simp [Except.map]

namespace Lower

open IR (Value Op Instr Label Temp)

/-! ## The monad -/

variable {σ σ' : Supply} {ctx : Context} {l : Label} {c : Code} {symbols inner : Symbols} {is : List Instr} {span : Span}
  {v offset : Value} {e : Expr} {es : List Expr} {i : Nat} {constant : Bool} {d : Definition}
  {f : FunctionDef} {functions : Frame Signature} {vs : List Value} {us : List TopLevel}
  {sizes dims : List Nat} {rest : Otherwise} {op : LogicOp} {m : IR.Module}
  {ks : Option (List Int32)} {join : Label} {item : Option Expr} {indices : List Expr}
  {ds : List Definition} {cond : Gen (Code × Value)} {body : Stmt} {base : Value}

/-- The same of steps that draw on a supply. -/
theorem bind_ok {x : Gen α} {f : α → Gen β} :
    (x >>= f) σ = .ok (b, σ') ↔ ∃ a σ1, x σ = .ok (a, σ1) ∧ f a σ1 = .ok (b, σ') := by
  show (x σ >>= fun p => f p.1 p.2) = _ ↔ _
  cases h : x σ with
  | error e => simp [bind, Except.bind]
  | ok p =>
    obtain ⟨a, σ1⟩ := p
    constructor
    · exact fun h' => ⟨a, σ1, rfl, h'⟩
    · rintro ⟨_, _, heq, h'⟩
      cases heq
      exact h'

theorem pure_ok {a b : α} : (pure a : Gen α) σ = .ok (b, σ') ↔ b = a ∧ σ' = σ := by
  show Except.ok (a, σ) = _ ↔ _
  rw [Except.ok.injEq, Prod.mk.injEq, eq_comm, @eq_comm _ σ]

theorem lift_ok {x : Except Stop α} {a : α} :
    (liftM x : Gen α) σ = .ok (a, σ') ↔ x = .ok a ∧ σ' = σ := by
  cases x with
  | error e => simp [liftM, monadLift, MonadLift.monadLift, StateT.lift, bind, Except.bind]
  | ok b =>
    show Except.ok (b, σ) = _ ↔ _
    rw [Except.ok.injEq, Prod.mk.injEq, Except.ok.injEq, @eq_comm _ σ]

theorem lift_bind_ok {x : Except Stop α} {f : α → Gen β} :
    (liftM x >>= f) σ = .ok (b, σ') ↔ ∃ a, x = .ok a ∧ f a σ = .ok (b, σ') := by
  simp only [bind_ok, lift_ok]
  grind

section

variable (σ) (n : String) (l)

/-- The supply with one more temporary handed out. -/
def Supply.bump : Supply := { σ with temps := σ.temps + 1 }

/-- The supply with one more block handed out. -/
def Supply.name (name : String) : Supply := { σ with names := σ.names.push name }

/-- The supply in another block. -/
def Supply.enter : Supply := { σ with current := l }

@[simp, grind =] theorem Supply.bump_temps : σ.bump.temps = σ.temps + 1 := rfl
@[simp, grind =] theorem Supply.bump_names : σ.bump.names = σ.names := rfl
@[simp, grind =] theorem Supply.bump_current : σ.bump.current = σ.current := rfl
@[simp, grind =] theorem Supply.name_temps : (σ.name n).temps = σ.temps := rfl
@[simp, grind =] theorem Supply.name_names : (σ.name n).names = σ.names.push n := rfl
@[simp, grind =] theorem Supply.name_current : (σ.name n).current = σ.current := rfl
@[simp, grind =] theorem Supply.enter_temps : (σ.enter l).temps = σ.temps := rfl
@[simp, grind =] theorem Supply.enter_names : (σ.enter l).names = σ.names := rfl
@[simp, grind =] theorem Supply.enter_current : (σ.enter l).current = l := rfl

end

theorem pure_pair_ok {a a' : α} {b b' : β} :
    (pure (a, b) : Gen (α × β)) σ = .ok ((a', b'), σ') ↔ a' = a ∧ b' = b ∧ σ' = σ := by
  rw [pure_ok, Prod.mk.injEq, and_assoc]

theorem define_bind (op : Op) (f : List Instr × Value → Gen β) :
    (define op >>= f) σ = f ([⟨some σ.temps, op⟩], .temp σ.temps) σ.bump := rfl

theorem define_ok {op : Op} : define op σ = .ok ((is, v), σ') ↔
    is = [⟨some σ.temps, op⟩] ∧ v = .temp σ.temps ∧ σ' = σ.bump :=
  @pure_pair_ok _ _ σ.bump ..

theorem newBlock_bind (name : String) (f : Label → Gen β) :
    (newBlock name >>= f) σ = f σ.names.size (σ.name name) := rfl

theorem startBlock_bind (l : Label) (f : Code → Gen β) :
    (startBlock l >>= f) σ = f [.label l] (σ.enter l) := rfl

theorem currentBlock_bind (f : Label → Gen β) : (currentBlock >>= f) σ = f σ.current σ := rfl

theorem deadEnd_ok {op : Op} :
    deadEnd op σ = .ok (c, σ') ↔
      c = perform op ++ [.label σ.names.size] ∧ σ' = (σ.name "dead").enter σ.names.size := by
  simp only [deadEnd, newBlock_bind, startBlock_bind, pure_ok]

/-! ## Names -/

theorem resolve_ok {name : Ident} {s : Symbol}
    (h : symbols.resolve name = .ok s) : symbols.lookup name.value = some s := by
  unfold Symbols.resolve at h
  split at h
  next hs =>
    cases h
    exact hs
  next => cases h

theorem function_ok {name : Ident} {s : Signature} (h : ctx.function name = .ok s) :
    List.lookup name.value ctx.functions = some s := by
  unfold Context.function at h
  split at h
  next hs =>
    cases h
    exact hs
  next => cases h

/-! ## Expressions -/

theorem lowerExpr_number {text : String}
    (h : lowerExpr ctx (.number span text) σ = .ok ((is, v), σ')) :
    ∃ n, literal span text = .ok n ∧ is = [] ∧ v = .const n ∧ σ' = σ := by
  rw [lowerExpr] at h
  simpa only [lift_bind_ok, pure_pair_ok] using h

theorem lowerExpr_paren : lowerExpr ctx (.paren span e) σ = lowerExpr ctx e σ := by
  rw [lowerExpr]

/-- A word is loaded from its address; an array or a row *is* its address. -/
theorem lowerExpr_lval {name : Ident}
    (h : lowerExpr ctx (.lval span name indices) σ = .ok ((is, v), σ')) :
    ∃ c a scalar σ1, lowerAddress ctx name indices σ = .ok ((c, a, scalar), σ1) ∧
      (scalar = true ∧ is = c ++ [⟨some σ1.temps, .load a⟩] ∧ v = .temp σ1.temps ∧ σ' = σ1.bump ∨
        scalar = false ∧ is = c ∧ v = a ∧ σ' = σ1) := by
  rw [lowerExpr] at h
  simp only [bind_ok, Prod.exists] at h
  obtain ⟨c, a, scalar, σ1, hc, h⟩ := h
  refine ⟨c, a, scalar, σ1, hc, ?_⟩
  cases scalar with
  | true =>
    simp only [if_true, define_bind, pure_pair_ok] at h
    exact Or.inl ⟨rfl, h⟩
  | false =>
    simp only [Bool.false_eq_true, if_false, pure_pair_ok] at h
    exact Or.inr ⟨rfl, h⟩

/-- The code of an operator before an operand. -/
theorem unaryCode_ok {op : UnaryOp} {x : Value} (h : unaryCode op x σ = .ok ((is, v), σ')) :
    op = .plus ∧ is = [] ∧ v = x ∧ σ' = σ ∨
    op = .minus ∧ is = [⟨some σ.temps, .binary .sub (.const 0) x⟩] ∧ v = .temp σ.temps ∧
      σ' = σ.bump ∨
    op = .not ∧ is = [⟨some σ.temps, .compare .eq x (.const 0)⟩,
        ⟨some (σ.temps + 1), .zext (.temp σ.temps)⟩] ∧
      v = .temp (σ.temps + 1) ∧ σ' = σ.bump.bump := by
  cases op with
  | plus =>
    simp only [unaryCode, pure_pair_ok] at h
    exact Or.inl ⟨rfl, h⟩
  | minus =>
    simp only [unaryCode, define_ok] at h
    exact Or.inr (Or.inl ⟨rfl, h⟩)
  | not =>
    simp only [unaryCode, define_bind, pure_pair_ok] at h
    exact Or.inr (Or.inr ⟨rfl, h⟩)

theorem lowerExpr_unary {op : Located UnaryOp}
    (h : lowerExpr ctx (.unary span op e) σ = .ok ((is, v), σ')) :
    ∃ c1 x σ1 c2, lowerExpr ctx e σ = .ok ((c1, x), σ1) ∧
      unaryCode op.value x σ1 = .ok ((c2, v), σ') ∧ is = c1 ++ c2 := by
  rw [lowerExpr] at h
  simp only [bind_ok, pure_pair_ok, Prod.exists] at h
  obtain ⟨c1, x, σ1, h1, c2, _, _, h2, rfl, rfl, rfl⟩ := h
  exact ⟨c1, x, σ1, c2, h1, h2, rfl⟩

theorem lowerExpr_binary {op : BinOp} {a b : Expr}
    (h : lowerExpr ctx (.binary span op a b) σ = .ok ((is, v), σ')) :
    ∃ c1 x σ1 c2 y σ2, lowerExpr ctx a σ = .ok ((c1, x), σ1) ∧
      lowerExpr ctx b σ1 = .ok ((c2, y), σ2) ∧
      is = c1 ++ c2 ++ [⟨some σ2.temps, .binary (binOp op) x y⟩] ∧ v = .temp σ2.temps ∧
      σ' = σ2.bump := by
  rw [lowerExpr] at h
  simp only [bind_ok, define_bind, pure_pair_ok, Prod.exists] at h
  obtain ⟨c1, x, σ1, h1, c2, y, σ2, h⟩ := h
  exact ⟨c1, x, σ1, c2, y, σ2, h1, h⟩

/-- A call has a result unless the function gives nothing back. -/
theorem lowerExpr_call {callee : Ident} {args : List Expr}
    (h : lowerExpr ctx (.call span callee args) σ = .ok ((is, v), σ')) :
    ∃ signature c vs σ1, ctx.function callee = .ok signature ∧
      lowerArgs ctx args σ = .ok ((c, vs), σ1) ∧
      (signature.void = true ∧ is = c ++ [⟨none, .call callee.value vs⟩] ∧ v = .const 0 ∧
          σ' = σ1 ∨
        signature.void = false ∧ is = c ++ [⟨some σ1.temps, .call callee.value vs⟩] ∧
          v = .temp σ1.temps ∧ σ' = σ1.bump) := by
  rw [lowerExpr] at h
  obtain ⟨signature, hs, h⟩ := lift_bind_ok.1 h
  simp only [bind_ok, Prod.exists] at h
  obtain ⟨c, vs, σ1, hc, h⟩ := h
  refine ⟨signature, c, vs, σ1, hs, hc, ?_⟩
  cases hvoid : signature.void with
  | true =>
    simp only [hvoid, if_true, pure_pair_ok] at h
    exact Or.inl ⟨rfl, h⟩
  | false =>
    simp only [hvoid, Bool.false_eq_true, if_false, define_bind, pure_pair_ok] at h
    exact Or.inr ⟨rfl, h⟩

theorem lowerArgs_nil (h : lowerArgs ctx [] σ = .ok ((is, vs), σ')) :
    is = [] ∧ vs = [] ∧ σ' = σ := by
  rw [lowerArgs] at h
  exact pure_pair_ok.1 h

theorem lowerArgs_cons (h : lowerArgs ctx (e :: es) σ = .ok ((is, vs), σ')) :
    ∃ c1 x σ1 c2 xs, lowerExpr ctx e σ = .ok ((c1, x), σ1) ∧
      lowerArgs ctx es σ1 = .ok ((c2, xs), σ') ∧ is = c1 ++ c2 ∧ vs = x :: xs := by
  rw [lowerArgs] at h
  simp only [bind_ok, pure_pair_ok, Prod.exists] at h
  obtain ⟨c1, x, σ1, h1, c2, xs, _, h2, rfl, rfl, rfl⟩ := h
  exact ⟨c1, x, σ1, c2, xs, h1, h2, rfl, rfl⟩

/-- An array is at a known address, or at one that is loaded from a slot. -/
theorem baseAddress_ok {base : Base} (h : baseAddress base σ = .ok ((is, v), σ')) :
    base = .address v ∧ is = [] ∧ σ' = σ ∨
    ∃ slot, base = .pointer slot ∧ is = [⟨some σ.temps, .load slot⟩] ∧ v = .temp σ.temps ∧
      σ' = σ.bump := by
  cases base with
  | address w =>
    simp only [baseAddress, pure_pair_ok] at h
    obtain ⟨rfl, rfl, rfl⟩ := h
    exact Or.inl ⟨rfl, rfl, rfl⟩
  | pointer slot =>
    simp only [baseAddress, define_ok] at h
    exact Or.inr ⟨slot, rfl, h⟩

/-- The size of a row scales an offset unless there are no dimensions left. -/
theorem scaleByRow_ok {rest : List Nat} (h : scaleByRow offset rest σ = .ok ((is, v), σ')) :
    rest = [] ∧ is = [] ∧ v = offset ∧ σ' = σ ∨
    rest ≠ [] ∧ volume rest < 0x100000000 ∧
      is = [⟨some σ.temps, .binary .mul offset (.const (Int32.ofNat (volume rest)))⟩] ∧
      v = .temp σ.temps ∧ σ' = σ.bump := by
  unfold scaleByRow at h
  cases rest with
  | nil =>
    simp only [isEmpty_nil, if_true, pure_pair_ok] at h
    exact Or.inl ⟨rfl, h⟩
  | cons d ds =>
    simp only [isEmpty_cons, Bool.false_eq_true, if_false, lift_bind_ok, define_ok] at h
    obtain ⟨stride, hs, h⟩ := h
    unfold wordVolume at hs
    split at hs
    · cases hs
      exact Or.inr ⟨by simp, ‹_›, h⟩
    · cases hs

theorem lowerAddress_ok {name : Ident} {scalar : Bool}
    (h : lowerAddress ctx name indices σ = .ok ((is, v, scalar), σ')) :
    (∃ k, ctx.symbols.resolve name = .ok (.scalar v k) ∧ is = [] ∧ scalar = true ∧ σ' = σ) ∨
    ∃ base dims k c1 b σ1, ctx.symbols.resolve name = .ok (.array base dims k) ∧
      baseAddress base σ = .ok ((c1, b), σ1) ∧
      (indices = [] ∧ is = c1 ∧ v = b ∧ scalar = false ∧ σ' = σ1 ∨
        ∃ e es c2 first σ2 c3 offset σ3 c4 scaled σ4, indices = e :: es ∧
          lowerExpr ctx e σ1 = .ok ((c2, first), σ2) ∧
          lowerOffset ctx first es dims.tail σ2 = .ok ((c3, offset), σ3) ∧
          scaleByRow offset (dims.drop indices.length) σ3 = .ok ((c4, scaled), σ4) ∧
          is = c1 ++ c2 ++ c3 ++ c4 ++ [⟨some σ4.temps, .element b scaled⟩] ∧
          v = .temp σ4.temps ∧ scalar = (dims.drop indices.length).isEmpty ∧ σ' = σ4.bump) := by
  rw [lowerAddress] at h
  obtain ⟨symbol, hs, h⟩ := lift_bind_ok.1 h
  cases symbol with
  | scalar a k =>
    simp only [pure_pair_ok, Prod.mk.injEq] at h
    obtain ⟨rfl, ⟨rfl, rfl⟩, rfl⟩ := h
    exact Or.inl ⟨k, hs, rfl, rfl, rfl⟩
  | array base dims k =>
    simp only [bind_ok, Prod.exists] at h
    obtain ⟨c1, b, σ1, hb, h⟩ := h
    refine Or.inr ⟨base, dims, k, c1, b, σ1, hs, hb, ?_⟩
    cases indices with
    | nil =>
      simp only [pure_pair_ok, Prod.mk.injEq, and_assoc] at h
      exact Or.inl ⟨rfl, h⟩
    | cons e es =>
      simp only [bind_ok, define_bind, pure_pair_ok, Prod.exists, Prod.mk.injEq, and_assoc] at h
      obtain ⟨c2, first, σ2, h2, c3, offset, σ3, h3, c4, scaled, σ4, h⟩ := h
      exact Or.inr ⟨e, es, c2, first, σ2, c3, offset, σ3, c4, scaled, σ4, rfl, h2, h3, h⟩

/-- Where subscripts or dimensions end, so does the offset. -/
theorem lowerOffset_end (hend : es = [] ∨ sizes = [])
    (h : lowerOffset ctx offset es sizes σ = .ok ((is, v), σ')) :
    is = [] ∧ v = offset ∧ σ' = σ := by
  have hpure : lowerOffset ctx offset es sizes = pure ([], offset) := by
    rcases hend with rfl | rfl
    · cases sizes <;> rw [lowerOffset] <;> simp
    · cases es <;> rw [lowerOffset] <;> simp
  rw [hpure] at h
  exact pure_pair_ok.1 h

theorem lowerOffset_cons {size : Nat}
    (h : lowerOffset ctx offset (e :: es) (size :: sizes) σ = .ok ((is, v), σ')) :
    ∃ c2 index σ2 c4, lowerExpr ctx e σ.bump = .ok ((c2, index), σ2) ∧
      lowerOffset ctx (.temp σ2.temps) es sizes σ2.bump = .ok ((c4, v), σ') ∧
      is = [⟨some σ.temps, .binary .mul offset (.const (Int32.ofNat size))⟩] ++ c2 ++
        [⟨some σ2.temps, .binary .add (.temp σ.temps) index⟩] ++ c4 := by
  rw [lowerOffset] at h
  simp only [bind_ok, define_bind, pure_pair_ok, Prod.exists] at h
  obtain ⟨c2, index, σ2, h2, c4, _, _, h4, rfl, rfl, rfl⟩ := h
  exact ⟨c2, index, σ2, c4, h2, h4, rfl⟩

/-! ## Conditions -/

theorem truth_ok {g : Gen (Code × Value)} (h : truth g σ = .ok ((c, v), σ')) :
    ∃ c1 x σ1, g σ = .ok ((c1, x), σ1) ∧
      c = c1 ++ straight [⟨some σ1.temps, .compare .ne x (.const 0)⟩] ∧ v = .temp σ1.temps ∧
      σ' = σ1.bump := by
  simpa only [truth, bind_ok, define_bind, pure_pair_ok, Prod.exists] using h

/-- The branch after the left operand of a connective: to the right operand if
it matters, and else to the phi. -/
def decision (op : LogicOp) (left : Value) (rhs phi : Label) : Op :=
  match op with
  | .and => .branch left rhs phi
  | .or => .branch left phi rhs

/-- The code of a connective. With `σ1` after the left operand and `σ2` after
the right one, the blocks of the right operand and of the phi are the first
two that are handed out after `σ1`. -/
theorem connect_ok {lhs rhs : Gen (Code × Value)} (h : connect op lhs rhs σ = .ok ((c, v), σ')) :
    ∃ (c1 : Code) (left : Value) (σ1 : Supply) (c2 : Code) (right : Value) (σ2 : Supply),
      lhs σ = .ok ((c1, left), σ1) ∧
      rhs (((σ1.name "cond_rhs").name "cond_phi").enter σ1.names.size) = .ok ((c2, right), σ2) ∧
      c = c1 ++ (perform (decision op left σ1.names.size (σ1.names.size + 1)) ++
        [.label σ1.names.size] ++ c2 ++ perform (.jump (σ1.names.size + 1)) ++
        [.label (σ1.names.size + 1)] ++
        straight [⟨some σ2.temps, .phi left σ1.current right σ2.current⟩,
          ⟨some (σ2.temps + 1), .zext (.temp σ2.temps)⟩]) ∧
      v = .temp (σ2.temps + 1) ∧ σ' = (σ2.enter (σ1.names.size + 1)).bump.bump := by
  unfold connect at h
  simp only [bind_ok, newBlock_bind, startBlock_bind, currentBlock_bind, define_bind, pure_pair_ok,
    Prod.exists, Supply.name_names, Array.size_push] at h
  obtain ⟨c1, left, σ1, h1, c2, right, σ2, h2, rfl, rfl, rfl⟩ := h
  refine ⟨c1, left, σ1, c2, right, σ2, h1, h2, ?_, rfl, rfl⟩
  cases op <;> simp [decision]

theorem lowerCond_expr (h : lowerCond ctx (.expr e) σ = .ok ((c, v), σ')) :
    ∃ is, lowerExpr ctx e σ = .ok ((is, v), σ') ∧ c = straight is := by
  rw [lowerCond] at h
  simp only [bind_ok, pure_pair_ok, Prod.exists] at h
  obtain ⟨is, _, _, h1, rfl, rfl, rfl⟩ := h
  exact ⟨is, h1, rfl⟩

theorem lowerCond_compare {op : CmpOp} {a b : Cond}
    (h : lowerCond ctx (.compare span op a b) σ = .ok ((c, v), σ')) :
    ∃ c1 x σ1 c2 y σ2, lowerCond ctx a σ = .ok ((c1, x), σ1) ∧
      lowerCond ctx b σ1 = .ok ((c2, y), σ2) ∧
      c = c1 ++ c2 ++ straight [⟨some σ2.temps, .compare (cmpOp op) x y⟩,
        ⟨some (σ2.temps + 1), .zext (.temp σ2.temps)⟩] ∧
      v = .temp (σ2.temps + 1) ∧ σ' = σ2.bump.bump := by
  rw [lowerCond] at h
  simp only [bind_ok, define_bind, pure_pair_ok, Prod.exists] at h
  obtain ⟨c1, x, σ1, h1, c2, y, σ2, h⟩ := h
  exact ⟨c1, x, σ1, c2, y, σ2, h1, h⟩

theorem lowerCond_logic {a b : Cond} :
    lowerCond ctx (.logic span op a b)
      = connect op (truth (lowerCond ctx a)) (truth (lowerCond ctx b)) := by
  rw [lowerCond]

/-! ## Declarations -/

/-- What a word is initialised with. -/
theorem initialValue_ok {k : Option Int32} (h : initialValue ctx k item σ = .ok ((is, v), σ')) :
    (∃ n, k = some n ∧ is = [] ∧ v = .const n ∧ σ' = σ) ∨
    (∃ e, k = none ∧ item = some e ∧ lowerExpr ctx e σ = .ok ((is, v), σ')) ∨
    k = none ∧ item = none ∧ is = [] ∧ v = .const 0 ∧ σ' = σ := by
  cases k with
  | some n =>
    exact Or.inl ⟨n, rfl, pure_pair_ok.1 h⟩
  | none =>
    cases item with
    | some e => exact Or.inr (Or.inl ⟨e, rfl, rfl, h⟩)
    | none => exact Or.inr (Or.inr ⟨rfl, rfl, pure_pair_ok.1 h⟩)

theorem storeItems_nil (h : storeItems ctx base ks i [] σ = .ok (is, σ')) : is = [] ∧ σ' = σ := by
  simpa only [storeItems, pure_ok] using h

theorem storeItems_cons {items : List (Option Expr)}
    (h : storeItems ctx base ks i (item :: items) σ = .ok (is, σ')) :
    ∃ c1 x σ1 rest, initialValue ctx (ks.bind (·.head?)) item σ = .ok ((c1, x), σ1) ∧
      storeItems ctx base (ks.map (·.tail)) (i + 1) items σ1.bump = .ok (rest, σ') ∧
      is = c1 ++ [⟨some σ1.temps, .element base (.const (Int32.ofNat i))⟩,
        ⟨none, .store x (.temp σ1.temps)⟩] ++ rest := by
  simp only [storeItems, bind_ok, define_bind, pure_ok, Prod.exists] at h
  obtain ⟨c1, x, σ1, h1, rest, _, h2, rfl, rfl⟩ := h
  exact ⟨c1, x, σ1, rest, h1, h2, by simp⟩

theorem checkedWords_ok {name : Ident} {words : Nat} (h : checkedWords dims name = .ok words) :
    words = volume dims ∧ volume dims ≤ maxWords := by
  unfold checkedWords at h
  dsimp only at h
  split at h
  next hle =>
    cases h
    exact ⟨rfl, hle⟩
  next => split at h <;> cases h

theorem definitionItems_ok {init : Option Initializer} {items : Option (List (Option Expr))}
    (h : definitionItems dims init = .ok items) :
    items = init.map fun i => layOut dims i.value := by
  cases init with
  | none => cases h; rfl
  | some i =>
    obtain ⟨_, -, h⟩ := except_bind_ok.1 h
    cases h
    rfl

/-- What a local definition makes room for: a slot that is stored to, or an
array whose words are. -/
theorem lowerDefinition_ok (h : lowerDefinition constant ctx d σ = .ok ((is, symbols), σ')) :
    ∃ dims ks, evalDims ctx.symbols d.dims = .ok dims ∧
      knownValues constant ctx.symbols (d.init.map fun i => layOut dims i.value) = .ok ks ∧
      (dims = [] ∧ (∃ c v,
          symbols = ctx.symbols.bind d.name.value (.scalar (.temp σ.temps) (ks.bind (·.head?))) ∧
          initialValue { ctx with symbols } (ks.bind (·.head?))
            ((d.init.map fun i => layOut dims i.value).bind (·.head?)).join σ.bump
            = .ok ((c, v), σ') ∧
          is = [⟨some σ.temps, .alloca⟩] ++ c ++ [⟨none, .store v (.temp σ.temps)⟩]) ∨
        dims ≠ [] ∧ volume dims ≤ maxWords ∧ ∃ c,
          symbols = ctx.symbols.bind d.name.value (.array (.address (.temp σ.temps)) dims ks) ∧
          storeItems { ctx with symbols } (.temp σ.temps) ks 0
            ((d.init.map fun i => layOut dims i.value).getD []) σ.bump = .ok (c, σ') ∧
          is = [⟨some σ.temps, .array (volume dims)⟩] ++ c) := by
  unfold lowerDefinition at h
  simp only [lift_bind_ok] at h
  obtain ⟨dims, hdims, items, hitems, ks, hks, h⟩ := h
  cases definitionItems_ok hitems
  refine ⟨dims, ks, hdims, hks, ?_⟩
  cases dims with
  | nil =>
    simp only [isEmpty_nil, if_true, bind_ok, define_bind, pure_pair_ok, Prod.exists] at h
    obtain ⟨c, v, _, hc, rfl, rfl, rfl⟩ := h
    exact Or.inl ⟨rfl, c, v, rfl, hc, rfl⟩
  | cons size sizes =>
    simp only [isEmpty_cons, Bool.false_eq_true, if_false] at h
    obtain ⟨_, hwords, h⟩ := lift_bind_ok.1 h
    obtain ⟨rfl, hfits⟩ := checkedWords_ok hwords
    simp only [bind_ok, define_bind, pure_pair_ok] at h
    obtain ⟨c, _, hc, rfl, rfl, rfl⟩ := h
    exact Or.inr ⟨cons_ne_nil _ _, hfits, c, rfl, hc, rfl⟩

theorem lowerDefinitions_nil (h : lowerDefinitions constant ctx [] σ = .ok ((is, symbols), σ')) :
    is = [] ∧ symbols = ctx.symbols ∧ σ' = σ := by
  rw [lowerDefinitions] at h
  exact pure_pair_ok.1 h

theorem lowerDefinitions_cons
    (h : lowerDefinitions constant ctx (d :: ds) σ = .ok ((is, symbols), σ')) :
    ∃ c1 inner σ1 c2, lowerDefinition constant ctx d σ = .ok ((c1, inner), σ1) ∧
      lowerDefinitions constant { ctx with symbols := inner } ds σ1 = .ok ((c2, symbols), σ') ∧
      is = c1 ++ c2 := by
  rw [lowerDefinitions] at h
  simp only [bind_ok, pure_pair_ok, Prod.exists] at h
  obtain ⟨c1, inner, σ1, h1, c2, _, _, h2, rfl, rfl, rfl⟩ := h
  exact ⟨c1, inner, σ1, c2, h1, h2, rfl⟩

/-! ## Statements -/

/-- The code of a branch: its blocks are the first two that are handed out. -/
theorem branchCode_ok {body : Gen Code} (h : branchCode join cond body σ = .ok (c, σ')) :
    ∃ (c1 : Code) (v : Value) (σ1 : Supply) (c2 : Code) (σ2 : Supply),
      cond ((σ.name "if_true").name "if_false") = .ok ((c1, v), σ1) ∧
      body (σ1.enter σ.names.size) = .ok (c2, σ2) ∧
      c = c1 ++ (perform (.branch v σ.names.size (σ.names.size + 1)) ++ [.label σ.names.size] ++
        c2 ++ perform (.jump join) ++ [.label (σ.names.size + 1)]) ∧
      σ' = σ2.enter (σ.names.size + 1) := by
  simp only [branchCode, bind_ok, newBlock_bind, startBlock_bind, pure_ok, Prod.exists,
    Supply.name_names, Array.size_push] at h
  obtain ⟨c1, v, σ1, h1, c2, σ2, h2, rfl, rfl⟩ := h
  exact ⟨c1, v, σ1, c2, σ2, h1, h2, by simp only [append_assoc], rfl⟩

/-- The code of a loop: its blocks are the first three that are handed out. -/
theorem loopCode_ok {body : Loop → Gen Code} (h : loopCode cond body σ = .ok (c, σ')) :
    ∃ (c1 : Code) (v : Value) (σ1 : Supply) (c2 : Code) (σ2 : Supply),
      cond ((((σ.name "while_cond").name "while_body").name "while_next").enter σ.names.size)
        = .ok ((c1, v), σ1) ∧
      body ⟨σ.names.size, σ.names.size + 2⟩ (σ1.enter (σ.names.size + 1)) = .ok (c2, σ2) ∧
      c = perform (.jump σ.names.size) ++ [.label σ.names.size] ++ (c1 ++
        (perform (.branch v (σ.names.size + 1) (σ.names.size + 2)) ++ [.label (σ.names.size + 1)] ++
        c2 ++ perform (.jump σ.names.size) ++ [.label (σ.names.size + 2)])) ∧
      σ' = σ2.enter (σ.names.size + 2) := by
  simp only [loopCode, bind_ok, newBlock_bind, startBlock_bind, pure_ok, Prod.exists,
    Supply.name_names, Array.size_push] at h
  obtain ⟨c1, v, σ1, h1, c2, σ2, h2, rfl, rfl⟩ := h
  exact ⟨c1, v, σ1, c2, σ2, h1, h2, by simp only [append_assoc], rfl⟩

theorem leaveTo_ok {target : Option Label} (h : leaveTo target σ = .ok (c, σ')) :
    (target = none ∧ c = [] ∧ σ' = σ) ∨
    ∃ l, target = some l ∧ c = perform (.jump l) ++ [.label σ.names.size] ∧
      σ' = (σ.name "dead").enter σ.names.size := by
  cases target with
  | none => exact Or.inl ⟨rfl, pure_ok.1 h⟩
  | some l => exact Or.inr ⟨l, rfl, deadEnd_ok.1 h⟩

theorem lowerStmt_assign {target : LVal} {eq : Span} {value : Expr}
    (h : lowerStmt ctx (.assign target eq value) σ = .ok (c, σ')) :
    ∃ c1 v σ1 c2 a scalar, lowerExpr ctx value σ = .ok ((c1, v), σ1) ∧
      lowerAddress ctx target.name target.indices σ1 = .ok ((c2, a, scalar), σ') ∧
      c = straight (c1 ++ c2 ++ [⟨none, .store v a⟩]) := by
  rw [lowerStmt] at h
  simp only [bind_ok, pure_ok, Prod.exists] at h
  obtain ⟨c1, v, σ1, h1, c2, a, scalar, _, h2, rfl, rfl⟩ := h
  exact ⟨c1, v, σ1, c2, a, scalar, h1, h2, by simp [straight, perform]⟩

theorem lowerStmt_eval (h : lowerStmt ctx (.eval (some e)) σ = .ok (c, σ')) :
    ∃ is v, lowerExpr ctx e σ = .ok ((is, v), σ') ∧ c = straight is := by
  rw [lowerStmt] at h
  simp only [bind_ok, pure_ok, Prod.exists] at h
  obtain ⟨is, v, _, h1, rfl, rfl⟩ := h
  exact ⟨is, v, h1, rfl⟩

theorem lowerStmt_if {cond : Cond} (h : lowerStmt ctx (.if_ cond body rest) σ = .ok (c, σ')) :
    ∃ c1 σ1 c2 σ2,
      branchCode σ.names.size (truth (lowerCond ctx cond)) (lowerStmt ctx body)
        (σ.name "if_end") = .ok (c1, σ1) ∧
      lowerOtherwise ctx σ.names.size rest σ1 = .ok (c2, σ2) ∧
      c = c1 ++ (c2 ++ (perform (.jump σ.names.size) ++ [.label σ.names.size])) ∧
      σ' = σ2.enter σ.names.size := by
  rw [lowerStmt] at h
  simp only [bind_ok, newBlock_bind, startBlock_bind, pure_ok] at h
  obtain ⟨c1, σ1, h1, c2, σ2, h2, rfl, rfl⟩ := h
  exact ⟨c1, σ1, c2, σ2, h1, h2, by simp only [append_assoc], rfl⟩

theorem lowerStmt_return (h : lowerStmt ctx (.return_ span (some e)) σ = .ok (c, σ')) :
    ∃ is v σ1, lowerExpr ctx e σ = .ok ((is, v), σ1) ∧
      c = straight (is ++ [⟨none, .ret v⟩]) ++ [.label σ1.names.size] ∧
      σ' = (σ1.name "dead").enter σ1.names.size := by
  rw [lowerStmt] at h
  simp only [bind_ok, deadEnd_ok, pure_ok, Prod.exists] at h
  obtain ⟨is, v, σ1, h1, _, _, ⟨rfl, rfl⟩, rfl, rfl⟩ := h
  exact ⟨is, v, σ1, h1, by simp [straight, perform], rfl⟩

theorem lowerBlock_decl {d : Decl} {rest : Block}
    (h : lowerBlock ctx (.decl d rest) σ = .ok (c, σ')) :
    ∃ is symbols σ1 c2, lowerDefinitions d.constant ctx d.definitions σ = .ok ((is, symbols), σ1) ∧
      lowerBlock { ctx with symbols } rest σ1 = .ok (c2, σ') ∧ c = straight is ++ c2 := by
  rw [lowerBlock] at h
  simp only [bind_ok, pure_ok, Prod.exists] at h
  obtain ⟨is, symbols, σ1, h1, c2, _, h2, rfl, rfl⟩ := h
  exact ⟨is, symbols, σ1, c2, h1, h2, rfl⟩

theorem lowerBlock_stmt {s : Stmt} {rest : Block}
    (h : lowerBlock ctx (.stmt s rest) σ = .ok (c, σ')) :
    ∃ c1 σ1 c2, lowerStmt ctx s σ = .ok (c1, σ1) ∧ lowerBlock ctx rest σ1 = .ok (c2, σ') ∧
      c = c1 ++ c2 := by
  rw [lowerBlock] at h
  simp only [bind_ok, pure_ok] at h
  obtain ⟨c1, σ1, h1, c2, _, h2, rfl, rfl⟩ := h
  exact ⟨c1, σ1, c2, h1, h2, rfl⟩

theorem lowerOtherwise_elseIf {cond : Cond}
    (h : lowerOtherwise ctx join (.elseIf cond body rest) σ = .ok (c, σ')) :
    ∃ c1 σ1 c2,
      branchCode join (truth (lowerCond ctx cond)) (lowerStmt ctx body) σ = .ok (c1, σ1) ∧
      lowerOtherwise ctx join rest σ1 = .ok (c2, σ') ∧ c = c1 ++ c2 := by
  rw [lowerOtherwise] at h
  simp only [bind_ok, pure_ok] at h
  obtain ⟨c1, σ1, h1, c2, _, h2, rfl, rfl⟩ := h
  exact ⟨c1, σ1, c2, h1, h2, rfl⟩

/-! ## Functions -/

theorem lowerParameters_nil (h : lowerParameters symbols i [] σ = .ok ((is, inner), σ')) :
    is = [] ∧ inner = symbols ∧ σ' = σ := by
  rw [lowerParameters] at h
  exact pure_pair_ok.1 h

theorem lowerParameters_cons {p : Parameter} {ps : List Parameter}
    (h : lowerParameters symbols i (p :: ps) σ = .ok ((is, inner), σ')) :
    ∃ symbol rest, parameterSymbol symbols (.temp σ.temps) p = .ok symbol ∧
      lowerParameters (symbols.bind p.name.value symbol) (i + 1) ps σ.bump
        = .ok ((rest, inner), σ') ∧
      is = [⟨some σ.temps, .alloca⟩, ⟨none, .store (.arg i) (.temp σ.temps)⟩] ++ rest := by
  rw [lowerParameters] at h
  simp only [lowerParameter, bind_ok, lift_ok, define_bind, pure_pair_ok, Prod.exists] at h
  obtain ⟨_, _, _, ⟨symbol, _, ⟨hs, rfl⟩, rfl, rfl, rfl⟩, rest, _, _, h2, rfl, rfl, rfl⟩ := h
  exact ⟨symbol, rest, hs, h2, rfl⟩

/-- What the code of a function ends with. -/
def lastOp : ReturnType → Op
  | .int => .ret (.const 0)
  | .void => .retVoid

theorem functionCode_ok (h : functionCode symbols functions f {} = .ok (c, σ')) :
    ∃ is inner σ1 body,
      lowerParameters symbols.enter 0 f.params ⟨0, #["entry"], 0⟩ = .ok ((is, inner), σ1) ∧
      lowerBlock { symbols := inner.enter, functions } f.body σ1 = .ok (body, σ') ∧
      c = [.label 0] ++ straight is ++ body ++ perform (lastOp f.returns) := by
  unfold functionCode at h
  simp only [bind_ok, newBlock_bind, startBlock_bind, pure_ok, Prod.exists] at h
  obtain ⟨is, inner, σ1, h1, body, _, h2, rfl, rfl⟩ := h
  refine ⟨is, inner, σ1, body, h1, h2, ?_⟩
  cases f.returns <;> rfl

theorem lowerFunction_ok {g : IR.Function} (h : lowerFunction symbols functions f = .ok g) :
    ∃ code σ', functionCode symbols functions f {} = .ok (code, σ') ∧
      g = { name := f.name.value, void := f.returns = .void, params := f.params.length,
            blocks := code.blocks σ'.names.toList, layout := code.layout, temps := σ'.temps } := by
  unfold lowerFunction at h
  obtain ⟨⟨code, σ'⟩, h1, h2⟩ := except_bind_ok.1 h
  cases h2
  exact ⟨code, σ', h1, rfl⟩

theorem mem_of_mem_head {i : Instr} (h : i ∈ c.head) : .instr i ∈ c := by
  induction c with
  | nil => cases h
  | cons x c ih =>
    cases x with
    | label l => cases h
    | instr j =>
      rcases mem_cons.1 h with rfl | h
      · exact mem_cons_self
      · exact mem_cons_of_mem _ (ih h)

/-- The instructions of a block are instructions of the code. -/
theorem mem_of_mem_blockAt {i : Instr} (h : i ∈ c.blockAt l) : .instr i ∈ c := by
  induction c with
  | nil => cases h
  | cons x c ih =>
    cases x with
    | label m =>
      rw [Code.blockAt] at h
      split at h
      · exact mem_cons_of_mem _ (mem_of_mem_head h)
      · exact mem_cons_of_mem _ (ih h)
    | instr j => exact mem_cons_of_mem _ (ih h)

/-! ## Programs -/

theorem lowerGlobals_cons {gs : List IR.Global}
    (h : lowerGlobals constant symbols (d :: ds) = .ok (gs, inner)) :
    ∃ dims init rest, evalDims symbols d.dims = .ok dims ∧ volume dims ≤ maxWords ∧
      globalInit symbols dims (volume dims) d.init = .ok init ∧
      lowerGlobals constant
        (symbols.bind d.name.value (globalSymbol constant d.name.value dims init)) ds
        = .ok (rest, inner) ∧
      gs = ⟨d.name.value, init⟩ :: rest := by
  rw [lowerGlobals] at h
  obtain ⟨dims, hdims, h⟩ := except_bind_ok.1 h
  obtain ⟨words, hwords, h⟩ := except_bind_ok.1 h
  obtain ⟨rfl, hfits⟩ := checkedWords_ok hwords
  obtain ⟨init, hinit, h⟩ := except_bind_ok.1 h
  obtain ⟨⟨rest, _⟩, hrest, h⟩ := except_bind_ok.1 h
  cases h
  exact ⟨dims, init, rest, hdims, hfits, hinit, hrest, rfl⟩

theorem lowerUnits_decl {d : Decl}
    (h : (lowerUnits symbols functions (.decl d :: us)).result = .ok m) :
    ∃ gs inner rest, lowerGlobals d.constant symbols d.definitions = .ok (gs, inner) ∧
      (lowerUnits inner functions us).result = .ok rest ∧
      m = { rest with globals := gs ++ rest.globals } := by
  rw [lowerUnits] at h
  cases hg : lowerGlobals d.constant symbols d.definitions with
  | error e => simp [hg] at h
  | ok p =>
    obtain ⟨gs, inner⟩ := p
    simp only [hg, Outcome.withGlobals] at h
    cases hr : (lowerUnits inner functions us).result with
    | error e => simp [hr, Except.map] at h
    | ok rest =>
      rw [hr] at h
      cases h
      exact ⟨gs, inner, rest, rfl, hr, rfl⟩

theorem lowerUnits_function {us : List TopLevel} {m : IR.Module}
    (h : (lowerUnits symbols functions (.function f :: us)).result = .ok m) :
    ∃ g rest,
      lowerFunction symbols ((f.name.value, ⟨f.returns = .void, f.params.length⟩) :: functions) f
        = .ok g ∧
      (lowerUnits symbols ((f.name.value, ⟨f.returns = .void, f.params.length⟩) :: functions)
        us).result = .ok rest ∧
      m = { rest with functions := g :: rest.functions } := by
  rw [lowerUnits] at h
  split at h
  next g hg =>
    simp only [Outcome.withFunction] at h
    cases hr : (lowerUnits symbols
        ((f.name.value, ⟨f.returns = .void, f.params.length⟩) :: functions) us).result with
    | error e => simp [hr, Except.map] at h
    | ok rest =>
      rw [hr] at h
      cases h
      exact ⟨g, rest, hg, rfl, rfl⟩
  next => cases h

end Lower

end SysY
