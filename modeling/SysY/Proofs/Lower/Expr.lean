import SysY.Proofs.Lower.Relate
import SysY.Proofs.Lower.Shape

/-!
# Expressions keep their meaning

The code of an expression, run where the symbols in scope mean what the
variables do, comes to a word that represents the value of the expression,
and leaves memory as the expression does. It writes only to the temporaries
that were handed out for it, so what was computed before it is still there
after it (`Simulates`): that is what lets the parts be put together.

The offset of an element is computed in 32 bits with wrap-around, also where
the intermediate products are larger; as what it comes to is inside of the
array, which is small, it is the right number (`position_ofNat`).
-/

namespace SysY.Lower

open List

open IR (Value Op Instr Label Temp Temps)
open Option

/-! ## Runs of straight code -/

variable (m : IR.Module) (args : List IR.Val) (prev : Option Label) (is : List Instr) (bound : Nat)
  (temps : Temps) (imem : IR.Memory)

/-- **A run of straight code**: there is one, memory after it is as `M` says, it
leaves the temporaries below `bound` alone, and those it leaves satisfy
`post`. -/
def Yields (M : IR.Memory → Prop) (post : Temps → Prop) : Prop :=
  ∃ temps' imem', Steps m args prev is temps imem temps' imem' ∧ M imem' ∧
    (∀ t < bound, temps' t = temps t) ∧ post temps'

/-- **A run of straight code that follows the program**: memory after it refines
the program's. -/
abbrev Simulates (mem' : Source.Memory) (post : Temps → Prop) : Prop :=
  Yields m args prev is bound temps imem (Refines mem') post

variable {m args prev is bound temps imem} {call : Source.Caller} {ctx : Context} {env : Source.Scope}
  {σ σ' : Supply} {mem mem' mem1 : Source.Memory} {bound1 : Nat} {imem' : IR.Memory}

namespace Yields

variable {is is1 is2 : List Instr} {M M1 : IR.Memory → Prop} {post post1 : Temps → Prop}

protected theorem nil (hmem : M imem) (hpost : post temps) :
    Yields m args prev [] bound temps imem M post :=
  ⟨temps, imem, .nil, hmem, fun _ _ => rfl, hpost⟩

/-- Runs one after the other. -/
protected theorem append (h : Yields m args prev is1 bound temps imem M1 post1)
    (hle : bound ≤ bound1)
    (h' : ∀ temps1 imem1, M1 imem1 → (∀ t < bound, temps1 t = temps t) → post1 temps1 →
      Yields m args prev is2 bound1 temps1 imem1 M post) :
    Yields m args prev (is1 ++ is2) bound temps imem M post := by
  obtain ⟨temps1, imem1, hsteps1, hmem1, hframe1, hpost1⟩ := h
  obtain ⟨temps2, imem2, hsteps2, hmem2, hframe2, hpost⟩ := h' temps1 imem1 hmem1 hframe1 hpost1
  refine ⟨temps2, imem2, hsteps1.append hsteps2, hmem2, fun t ht => ?_, hpost⟩
  rw [hframe2 t (Nat.lt_of_lt_of_le ht hle), hframe1 t ht]

/-- One instruction without a result. -/
theorem perform {op : Op} {w : IR.Val} (heval : op.eval m args prev temps imem = some (w, imem'))
    (hmem : M imem') :
    Yields m args prev [⟨none, op⟩] bound temps imem M fun temps' => temps' = temps :=
  ⟨temps, imem', .step heval .nil, hmem, fun _ _ => rfl, rfl⟩

/-- What is left alone may be used afterwards. -/
theorem framed (h : Yields m args prev is bound temps imem M post) :
    Yields m args prev is bound temps imem M fun temps' =>
      (∀ t < bound, temps' t = temps t) ∧ post temps' := by
  obtain ⟨temps', imem', hsteps, hmem, hframe, hpost⟩ := h
  exact ⟨temps', imem', hsteps, hmem, hframe, hframe, hpost⟩

protected theorem imp {post' : Temps → Prop} (h : Yields m args prev is bound temps imem M post)
    (himp : ∀ temps', post temps' → post' temps') :
    Yields m args prev is bound temps imem M post' := by
  obtain ⟨temps', imem', hsteps, hmem, hframe, hpost⟩ := h
  exact ⟨temps', imem', hsteps, hmem, hframe, himp temps' hpost⟩

end Yields

/-- The result of an instruction stands for what was assigned. -/
theorem Stands.assigned (t : Nat) (w : IR.Val) :
    Stands m args (temps.assign (some t) w) (t + 1) (.temp t) w :=
  ⟨congrArg some (if_pos rfl), fun _ h => by cases h; exact Nat.lt_succ_self t⟩

/-- One instruction, whose result stands for what was computed. -/
theorem Yields.result {M : IR.Memory → Prop} {op : Op} {t : Nat} {w : IR.Val}
    (heval : op.eval m args prev temps imem = some (w, imem')) (hmem : M imem')
    (hle : bound ≤ t := by exact Nat.le_refl _) :
    Yields m args prev [⟨some t, op⟩] bound temps imem M fun temps' =>
      Stands m args temps' (t + 1) (.temp t) w := by
  refine ⟨temps.assign (some t) w, imem', .step heval .nil, hmem, fun u hu => ?_, .assigned t w⟩
  exact if_neg (Nat.ne_of_lt (Nat.lt_of_lt_of_le hu hle))

section Operations

variable {x y : Value}

theorem eval_binary {op : IR.BinOp} {a b n : Int32} (hx : x.eval m args temps = some (.int a))
    (hy : y.eval m args temps = some (.int b)) (h : op.apply a b = some n) :
    (Op.binary op x y).eval m args prev temps imem = some (.int n, imem) := by
  simp [Op.eval, Value.int?, hx, hy, h]

theorem eval_compare {op : IR.CmpOp} {a b : Int32} (hx : x.eval m args temps = some (.int a))
    (hy : y.eval m args temps = some (.int b)) :
    (Op.compare op x y).eval m args prev temps imem
      = some (.int (IR.truthValue (op.holds a b)), imem) := by
  simp [Op.eval, Value.int?, hx, hy]

variable {w : IR.Val} {p : IR.Pointer}

theorem eval_zext (hx : x.eval m args temps = some w) :
    (Op.zext x).eval m args prev temps imem = some (w, imem) := by
  simp [Op.eval, hx]

theorem eval_load (hx : x.eval m args temps = some (.addr p)) (h : imem.load p = some w) :
    (Op.load x).eval m args prev temps imem = some (w, imem) := by
  simp [Op.eval, Value.addr?, hx, h]

theorem eval_store (hx : x.eval m args temps = some w) (hy : y.eval m args temps = some (.addr p))
    (h : imem.store p w = some imem') :
    (Op.store x y).eval m args prev temps imem = some (.int 0, imem') := by
  simp [Op.eval, Value.addr?, hx, hy, h]

theorem eval_element {n : Int32} (hx : x.eval m args temps = some (.addr p))
    (hy : y.eval m args temps = some (.int n)) :
    (Op.element x y).eval m args prev temps imem = some (.addr (p.shift n), imem) := by
  simp [Op.eval, Value.addr?, Value.int?, hx, hy]

end Operations

/-! ## Numbers -/

/-- Being zero, as an integer, is what `!` gives. -/
theorem truthValue_eq_zero (n : Int32) :
    IR.truthValue (IR.CmpOp.eq.holds n 0) = unaryValue .not n := by
  by_cases hn : n = 0 <;> simp [IR.truthValue, IR.CmpOp.holds, unaryValue, hn]

theorem binOp_apply (op : BinOp) (a b : Int32) : (binOp op).apply a b = binaryValue op a b := by
  cases op <;> rfl

variable {size : Nat} {vs : List Value} {r : Source.Region} {place : Source.Place} {scalar : Bool}
  {name : Ident} {xs : List Source.Val} {ws : List IR.Val} {rest dims : List Nat} {i : Int32}
  {base : Base}

/-- A subscript in range, added in 32 bits. -/
theorem offsetStep_ofNat {offset next : Nat} (h : offsetStep offset size i = some next) :
    Int32.ofNat offset * Int32.ofNat size + i = Int32.ofNat next := by
  unfold offsetStep at h
  split at h
  next hrange =>
    cases h
    have hi : Int32.ofNat i.toInt.toNat = i := by
      rw [← Int32.ofInt_eq_ofNat, Int.toNat_of_nonneg hrange.1, Int32.ofInt_toInt]
    rw [Int32.ofNat_add, Int32.ofNat_mul, hi]
  next => cases h

theorem offsetStep_zero {next : Nat} (h : offsetStep 0 size i = some next) :
    i = Int32.ofNat next := by
  simpa using offsetStep_ofNat h

/-- An offset inside of an array, in 32 bits. -/
theorem toInt_ofNat_of_le {n : Nat} (h : n ≤ maxWords) : (Int32.ofNat n).toInt = n :=
  Int32.toInt_ofNat_of_lt (Nat.lt_of_le_of_lt h (by decide))

theorem expectInt_eq_some {x : Option (Source.Val × Source.Memory)} {n : Int32} :
    x.bind Source.expectInt = some (n, mem') ↔ x = some (.int n, mem') := by
  rw [bind_eq_some_iff]
  constructor
  · rintro ⟨⟨v, mem1⟩, rfl, h⟩
    cases v with
    | int k => cases h; rfl
    | array r => cases h
    | void => cases h
  · rintro rfl
    exact ⟨_, rfl, rfl⟩

/-! ## Subscripts -/

section Subscripts

variable (m args prev) (ctx : Context) (n : Nat) (temps : Temps)

/-- The code of an expression comes to an integer and takes memory from `M` to
`M'`, wherever the temporaries below `n` hold what they do in `temps`. -/
def ComesTo (M M' : IR.Memory → Prop) (e : Expr) (i : Int32) : Prop :=
  ∀ ⦃σ σ' : Supply⦄ ⦃is : List Instr⦄ ⦃v : Value⦄, lowerExpr ctx e σ = .ok ((is, v), σ') →
    n ≤ σ.temps → ∀ ⦃temps' : Temps⦄ ⦃imem : IR.Memory⦄, (∀ t < n, temps' t = temps t) → M imem →
      Yields m args prev is σ.temps temps' imem M' fun temps'' =>
        Stands m args temps'' σ'.temps v (.int i)

/-- The same of expressions one after the other. -/
inductive ComeTo : (IR.Memory → Prop) → List Expr → List Int32 → (IR.Memory → Prop) → Prop
  | nil {M : IR.Memory → Prop} : ComeTo M [] [] M
  | cons {M M1 M' : IR.Memory → Prop} {e es i is} : ComesTo m args prev ctx n temps M M1 e i →
    ComeTo M1 es is M' →
    ComeTo M (e :: es) (i :: is) M'

variable {m args prev ctx n temps} {M M' : IR.Memory → Prop} {temps' : Temps} {es : List Expr}
  {indices : List Int32} {k : Nat} {v : Value} {is : List Instr} {p : IR.Pointer}

theorem ComeTo.length_eq
    (h : ComeTo m args prev ctx n temps M es indices M') : indices.length = es.length := by
  induction h with
  | nil => rfl
  | cons _ _ ih => exact congrArg (· + 1) ih

/-- The offset of the subscripts after the first ones, of which it goes on. -/
theorem lowerOffset_yields (hes : ComeTo m args prev ctx n temps M es indices M') {sizes : List Nat}
    {first : Value} (h : lowerOffset ctx first es sizes σ = .ok ((is, v), σ')) (hn : n ≤ σ.temps)
    (hframe : ∀ t < n, temps' t = temps t) (hmem : M imem) {offset : Nat}
    (hfirst : Stands m args temps' σ.temps first (.int (Int32.ofNat offset)))
    (hk : Source.position offset indices sizes = some k) :
    Yields m args prev is σ.temps temps' imem M' fun temps'' =>
      Stands m args temps'' σ'.temps v (.int (Int32.ofNat k)) := by
  induction hes generalizing sizes σ temps' imem is first offset with
  | nil =>
    obtain ⟨rfl, rfl, rfl⟩ := lowerOffset_end (.inl rfl) h
    cases hk
    exact .nil hmem hfirst
  | @cons M M1 M' e es i indices he _ ih =>
    cases sizes with
    | nil => cases hk
    | cons size sizes =>
      obtain ⟨next, hnext, hk⟩ := bind_eq_some_iff.1 hk
      obtain ⟨c2, index, σ2, c4, h2, h4, rfl⟩ := lowerOffset_cons h
      have hle1 : σ.temps ≤ σ.bump.temps := Nat.le_succ _
      have hle2 := (lowerExpr_extends e h2).temps
      have hle3 : σ2.temps ≤ σ2.bump.temps := Nat.le_succ _
      have hn1 := Nat.le_trans hn hle1
      have hn2 := Nat.le_trans hn1 hle2
      rw [append_assoc, append_assoc]
      -- the offset so far, scaled by the dimension
      refine (Yields.result (eval_binary hfirst.1 rfl rfl) hmem).append hle1
        fun temps1 imem1 hmem1 hframe1 hscaled => ?_
      -- the subscript
      have hframe1' := fun t ht => (hframe1 t (Nat.lt_of_lt_of_le ht hn)).trans (hframe t ht)
      refine (he h2 hn1 hframe1' hmem1).append hle2 fun temps2 imem2 hmem2 hframe2 hindex => ?_
      have hframe2' := fun t ht => (hframe2 t (Nat.lt_of_lt_of_le ht hn1)).trans (hframe1' t ht)
      -- their sum, from which the rest goes on
      refine (Yields.result (eval_binary (hscaled.mono hframe2 hle2).1 hindex.1 rfl) hmem2).append hle3 fun temps3 imem3 hmem3 hframe3 hsum => ?_
      rw [offsetStep_ofNat hnext] at hsum
      exact ih h4 (Nat.le_trans hn2 hle3) (fun t ht =>
        (hframe3 t (Nat.lt_of_lt_of_le ht hn2)).trans (hframe2' t ht)) hmem3 hsum hk

/-- What remains of the subscripts when all of them are evaluated. -/
theorem scaleByRow_yields {offset : Value} (h : scaleByRow offset rest σ = .ok ((is, v), σ'))
    (hmem : M imem) (hoffset : Stands m args temps σ.temps offset (.int (Int32.ofNat k))) :
    Yields m args prev is σ.temps temps imem M fun temps' =>
      Stands m args temps' σ'.temps v (.int (Int32.ofNat (k * volume rest))) := by
  obtain ⟨rfl, rfl, rfl, rfl⟩ | ⟨-, -, rfl, rfl, rfl⟩ := scaleByRow_ok h
  · refine .nil hmem ?_
    rw [show k * volume [] = k from Nat.mul_one k]
    exact hoffset
  · rw [Int32.ofNat_mul]
    exact .result (eval_binary hoffset.1 rfl rfl) hmem

/-- The words of a variable are at an address. -/
def Base.At (m : IR.Module) (args : List IR.Val) (temps : Temps) (mem : IR.Memory)
    (p : IR.Pointer) : Base → Prop
  | .address v => v.eval m args temps = some (.addr p)
  | .pointer slot => ∃ q, slot.eval m args temps = some (.addr q) ∧ mem.load q = some (.addr p)

/-- An array is at the address that its symbol gives. -/
theorem baseAddress_yields (h : baseAddress base σ = .ok ((is, v), σ')) (hmem : M imem)
    (hp : base.At m args temps imem p) (hbelow : ∀ t, base = .address (.temp t) → t < σ.temps) :
    Yields m args prev is σ.temps temps imem M fun temps' =>
      Stands m args temps' σ'.temps v (.addr p) := by
  obtain ⟨rfl, rfl, rfl⟩ | ⟨slot, rfl, rfl, rfl, rfl⟩ := baseAddress_ok h
  · exact .nil hmem ⟨hp, fun t ht => hbelow t (ht ▸ rfl)⟩
  · obtain ⟨q, hq, hload⟩ := hp
    exact .result (eval_load hq hload) hmem

/-- **The code of an address.** The subscripts of an array come to a position,
which counts elements or rows, and the array's address is moved by as many. -/
theorem lowerAddress_yields (h : lowerAddress ctx name es σ = .ok ((is, v, scalar), σ'))
    {ks : Option (List Int32)} (hs : ctx.symbols.lookup name.value = some (.array base dims ks))
    (hp : base.At m args temps imem p) (hbelow : ∀ t, base = .address (.temp t) → t < σ.temps)
    (hmem : M imem) (hes : ComeTo m args prev ctx σ.temps temps M es indices M') {extent : Nat}
    (hk : Source.position 0 indices (extent :: dims.tail) = some k) :
    scalar = (!es.isEmpty && (dims.drop es.length).isEmpty) ∧
    Yields m args prev is σ.temps temps imem M' fun temps' =>
      Stands m args temps' σ'.temps v
        (.addr (p.shift (Int32.ofNat (k * volume (dims.drop es.length))))) := by
  obtain ⟨_, hs', -⟩ | ⟨_, _, _, c1, b, σ1, hs', hb, h⟩ := lowerAddress_ok h
  · cases hs.symm.trans (resolve_ok hs')
  cases hs.symm.trans (resolve_ok hs')
  have hle1 := (baseAddress_extends _ hb).temps
  obtain ⟨rfl, rfl, rfl, rfl, rfl⟩ |
    ⟨e, es, c2, first, σ2, c3, offset, σ3, c4, scaled, σ4, rfl, h2, h3, h4, rfl, rfl, rfl, rfl⟩ := h
  · cases hes
    cases hk
    refine ⟨rfl, ?_⟩
    rw [Nat.zero_mul, show p.shift (Int32.ofNat 0) = p by simp [IR.Pointer.shift]]
    exact baseAddress_yields hb hmem hp hbelow
  · refine ⟨rfl, ?_⟩
    cases hes with
    | @cons _ M1 _ _ _ i indices he hes =>
      obtain ⟨next, hnext, hk⟩ := bind_eq_some_iff.1 hk
      have hle2 := (lowerExpr_extends e h2).temps
      have hle3 := (lowerOffset_extends (fun e _ => lowerExpr_extends e) _ _ h3).temps
      have hle4 := (scaleByRow_extends _ _ h4).temps
      simp only [append_assoc]
      -- the array
      refine (baseAddress_yields hb hmem hp hbelow).append hle1
        fun temps1 imem1 hmem1 hframe1 hbase => ?_
      -- the first subscript, which is the offset so far
      refine (he h2 hle1 hframe1 hmem1).append hle2 fun temps2 imem2 hmem2 hframe2 hfirst => ?_
      rw [offsetStep_zero hnext] at hfirst
      have hframe2' := fun t ht => (hframe2 t (Nat.lt_of_lt_of_le ht hle1)).trans (hframe1 t ht)
      -- the other subscripts, and the size of what is left
      refine (lowerOffset_yields hes h3 (Nat.le_trans hle1 hle2) hframe2' hmem2 hfirst hk).append hle3
        fun temps3 imem3 hmem3 hframe3 hoffset => ?_
      refine (scaleByRow_yields h4 hmem3 hoffset).append hle4
        fun temps4 imem4 hmem4 hframe4 hscaled => ?_
      have hbase4 := ((hbase.mono hframe2 hle2).mono hframe3 hle3).mono hframe4 hle4
      exact .result (eval_element hbase4.1 hscaled.1) hmem4

theorem unaryCode_yields {op : UnaryOp} {x : Value} {k : Int32}
    (h : unaryCode op x σ = .ok ((is, v), σ')) (hmem : M imem)
    (hx : Stands m args temps σ.temps x (.int k)) :
    Yields m args prev is σ.temps temps imem M fun temps' =>
      Stands m args temps' σ'.temps v (.int (unaryValue op k)) := by
  obtain ⟨rfl, rfl, rfl, rfl⟩ | ⟨rfl, rfl, rfl, rfl⟩ | ⟨rfl, rfl, rfl, rfl⟩ := unaryCode_ok h
  · exact .nil hmem hx
  · refine .result (eval_binary rfl hx.1 ?_) hmem
    exact congrArg some (Int32.zero_sub k)
  · rw [← singleton_append]
    refine (Yields.result (eval_compare hx.1 rfl) hmem).append (Nat.le_succ _)
      fun temps1 imem1 hmem1 _ htest => ?_
    rw [truthValue_eq_zero] at htest
    exact .result (eval_zext htest.1) hmem1

end Subscripts

/-! ## Arguments and places -/

/-- The code of an expression follows it. -/
def ExprSound (m : IR.Module) (args : List IR.Val) (prev : Option Label) (call : Source.Caller)
    (ctx : Context) (env : Source.Scope) (e : Expr) : Prop :=
  ∀ ⦃σ σ' : Supply⦄ ⦃is : List Instr⦄ ⦃v : Value⦄, lowerExpr ctx e σ = .ok ((is, v), σ') →
    ∀ ⦃temps : Temps⦄ ⦃imem : IR.Memory⦄ ⦃mem : Source.Memory⦄ ⦃x : Source.Val⦄
      ⦃mem' : Source.Memory⦄, Agree m args temps σ.temps ctx.symbols env → Refines mem imem →
      Source.evalExpr call env e mem = some (x, mem') →
      Simulates m args prev is σ.temps temps imem mem' fun temps' =>
        ∃ w, Represents x w ∧ Stands m args temps' σ'.temps v w

theorem lowerArgs_sound {es : List Expr} (hes : ∀ e ∈ es, ExprSound m args prev call ctx env e)
    {is : List Instr} (h : lowerArgs ctx es σ = .ok ((is, vs), σ'))
    (hagree : Agree m args temps σ.temps ctx.symbols env) (href : Refines mem imem)
    (heval : Source.evalArgs call env es mem = some (xs, mem')) :
    Simulates m args prev is σ.temps temps imem mem' fun temps' =>
      ∃ ws, List.Forall₂ Represents xs ws ∧
        List.Forall₂ (Stands m args temps' σ'.temps) vs ws := by
  induction es generalizing σ temps imem mem is vs xs with
  | nil =>
    obtain ⟨rfl, rfl, rfl⟩ := lowerArgs_nil h
    rw [Source.evalArgs] at heval
    cases heval
    exact .nil href ⟨[], .nil, .nil⟩
  | cons e es ih =>
    obtain ⟨c1, v, σ1, c2, vs, h1, h2, rfl, rfl⟩ := lowerArgs_cons h
    rw [Source.evalArgs] at heval
    obtain ⟨⟨x, mem1⟩, hx, heval⟩ := bind_eq_some_iff.1 heval
    obtain ⟨⟨xs, _⟩, hxs, heval⟩ := bind_eq_some_iff.1 heval
    cases heval
    have hle1 := (lowerExpr_extends e h1).temps
    refine (hes e mem_cons_self h1 hagree href hx).append hle1 ?_
    rintro temps1 imem1 href1 hframe1 ⟨w, hw, hv⟩
    have hle2 := (lowerArgs_extends (fun e _ => lowerExpr_extends e) h2).temps
    obtain ⟨temps2, imem2, hsteps, href2, hframe2, ws, hws, hvs⟩ :=
      ih (fun e he => hes e (mem_cons_of_mem _ he)) h2 (hagree.mono hframe1 hle1) href1 hxs
    exact ⟨temps2, imem2, hsteps, href2, hframe2, w :: ws, .cons hw hws,
      .cons (hv.mono hframe2 hle2) hvs⟩

/-- Subscripts come to what they are in the program. -/
theorem comeTo_of_evalIndices {es : List Expr}
    (hes : ∀ e ∈ es, ExprSound m args prev call ctx env e)
    (hagree : Agree m args temps bound ctx.symbols env) {indices : List Int32}
    (heval : Source.evalIndices call env es mem = some (indices, mem')) :
    ComeTo m args prev ctx bound temps (Refines mem) es indices (Refines mem') := by
  induction es generalizing mem indices with
  | nil =>
    rw [Source.evalIndices] at heval
    cases heval
    exact .nil
  | cons e es ih =>
    rw [Source.evalIndices] at heval
    obtain ⟨⟨i, mem1⟩, hi, heval⟩ := bind_eq_some_iff.1 heval
    obtain ⟨⟨rest, _⟩, hrest, heval⟩ := bind_eq_some_iff.1 heval
    cases heval
    refine .cons ?_ (ih (fun e he => hes e (mem_cons_of_mem _ he)) hrest)
    intro σ σ' is v h hle temps' imem hframe href
    refine (hes e mem_cons_self h (hagree.mono hframe hle) href (expectInt_eq_some.1 hi)).imp ?_
    rintro temps'' ⟨_, rfl, hv⟩
    exact hv

/-- A word of the machine is the address of a place, which is a word or not. -/
def Locates : Source.Place → Bool → IR.Val → Prop
  | .word a, scalar, w => scalar = true ∧ ∃ p : IR.Pointer, w = .addr p ∧ p.word? = some a
  | .row r, scalar, w => scalar = false ∧ Represents (.array r) w

theorem word?_first (a : Nat) : (IR.Pointer.first a 1).word? = some a := by
  simp [IR.Pointer.word?, IR.Pointer.first]

/-- The array that a symbol is at. -/
theorem Means.at {base : Base} {base' : Source.Base} {dims dims' : List Nat}
    {k k' : Option (List Int32)}
    (h : Means m args temps bound (.array base dims k) (.array base' dims' k'))
    (href : Refines mem imem) (hr : base'.region mem = some r) :
    (∃ p, base.At m args temps imem p ∧ Represents (.array r) (.addr p)) ∧
      ∀ t, base = .address (.temp t) → t < bound := by
  cases base with
  | address v =>
    cases base' with
    | reference a => cases h
    | words r' =>
      cases hr
      refine ⟨⟨_, h.2.2.1, r.start, r.length, 0, rfl, rfl, Nat.le_of_eq (Nat.zero_add _)⟩, ?_⟩
      rintro t ⟨⟩
      exact h.2.2.2 t rfl
  | pointer slot =>
    cases base' with
    | words r' => cases h
    | reference a =>
      have hread : mem.read a = some (.array r) := by
        simp only [Source.Base.region] at hr
        split at hr
        next hread =>
          cases hr
          exact hread
        next => cases hr
      obtain ⟨w, hload, hw⟩ := href.load hread (word?_first a)
      obtain ⟨base, size, k, rfl, hstart⟩ := hw
      exact ⟨⟨_, ⟨_, h.2.2.1, hload⟩, base, size, k, rfl, hstart⟩, by rintro t ⟨⟩⟩

/-- What subscripts select is inside of the array. -/
theorem select_eq_some {indices : List Int32} (h : r.select dims indices = some place) :
    ∃ k, Source.position 0 indices (r.extent dims :: dims.tail) = some k ∧
      k * volume (dims.drop indices.length) + volume (dims.drop indices.length) ≤ r.length ∧
      (dims.drop indices.length = [] ∧ place = .word (r.start + k) ∨
        dims.drop indices.length ≠ [] ∧ ∃ fits, place = .row
          ⟨r.start + k * volume (dims.drop indices.length), volume (dims.drop indices.length),
            fits⟩) := by
  obtain ⟨k, hk, h⟩ := bind_eq_some_iff.1 h
  refine ⟨k, hk, ?_⟩
  dsimp only at h
  split at h
  next hinside =>
    refine ⟨hinside, ?_⟩
    split at h
    next hempty =>
      cases h
      exact .inl ⟨isEmpty_iff.1 hempty, rfl⟩
    next hempty =>
      cases h
      exact .inr ⟨fun hnil => hempty (isEmpty_iff.2 hnil), _, rfl⟩
  next => cases h

/-- **The address of what subscripts select**: an offset inside of the array
moves its address by as much. -/
theorem locates_shift {base k0 k : Nat} (hinside : k * volume rest + volume rest ≤ r.length)
    (hplace : rest = [] ∧ place = .word (r.start + k) ∨ rest ≠ [] ∧ ∃ fits, place = .row
      ⟨r.start + k * volume rest, volume rest, fits⟩)
    (hstart : base + k0 = r.start) (hsize : k0 + r.length ≤ size) :
    Locates place rest.isEmpty
      (.addr (IR.Pointer.shift ⟨base, size, k0⟩ (Int32.ofNat (k * volume rest)))) := by
  have hfits := r.fits
  have hoffset : (Int32.ofNat (k * volume rest)).toInt = (k * volume rest : Nat) :=
    toInt_ofNat_of_le (by omega)
  unfold IR.Pointer.shift
  rw [hoffset]
  obtain ⟨rfl, rfl⟩ | ⟨hrest, _, rfl⟩ := hplace
  · refine ⟨rfl, _, rfl, ?_⟩
    rw [show volume [] = 1 from rfl] at hinside ⊢
    unfold IR.Pointer.word?
    rw [if_pos (by dsimp only; omega)]
    exact congrArg some (by dsimp only; omega)
  · refine ⟨by simpa using hrest, base, size, k0 + k * volume rest, rfl, ?_, ?_⟩
    · show base + (k0 + k * volume rest) = r.start + k * volume rest
      omega
    · show k0 + k * volume rest + volume rest ≤ size
      omega

/-- **The code of a place follows it.** -/
theorem lowerAddress_sound {indices : List Expr}
    (hindices : ∀ e ∈ indices, ExprSound m args prev call ctx env e) {is : List Instr} {v : Value}
    (h : lowerAddress ctx name indices σ = .ok ((is, v, scalar), σ'))
    (hagree : Agree m args temps σ.temps ctx.symbols env) (href : Refines mem imem)
    (heval : Source.evalPlace call env name indices mem = some (place, mem')) :
    Simulates m args prev is σ.temps temps imem mem' fun temps' =>
      ∃ w, Locates place scalar w ∧ Stands m args temps' σ'.temps v w := by
  rw [Source.evalPlace] at heval
  obtain ⟨k, hs, rfl, rfl, rfl⟩ | ⟨base, dims, k, -, -, -, hs, -⟩ := lowerAddress_ok h
  · split at heval
    next a k' hx =>
      split at heval
      next =>
        cases heval
        exact .nil href ⟨_, ⟨rfl, _, rfl, word?_first a⟩, (hagree.means (resolve_ok hs) hx).2⟩
      next => cases heval
    next hx => exact absurd (hagree.means (resolve_ok hs) hx) (by simp [Means])
    next => cases heval
  · split at heval
    next hx => exact absurd (hagree.means (resolve_ok hs) hx) (by simp [Means])
    next base' dims' k' hx =>
      have hmeans := hagree.means (resolve_ok hs) hx
      cases hmeans.array.1
      obtain ⟨r, hr, heval⟩ := bind_eq_some_iff.1 heval
      obtain ⟨⟨_, hp, base, size, k0, ⟨⟩, hstart, hsize⟩, hbelow⟩ := hmeans.at href hr
      cases indices with
      | nil =>
        cases heval
        have hnone : Source.position 0 [] (r.extent dims :: dims.tail) = some 0 := rfl
        obtain ⟨rfl, hyields⟩ := lowerAddress_yields h (resolve_ok hs) hp hbelow href .nil hnone
        refine hyields.imp fun _ hv => ⟨_, ⟨rfl, base, size, k0, ?_, hstart, hsize⟩, hv⟩
        simp [IR.Pointer.shift]
      | cons e es =>
        obtain ⟨⟨i, mem1⟩, hi, heval⟩ := bind_eq_some_iff.1 heval
        obtain ⟨⟨rest, mem2⟩, hrest, heval⟩ := bind_eq_some_iff.1 heval
        obtain ⟨place, hselect, heval⟩ := bind_eq_some_iff.1 heval
        cases heval
        have hall : Source.evalIndices call env (e :: es) mem = some (i :: rest, mem') := by
          simp [Source.evalIndices, hi, hrest]
        have hes := comeTo_of_evalIndices hindices hagree hall
        obtain ⟨n, hn, hinside, hplace⟩ := select_eq_some hselect
        rw [hes.length_eq] at hinside hplace
        obtain ⟨rfl, hyields⟩ := lowerAddress_yields h (resolve_ok hs) hp hbelow href hes hn
        exact hyields.imp fun _ hv => ⟨_, locates_shift hinside hplace hstart hsize, hv⟩
    next => cases heval

/-! ## Expressions -/

theorem evalArgs_eq_some (h : List.Forall₂ (Stands m args temps bound) vs ws) :
    IR.evalArgs m args temps vs = some ws := by
  induction h with
  | nil => rfl
  | cons hv _ ih => simp [IR.evalArgs, hv.1, ih]

/-- A call, whose result is there if the function has one. -/
theorem call_sound (hcalls : CallsMatch m call) {name : String} {x : Source.Val}
    (href : Refines mem imem) (hrep : List.Forall₂ Represents xs ws)
    (hvs : List.Forall₂ (Stands m args temps bound) vs ws)
    (heval : call name xs mem = some (x, mem')) :
    Simulates m args prev [⟨none, .call name vs⟩] bound temps imem mem' (fun _ => True) ∧
    (x ≠ .void → Simulates m args prev [⟨some bound, .call name vs⟩] bound temps imem mem'
      fun temps' => ∃ w, Represents x w ∧ Stands m args temps' (bound + 1) (.temp bound) w) := by
  obtain ⟨r, imem', hcall, hreturns, href'⟩ := hcalls heval hrep href
  have hargs := evalArgs_eq_some hvs
  refine ⟨⟨temps, imem', .call hargs hcall rfl .nil, href', fun _ _ => rfl, trivial⟩, fun hx => ?_⟩
  cases x with
  | void => exact absurd rfl hx
  | array _ => cases hreturns
  | int n =>
    cases hreturns
    refine ⟨_, imem', .call hargs hcall rfl .nil, href', fun t ht => ?_, _, rfl, .assigned _ _⟩
    exact if_neg (Nat.ne_of_lt ht)

/-- **The code of an expression follows it.** -/
theorem lowerExpr_sound (hcalls : CallsMatch m call) (hsigs : SignaturesMatch ctx.functions call)
    (e : Expr) : ExprSound m args prev call ctx env e := by
  induction e using Expr.induction with
  | number span text =>
    intro σ σ' is v h temps imem mem x mem' _ href heval
    obtain ⟨n, hn, rfl, rfl, rfl⟩ := lowerExpr_number h
    have hdecode : (Literal.decode text).toOption = some n := by
      unfold literal at hn
      split at hn <;> cases hn
      next hok => rw [hok]; rfl
    rw [Source.evalExpr, hdecode] at heval
    cases heval
    exact .nil href ⟨.int n, rfl, rfl, fun _ h => by cases h⟩
  | paren span e ih =>
    intro σ σ' is v h temps imem mem x mem' hagree href heval
    rw [lowerExpr_paren] at h
    rw [Source.evalExpr] at heval
    exact ih h hagree href heval
  | lval span name indices ih =>
    intro σ σ' is v h temps imem mem x mem' hagree href heval
    rw [Source.evalExpr] at heval
    obtain ⟨⟨place, mem1⟩, hplace, heval⟩ := bind_eq_some_iff.1 heval
    obtain ⟨x, hx, heval⟩ := bind_eq_some_iff.1 heval
    cases heval
    obtain ⟨c, a, scalar, σ1, h1, h⟩ := lowerExpr_lval h
    have haddress := lowerAddress_sound ih h1 hagree href hplace
    obtain ⟨rfl, rfl, rfl, rfl⟩ | ⟨rfl, rfl, rfl, rfl⟩ := h
    · refine haddress.append (lowerAddress_extends h1).temps ?_
      rintro temps1 imem1 href1 - ⟨w, hw, ha⟩
      cases place with
      | row r => cases hw.1
      | word b =>
        obtain ⟨-, p, rfl, hp⟩ := hw
        obtain ⟨w, hload, hw⟩ := href1.load hx hp
        exact (Yields.result (eval_load ha.1 hload) href1).imp
          fun _ hv => ⟨w, hw, hv⟩
    · refine haddress.imp fun _ ⟨w, hw, ha⟩ => ⟨w, ?_, ha⟩
      cases place with
      | word b => cases hw.1
      | row r =>
        cases hx
        exact hw.2
  | unary span op e ih =>
    intro σ σ' is v h temps imem mem x mem' hagree href heval
    rw [Source.evalExpr] at heval
    obtain ⟨⟨n, mem1⟩, hn, heval⟩ := bind_eq_some_iff.1 heval
    cases heval
    obtain ⟨c1, y, σ1, c2, h1, h2, rfl⟩ := lowerExpr_unary h
    refine (ih h1 hagree href (expectInt_eq_some.1 hn)).append (lowerExpr_extends e h1).temps ?_
    rintro temps1 imem1 href1 - ⟨_, rfl, hy⟩
    exact (unaryCode_yields h2 href1 hy).imp fun _ hv => ⟨_, rfl, hv⟩
  | binary span op a b iha ihb =>
    intro σ σ' is v h temps imem mem x mem' hagree href heval
    rw [Source.evalExpr] at heval
    obtain ⟨⟨n, mem1⟩, hn, heval⟩ := bind_eq_some_iff.1 heval
    obtain ⟨⟨k, mem2⟩, hk, heval⟩ := bind_eq_some_iff.1 heval
    obtain ⟨result, hresult, heval⟩ := bind_eq_some_iff.1 heval
    cases heval
    obtain ⟨c1, y, σ1, c2, z, σ2, h1, h2, rfl, rfl, rfl⟩ := lowerExpr_binary h
    have hle1 := (lowerExpr_extends a h1).temps
    have hle2 := (lowerExpr_extends b h2).temps
    rw [append_assoc]
    refine (iha h1 hagree href (expectInt_eq_some.1 hn)).append hle1 ?_
    rintro temps1 imem1 href1 hframe1 ⟨_, rfl, hy⟩
    refine (ihb h2 (hagree.mono hframe1 hle1) href1 (expectInt_eq_some.1 hk)).append hle2 ?_
    rintro temps2 imem2 href2 hframe2 ⟨_, rfl, hz⟩
    rw [← binOp_apply] at hresult
    exact (Yields.result (eval_binary (hy.mono hframe2 hle2).1 hz.1 hresult) href2).imp fun _ hv => ⟨_, rfl, hv⟩
  | call span callee es ih =>
    intro σ σ' is v h temps imem mem x mem' hagree href heval
    rw [Source.evalExpr] at heval
    obtain ⟨⟨xs, mem1⟩, hxs, heval⟩ := bind_eq_some_iff.1 heval
    obtain ⟨signature, c, vs, σ1, hsig, h1, h⟩ := lowerExpr_call h
    have hvoid := hsigs (function_ok hsig) heval
    have hargs := lowerArgs_sound ih h1 hagree href hxs
    have hle1 := (lowerArgs_extends (fun e _ => lowerExpr_extends e) h1).temps
    obtain ⟨hs, rfl, rfl, rfl⟩ | ⟨hs, rfl, rfl, rfl⟩ := h
    · refine hargs.append hle1 ?_
      rintro temps1 imem1 href1 - ⟨ws, hrep, hvs⟩
      have hx := hvoid.1 hs
      subst hx
      exact (call_sound hcalls href1 hrep hvs heval).1.imp
        fun _ _ => ⟨.int 0, rfl, rfl, fun _ h => by cases h⟩
    · refine hargs.append hle1 ?_
      rintro temps1 imem1 href1 - ⟨ws, hrep, hvs⟩
      have hx : x ≠ .void := fun hx => by simp [hvoid.2 hx] at hs
      exact (call_sound hcalls href1 hrep hvs heval).2 hx

end SysY.Lower
