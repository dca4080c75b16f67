import SysY.Proofs.Lower.Expr

/-!
# Conditions keep their meaning

Code with several blocks. Where a run of a function stands is said by what is
left of its code: a suffix of the code as it was written, of which the
instructions before the first label are the ones that are left of the block
(`Code.head`). A jump to a label leads to what was written after it, since no
label is started twice (`Placed`).

A run is described backwards, by what it lets one conclude (`Reaches`): if
there is a run from the second point, there is one from the first.
-/

namespace SysY.Lower

open List

open IR (Value Op Instr Label Temp Temps Point Run)

/-! ## Code and blocks -/

@[simp] theorem Code.head_straight (is : List Instr) (k : Code) :
    Code.head (straight is ++ k) = is ++ Code.head k := by
  induction is with
  | nil => rfl
  | cons i is ih => exact congrArg (i :: ·) ih

@[simp] theorem Code.head_perform (op : Op) (k : Code) :
    Code.head (perform op ++ k) = ⟨none, op⟩ :: Code.head k := rfl

/-- A label is followed by its block. -/
theorem Code.blockAt_append {l : Label} {pre : Code} (k : Code) (h : l ∉ Code.layout pre) :
    Code.blockAt l (pre ++ .label l :: k) = Code.head k := by
  induction pre with
  | nil => exact if_pos rfl
  | cons i pre ih =>
    cases i with
    | instr i => exact ih h
    | label l' =>
      rw [Code.layout_label, mem_cons, not_or] at h
      show (if l' = l then _ else _) = _
      rw [if_neg (Ne.symm h.1)]
      exact ih h.2

/-- The blocks of a function are those of its code. -/
structure Placed (f : IR.Function) (C : Code) : Prop where
  nodup : C.layout.Nodup
  /-- The block of a label is what was written after it. -/
  code : ∀ l ∈ C.layout, f.code? l = some (C.blockAt l)

namespace Placed

variable {f : IR.Function} {C k : Code} {l : Label}

theorem mem_layout (h : .label l :: k <:+ C) : l ∈ C.layout := by
  obtain ⟨pre, rfl⟩ := h
  rw [Code.layout_append, Code.layout_label]
  exact mem_append_right _ mem_cons_self

theorem blockAt (hC : Placed f C) (h : .label l :: k <:+ C) : C.blockAt l = Code.head k := by
  obtain ⟨pre, rfl⟩ := h
  refine Code.blockAt_append k fun hl => ?_
  have hnodup := hC.nodup
  rw [Code.layout_append, Code.layout_label, nodup_append'] at hnodup
  exact hnodup.2.2 hl mem_cons_self

theorem code_eq (hC : Placed f C) (h : .label l :: k <:+ C) : f.code? l = some (Code.head k) :=
  hC.blockAt h ▸ hC.code l (mem_layout h)

end Placed

theorem suffix_of_append {c k C : Code} (h : c ++ k <:+ C) : k <:+ C :=
  (suffix_append c k).trans h

/-! ## Runs -/

section

variable (m : IR.Module) (f : IR.Function) (args : List IR.Val)

/-- A run from the second point gives one from the first. -/
def Reaches (p : Point) (imem : IR.Memory) (p' : Point) (imem' : IR.Memory) : Prop :=
  ∀ r final, Run m f args p' imem' r final → Run m f args p imem r final

/-- **A run that follows the program** up to the instructions `rest` of the
block `cur`: memory there refines the program's, the temporaries below
`bound` are as before, and all of them satisfy `post`. -/
def Arrives (bound : Nat) (p : Point) (imem : IR.Memory) (cur : Label) (rest : List Instr)
    (mem' : Source.Memory) (post : Temps → Prop) : Prop :=
  ∃ prev temps imem', Reaches m f args p imem ⟨prev, cur, rest, temps⟩ imem' ∧
    Refines mem' imem' ∧ (∀ t < bound, temps t = p.temps t) ∧ post temps

variable {m f args}

namespace Arrives

variable {bound bound1 : Nat} {p : Point} {imem : IR.Memory} {cur cur1 : Label}
  {rest rest1 : List Instr} {mem mem' mem1 : Source.Memory} {post post1 : Temps → Prop}

/-- What follows from a point follows from the points before it. -/
theorem of_reaches {p1 : Point} {imem1 : IR.Memory} (hreach : Reaches m f args p imem p1 imem1)
    (hframe : ∀ t < bound, p1.temps t = p.temps t) (hle : bound ≤ bound1)
    (h : Arrives m f args bound1 p1 imem1 cur rest mem' post) :
    Arrives m f args bound p imem cur rest mem' post := by
  obtain ⟨prev, temps, imem', hreach', href, hframe', hpost⟩ := h
  refine ⟨prev, temps, imem', fun r final hrun => hreach r final (hreach' r final hrun), href,
    fun t ht => ?_, hpost⟩
  rw [hframe' t (Nat.lt_of_lt_of_le ht hle), hframe t ht]

/-- Runs one after the other. -/
protected theorem trans (h : Arrives m f args bound p imem cur1 rest1 mem1 post1)
    (hle : bound ≤ bound1)
    (h' : ∀ prev temps1 imem1, Refines mem1 imem1 → (∀ t < bound, temps1 t = p.temps t) →
      post1 temps1 → Arrives m f args bound1 ⟨prev, cur1, rest1, temps1⟩ imem1 cur rest mem' post) :
    Arrives m f args bound p imem cur rest mem' post := by
  obtain ⟨prev1, temps1, imem1, hreach1, href1, hframe1, hpost1⟩ := h
  exact of_reaches hreach1 hframe1 hle (h' prev1 temps1 imem1 href1 hframe1 hpost1)

variable {prev : Option Label} {temps : Temps}

protected theorem refl (href : Refines mem imem) (hpost : post temps) :
    Arrives m f args bound ⟨prev, cur, rest, temps⟩ imem cur rest mem post :=
  ⟨prev, temps, imem, fun _ _ hrun => hrun, href, fun _ _ => rfl, hpost⟩

/-- Straight code leads to what follows it in the block. -/
theorem of_simulates {is : List Instr} (h : Simulates m args prev is bound temps imem mem' post) :
    Arrives m f args bound ⟨prev, cur, is ++ rest, temps⟩ imem cur rest mem' post := by
  obtain ⟨temps', imem', hsteps, href, hframe, hpost⟩ := h
  exact ⟨prev, temps', imem', fun _ _ hrun => hsteps.run hrun, href, hframe, hpost⟩

/-- A jump or a branch leads to the block of its target. -/
theorem goto {i : Instr} {l : Label}
    (htarget : i.op.target? m args temps = some l) (hcode : f.code? l = some rest1)
    (h : Arrives m f args bound ⟨some cur1, l, rest1, temps⟩ imem cur rest mem' post)
    {rest0 : List Instr} :
    Arrives m f args bound ⟨prev, cur1, i :: rest0, temps⟩ imem cur rest mem' post :=
  of_reaches (fun _ _ hrun => .goto htarget hcode hrun) (fun _ _ => rfl) (Nat.le_refl _) h

end Arrives

end

/-! ## Conditions -/

section

variable {m : IR.Module} {f : IR.Function} {args : List IR.Val} {C : Code}
  {call : Source.Caller} {ctx : Context} {env : Source.Scope}

/-- **The code that `g` writes follows an evaluation**, wherever it stands in
the code `C` of the function. -/
def CondSound (m : IR.Module) (f : IR.Function) (args : List IR.Val) (C : Code) (symbols : Symbols)
    (env : Source.Scope) (g : Gen (Code × Value))
    (eval : Source.Memory → Option (Int32 × Source.Memory)) : Prop :=
  ∀ ⦃σ σ' : Supply⦄ ⦃c : Code⦄ ⦃v : Value⦄, g σ = .ok ((c, v), σ') → σ.names.size > σ.current →
    ∀ ⦃k : Code⦄, c ++ k <:+ C → ∀ ⦃temps : Temps⦄ ⦃imem : IR.Memory⦄ ⦃mem : Source.Memory⦄
      ⦃n : Int32⦄ ⦃mem' : Source.Memory⦄, Agree m args temps σ.temps symbols env →
      Refines mem imem → eval mem = some (n, mem') → ∀ prev : Option Label,
      Arrives m f args σ.temps ⟨prev, σ.current, Code.head (c ++ k), temps⟩ imem σ'.current
        (Code.head k) mem' fun temps' => Stands m args temps' σ'.temps v (.int n)

theorem truth_sound {g : Gen (Code × Value)}
    {eval : Source.Memory → Option (Int32 × Source.Memory)}
    (hemits : CondEmits g) (hg : CondSound m f args C ctx.symbols env g eval) :
    CondSound m f args C ctx.symbols env (truth g)
      fun mem => (eval mem).map fun r => (Source.truthValue (r.1 ≠ 0), r.2) := by
  intro σ σ' c v h hσ k hk temps imem mem n mem' hagree href heval prev
  obtain ⟨c1, x, σ1, h1, rfl, rfl, rfl⟩ := truth_ok h
  obtain ⟨⟨n, mem1⟩, hn, heval⟩ := Option.map_eq_some_iff.1 heval
  cases heval
  rw [append_assoc] at hk ⊢
  refine (hg h1 hσ hk hagree href hn prev).trans (hemits h1).temps ?_
  intro prev1 temps1 imem1 href1 _ hx
  rw [Code.head_straight]
  exact .of_simulates (.result (eval_compare hx.1 rfl) href1)

variable {temps : Temps} {w : IR.Val} {imem : IR.Memory}

theorem decision_target (op : LogicOp) {left : Value} (rhs phi : Label) {x : Int32}
    (h : left.eval m args temps = some (.int x)) :
    (decision op left rhs phi).target? m args temps
      = some (if Source.settles op x then phi else rhs) := by
  cases op <;> by_cases hx : x = 0 <;>
    simp [decision, Op.target?, Value.int?, h, Source.settles, hx]

/-- The phi of a connective, and its value as an integer. -/
theorem join_sound {op : Op} {from_ : Option Label} {cur : Label} {k : Code} {mem : Source.Memory}
    {bound t : Nat} (heval : op.eval m args from_ temps imem = some (w, imem))
    (href : Refines mem imem) (hle : bound ≤ t) :
    Arrives m f args bound ⟨from_, cur, Code.head
        (straight [⟨some t, op⟩, ⟨some (t + 1), .zext (.temp t)⟩] ++ k), temps⟩ imem cur
      (Code.head k) mem fun temps' => Stands m args temps' (t + 2) (.temp (t + 1)) w := by
  rw [Code.head_straight]
  refine .of_simulates ?_
  rw [← singleton_append]
  have hle' : bound ≤ t + 1 := Nat.le_succ_of_le hle
  refine (Yields.result heval href hle).append hle' fun temps1 imem1 href1 _ hphi => ?_
  exact .result (eval_zext hphi.1) href1

/-- **The right operand of a connective is run only if it matters**, and the
value of the connective is that of the operand that was evaluated last. -/
theorem connect_sound (hC : Placed f C) {op : LogicOp} {lhs rhs : Gen (Code × Value)}
    {evalL evalR : Source.Memory → Option (Int32 × Source.Memory)}
    (hemitsL : CondEmits lhs) (hemitsR : CondEmits rhs)
    (hlhs : CondSound m f args C ctx.symbols env lhs evalL)
    (hrhs : CondSound m f args C ctx.symbols env rhs evalR) :
    CondSound m f args C ctx.symbols env (connect op lhs rhs)
      fun mem => (evalL mem).bind fun r => if Source.settles op r.1 then some r else evalR r.2 := by
  intro σ σ' c v h hσ k hk temps imem mem n mem' hagree href heval prev
  obtain ⟨c1, left, σ1, c2, right, σ2, h1, h2, rfl, rfl, rfl⟩ := connect_ok h
  obtain ⟨⟨x, mem1⟩, hx, heval⟩ := Option.bind_eq_some_iff.1 heval
  simp only [append_assoc] at hk ⊢
  have hemits1 := hemitsL h1
  have hemits2 := hemitsR h2
  refine (hlhs h1 hσ hk hagree href hx prev).trans hemits1.temps ?_
  intro prev1 temps1 imem1 href1 hframe1 hleft
  have hrhsAt := suffix_of_append (suffix_of_append hk)
  have hphiAt := suffix_of_append (suffix_of_append (suffix_of_append hrhsAt))
  have hle : σ1.temps ≤ σ2.temps := hemits2.temps
  have htarget := decision_target op σ1.names.size (σ1.names.size + 1) hleft.1
  rw [Code.head_perform]
  by_cases hsettles : Source.settles op x = true
  · -- the left operand settles it: from the block where it ended to the phi
    rw [if_pos hsettles] at heval htarget
    cases heval
    exact .goto htarget (hC.code_eq hphiAt) (join_sound (by simp [Op.eval, hleft.1]) href1 hle)
  · -- the right operand is run, and ends in a block that was handed out for it
    rw [if_neg hsettles] at heval htarget
    have hlt : ((σ1.name "cond_rhs").name "cond_phi").names.size > σ1.names.size := by
      grind
    refine .goto htarget (hC.code_eq hrhsAt) ?_
    refine (hrhs h2 hlt (suffix_of_append hrhsAt) (hagree.mono hframe1 hemits1.temps) href1
      heval _).trans hle fun prev2 temps2 imem2 href2 _ hright => ?_
    have hne : σ2.current ≠ σ1.current := by
      have hlt1 := hemits1.current_lt hσ
      rcases hemits2.current_cases with heq | hge
      · rw [heq]
        exact Nat.ne_of_gt hlt1
      · exact Nat.ne_of_gt (Nat.lt_of_lt_of_le hlt1 (Nat.le_trans (Nat.le_of_lt hlt) hge.1))
    exact .goto rfl (hC.code_eq hphiAt)
      -- the phi takes the value that goes with the block control came from
      (join_sound (by simp [Op.eval, hright.1, hne]) href2 (Nat.le_refl _))

theorem cmpOp_holds (op : CmpOp) (a b : Int32) : (cmpOp op).holds a b = Source.compares op a b := by
  cases op <;> rfl

theorem settles_truthValue (op : LogicOp) (x : Int32) :
    Source.settles op (Source.truthValue (x ≠ 0)) = Source.settles op x := by
  cases op <;> by_cases hx : x = 0 <;> simp [Source.settles, Source.truthValue, hx]

/-- **The code of a condition follows it.** -/
theorem lowerCond_sound (hcalls : CallsMatch m call) (hsigs : SignaturesMatch ctx.functions call)
    (hC : Placed f C) (cond : Cond) :
    CondSound m f args C ctx.symbols env (lowerCond ctx cond) (Source.evalCond call env cond) := by
  induction cond with
  | expr e =>
    intro σ σ' c v h _ k _ temps imem mem n mem' hagree href heval prev
    obtain ⟨is, h1, rfl⟩ := lowerCond_expr h
    rw [Source.evalCond] at heval
    rw [Code.head_straight, (lowerExpr_extends e h1).current]
    refine .of_simulates ((lowerExpr_sound hcalls hsigs e h1 hagree href
      (expectInt_eq_some.1 heval)).imp ?_)
    rintro temps' ⟨_, rfl, hv⟩
    exact hv
  | compare span op a b iha ihb =>
    intro σ σ' c v h hσ k hk temps imem mem n mem' hagree href heval prev
    obtain ⟨c1, x, σ1, c2, y, σ2, h1, h2, rfl, rfl, rfl⟩ := lowerCond_compare h
    rw [Source.evalCond] at heval
    obtain ⟨⟨n1, mem1⟩, hn1, heval⟩ := Option.bind_eq_some_iff.1 heval
    obtain ⟨⟨n2, mem2⟩, hn2, heval⟩ := Option.bind_eq_some_iff.1 heval
    cases heval
    have hemits1 := lowerCond_emits a h1
    have hemits2 := lowerCond_emits b h2
    simp only [append_assoc] at hk ⊢
    refine (iha h1 hσ hk hagree href hn1 prev).trans hemits1.temps
      fun prev1 temps1 imem1 href1 hframe1 hx => ?_
    refine (ihb h2 (hemits1.current_lt hσ) (suffix_of_append hk)
      (hagree.mono hframe1 hemits1.temps) href1 hn2 prev1).trans hemits2.temps
      fun prev2 temps2 imem2 href2 hframe2 hy => ?_
    rw [← cmpOp_holds]
    exact join_sound (eval_compare (hx.mono hframe2 hemits2.temps).1 hy.1) href2 (Nat.le_refl _)
  | logic span op a b iha ihb =>
    intro σ σ' c v h hσ k hk temps imem mem n mem' hagree href heval prev
    rw [lowerCond_logic] at h
    refine connect_sound hC (truth_emits (lowerCond_emits a)) (truth_emits (lowerCond_emits b))
      (truth_sound (lowerCond_emits a) iha) (truth_sound (lowerCond_emits b) ihb) h hσ hk hagree href
      ?_ prev
    rw [Source.evalCond] at heval
    obtain ⟨⟨x, mem1⟩, hx, heval⟩ := Option.bind_eq_some_iff.1 heval
    dsimp only at heval ⊢
    rw [hx, Option.map_some, Option.bind_some, settles_truthValue]
    split at heval
    next hsettles =>
      rw [if_pos hsettles]
      exact heval
    next hsettles =>
      rw [if_neg hsettles]
      obtain ⟨⟨y, mem2⟩, hy, heval⟩ := Option.bind_eq_some_iff.1 heval
      rw [hy]
      exact heval

end

end SysY.Lower
