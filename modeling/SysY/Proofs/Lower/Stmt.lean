import SysY.Proofs.Lower.Cond
import SysY.Proofs.Lower.Decl

/-!
# Statements keep their meaning

The run of a statement's code follows the statement to the place that belongs
to the way in which the statement is left (`Outcomes`): to the code after it,
to one of the two blocks of the innermost loop, or to the end of the function.

A loop is followed turn by turn. Whatever the body does to temporaries that
were handed out for it, those that the variables in scope stand in are left
alone, and so the next turn begins like the first.
-/

namespace SysY.Lower

open List

open IR (Value Op Instr Label Temp Temps Point Run)
open Option

/-! ## The ways to leave a statement -/

variable {temps : Temps} {prev : Option Label}

section

variable (m : IR.Module) (f : IR.Function) (args : List IR.Val) (C : Code) (loop : Option Loop)
  (bound : Nat) (p : Point) (imem : IR.Memory) (cur : Label) (rest : List Instr) (mem' : Source.Memory)

/-- **A run that follows a statement** to where it is left: at its end, which
is at the instructions `rest` of the block `cur`, at a block of the loop, or
at the end of the function. -/
def Outcomes : Source.Outcome → Prop
  | .normal => Arrives m f args bound p imem cur rest mem' fun _ => True
  | .break_ => ∃ l, loop = some l ∧
    Arrives m f args bound p imem l.next (C.blockAt l.next) mem' fun _ => True
  | .continue_ => ∃ l, loop = some l ∧
    Arrives m f args bound p imem l.cond (C.blockAt l.cond) mem' fun _ => True
  | .return_ v => ∃ r imem', Run m f args p imem r imem' ∧ Returns v r ∧ Refines mem' imem'

variable {m f args C loop bound p imem cur rest mem'} {bound1 : Nat} {cur1 : Label}
  {rest1 : List Instr} {mem1 : Source.Memory} {post1 : Temps → Prop} {o : Source.Outcome}

/-- What follows from a point follows from the points before it. -/
theorem Outcomes.of_reaches {p1 : Point} {imem1 : IR.Memory}
    (hreach : Reaches m f args p imem p1 imem1) (hframe : ∀ t < bound, p1.temps t = p.temps t)
    (hle : bound ≤ bound1) (h : Outcomes m f args C loop bound1 p1 imem1 cur rest mem' o) :
    Outcomes m f args C loop bound p imem cur rest mem' o := by
  cases o with
  | normal => exact .of_reaches hreach hframe hle h
  | break_ | continue_ =>
    obtain ⟨l, hl, h⟩ := h
    exact ⟨l, hl, .of_reaches hreach hframe hle h⟩
  | return_ v =>
    obtain ⟨r, imem', hrun, hreturns, href'⟩ := h
    exact ⟨r, imem', hreach r imem' hrun, hreturns, href'⟩

/-- What leads to a statement, and the statement. -/
theorem Arrives.outcomes (h : Arrives m f args bound p imem cur1 rest1 mem1 post1)
    (hle : bound ≤ bound1)
    (h' : ∀ prev temps1 imem1, Refines mem1 imem1 → (∀ t < bound, temps1 t = p.temps t) →
      post1 temps1 →
      Outcomes m f args C loop bound1 ⟨prev, cur1, rest1, temps1⟩ imem1 cur rest mem' o) :
    Outcomes m f args C loop bound p imem cur rest mem' o := by
  obtain ⟨prev1, temps1, imem1, hreach1, href1, hframe1, hpost1⟩ := h
  exact .of_reaches hreach1 hframe1 hle (h' prev1 temps1 imem1 href1 hframe1 hpost1)

namespace Outcomes

/-- Where the end of a statement leads matters only if it is left there. -/
theorem of_ne_normal (h : Outcomes m f args C loop bound p imem cur1 rest1 mem' o)
    (ho : o ≠ .normal) : Outcomes m f args C loop bound p imem cur rest mem' o := by
  cases o with
  | normal => exact absurd rfl ho
  | break_ => exact h
  | continue_ => exact h
  | return_ v => exact h

/-- Fewer temporaries may be asked to be left alone. -/
protected theorem mono (h : Outcomes m f args C loop bound1 p imem cur rest mem' o)
    (hle : bound ≤ bound1) : Outcomes m f args C loop bound p imem cur rest mem' o :=
  of_reaches (fun _ _ hrun => hrun) (fun _ _ => rfl) hle h

/-- A statement, and what leads on from its end. -/
protected theorem trans (h : Outcomes m f args C loop bound p imem cur1 rest1 mem' o)
    (h' : ∀ prev temps1 imem1, Refines mem' imem1 → Arrives m f args bound
      ⟨prev, cur1, rest1, temps1⟩ imem1 cur rest mem' fun _ => True) :
    Outcomes m f args C loop bound p imem cur rest mem' o := by
  by_cases ho : o = .normal
  · subst ho
    exact Arrives.trans h (Nat.le_refl _) fun prev temps1 imem1 href1 _ _ => h' prev temps1 imem1 href1
  · exact h.of_ne_normal ho

/-- A jump or a branch leads to the block of its target. -/
theorem goto {i : Instr} {l : Label} (htarget : i.op.target? m args temps = some l)
    (hcode : f.code? l = some rest1)
    (h : Outcomes m f args C loop bound ⟨some cur1, l, rest1, temps⟩ imem cur rest mem' o)
    {rest0 : List Instr} :
    Outcomes m f args C loop bound ⟨prev, cur1, i :: rest0, temps⟩ imem cur rest mem' o :=
  of_reaches (fun _ _ hrun => .goto htarget hcode hrun) (fun _ _ => rfl) (Nat.le_refl _) h

end Outcomes

end

/-! ## Branches and loops -/

variable {mem : Source.Memory} {n : Int32} {join : Label} {cond : Gen (Code × Value)}

section

variable {m : IR.Module} {f : IR.Function} {args : List IR.Val} {C : Code} {ctx : Context}
  {env : Source.Scope}

/-- **The code that `g` writes follows an execution**, wherever it stands in
the code `C` of the function. -/
abbrev StmtSound (m : IR.Module) (f : IR.Function) (args : List IR.Val) (C : Code) (ctx : Context)
    (env : Source.Scope) (g : Gen Code)
    (exec : Source.Memory → Option (Source.Outcome × Source.Memory)) : Prop :=
  ∀ {σ σ' : Supply} {c k : Code} {temps : Temps} {imem : IR.Memory} {mem mem' : Source.Memory}
    {o : Source.Outcome}, g σ = .ok (c, σ') → σ.names.size > σ.current → c ++ k <:+ C →
    Agree m args temps σ.temps ctx.symbols env → Refines mem imem → exec mem = some (o, mem') →
    ∀ prev : Option Label, Outcomes m f args C ctx.loop σ.temps
      ⟨prev, σ.current, Code.head (c ++ k), temps⟩ imem σ'.current (Code.head k) mem' o

/-- The code that `g` writes before a jump to `join` follows an execution to
there. -/
abbrev JoinSound (m : IR.Module) (f : IR.Function) (args : List IR.Val) (C : Code) (ctx : Context)
    (env : Source.Scope) (join : Label) (g : Gen Code)
    (exec : Source.Memory → Option (Source.Outcome × Source.Memory)) : Prop :=
  ∀ {σ σ' : Supply} {c k : Code} {temps : Temps} {imem : IR.Memory} {mem mem' : Source.Memory}
    {o : Source.Outcome}, g σ = .ok (c, σ') → σ.names.size > σ.current →
    c ++ (perform (.jump join) ++ k) <:+ C → Agree m args temps σ.temps ctx.symbols env →
    Refines mem imem → exec mem = some (o, mem') → ∀ prev : Option Label,
    Outcomes m f args C ctx.loop σ.temps
      ⟨prev, σ.current, Code.head (c ++ (perform (.jump join) ++ k)), temps⟩ imem join
      (C.blockAt join) mem' o

/-- What a decision looks at. -/
def truthOf (r : Int32 × Source.Memory) : Int32 × Source.Memory :=
  (Source.truthValue (r.1 ≠ 0), r.2)

theorem branch_target {v : Value} (yes no : Label)
    (h : v.eval m args temps = some (.int (Source.truthValue (n ≠ 0)))) :
    (Op.branch v yes no).target? m args temps = some (if n = 0 then no else yes) := by
  by_cases hn : n = 0 <;> simp [Op.target?, Value.int?, h, Source.truthValue, hn]

variable {evalC : Source.Memory → Option (Int32 × Source.Memory)}
  {execB : Source.Memory → Option (Source.Outcome × Source.Memory)}

/-- A branch of an `if`: where the condition does not hold, the code goes on;
where it does, the body is run, and its end leads to the join. -/
theorem branchCode_sound (hC : Placed f C) (hjoin : join ∈ C.layout) {body : Gen Code}
    (hemits : CondEmits cond)
    (hcond : CondSound m f args C ctx.symbols env cond fun mem => (evalC mem).map truthOf)
    (hbody : StmtSound m f args C ctx env body execB) {σ σ' : Supply} {c k : Code}
    (h : branchCode join cond body σ = .ok (c, σ')) (hσ : σ.names.size > σ.current)
    (hk : c ++ k <:+ C) {imem : IR.Memory} {mem1 : Source.Memory}
    (hagree : Agree m args temps σ.temps ctx.symbols env) (href : Refines mem imem)
    (hn : evalC mem = some (n, mem1)) (prev : Option Label) :
    (n = 0 → Arrives m f args σ.temps ⟨prev, σ.current, Code.head (c ++ k), temps⟩ imem σ'.current
      (Code.head k) mem1 fun _ => True) ∧
    (n ≠ 0 → ∀ o mem', execB mem1 = some (o, mem') →
      Outcomes m f args C ctx.loop σ.temps ⟨prev, σ.current, Code.head (c ++ k), temps⟩ imem join
        (C.blockAt join) mem' o) := by
  obtain ⟨c1, v, σ1, c2, σ2, h1, h2, rfl, rfl⟩ := branchCode_ok h
  simp only [append_assoc] at hk ⊢
  have hemits1 := hemits h1
  have hyesAt := suffix_of_append (suffix_of_append hk)
  have hnoAt := suffix_of_append (suffix_of_append (suffix_of_append hyesAt))
  have hσ' := Supply.current_lt_name (Supply.current_lt_name hσ "if_true") "if_false"
  have htest : (evalC mem).map truthOf = some (truthOf (n, mem1)) := congrArg (Option.map truthOf) hn
  have hle : σ.temps ≤ σ1.temps := hemits1.temps
  constructor
  · intro hzero
    refine (hcond h1 hσ' hk hagree href htest _).trans hle fun prev1 temps1 imem1 href1 _ hv => ?_
    have htarget := branch_target σ.names.size (σ.names.size + 1) hv.1
    rw [if_pos hzero] at htarget
    exact .goto htarget (hC.code_eq hnoAt) (.refl href1 trivial)
  · intro hzero o mem' heval
    refine (hcond h1 hσ' hk hagree href htest _).outcomes hle
      fun prev1 temps1 imem1 href1 hframe1 hv => ?_
    have htarget := branch_target σ.names.size (σ.names.size + 1) hv.1
    rw [if_neg hzero] at htarget
    have hlt : (σ1.enter σ.names.size).names.size > (σ1.enter σ.names.size).current :=
      Nat.lt_of_lt_of_le (by grind) hemits1.names
    refine .goto htarget (hC.code_eq hyesAt) ?_
    refine (hbody h2 hlt (suffix_of_append hyesAt) (hagree.mono hframe1 hle) href1 heval _).trans
      fun prev2 temps2 imem2 href2 => ?_
    exact .goto rfl (hC.code join hjoin) (.refl href2 trivial)

/-- What the end of a body, or a `continue` in it, makes of a loop: another
turn. -/
theorem turns_succ {n : Nat} {mem' : Source.Memory} {o : Source.Outcome}
    (h : Source.turns evalC execB (n + 1) mem = some (o, mem')) :
    ∃ x mem1, evalC mem = some (x, mem1) ∧
      (x = 0 ∧ o = .normal ∧ mem' = mem1 ∨
        x ≠ 0 ∧ ∃ o1 mem2, execB mem1 = some (o1, mem2) ∧
          ((o1 = .normal ∨ o1 = .continue_) ∧ Source.turns evalC execB n mem2 = some (o, mem') ∨
            o1 = .break_ ∧ o = .normal ∧ mem' = mem2 ∨
            ∃ v, o1 = .return_ v ∧ o = .return_ v ∧ mem' = mem2)) := by
  obtain ⟨⟨x, mem1⟩, hx, h⟩ := bind_eq_some_iff.1 h
  refine ⟨x, mem1, hx, ?_⟩
  dsimp only at h
  split at h
  next hzero =>
    cases h
    exact .inl ⟨hzero, rfl, rfl⟩
  next hzero =>
    obtain ⟨⟨o1, mem2⟩, ho1, h⟩ := bind_eq_some_iff.1 h
    refine .inr ⟨hzero, o1, mem2, ho1, ?_⟩
    cases o1 with
    | normal => exact .inl ⟨.inl rfl, h⟩
    | continue_ => exact .inl ⟨.inr rfl, h⟩
    | break_ =>
      cases h
      exact .inr (.inl ⟨rfl, rfl, rfl⟩)
    | return_ v =>
      cases h
      exact .inr (.inr ⟨v, rfl, rfl, rfl⟩)

/-- **The code of a loop follows its turns.** -/
theorem loopCode_sound (hC : Placed f C) {body : Loop → Gen Code}
    (fuel : Nat) (hemits : CondEmits cond)
    (hcond : CondSound m f args C ctx.symbols env cond fun mem => (evalC mem).map truthOf)
    (hbody : ∀ l : Loop, l.cond ∈ C.layout → l.next ∈ C.layout →
      StmtSound m f args C { ctx with loop := some l } env (body l) execB) :
    StmtSound m f args C ctx env (loopCode cond body) (Source.turns evalC execB fuel) := by
  intro σ σ' c k temps imem mem mem' o h hσ hk hagree href heval prev
  obtain ⟨c1, v, σ1, c2, σ2, h1, h2, rfl, rfl⟩ := loopCode_ok h
  simp only [append_assoc] at hk ⊢
  have hemits1 := hemits h1
  have hcondAt := suffix_of_append hk
  have hbodyAt := suffix_of_append (suffix_of_append (suffix_of_append hcondAt))
  have hnextAt := suffix_of_append (suffix_of_append (suffix_of_append hbodyAt))
  have hsize1 := hemits1.names
  simp only [Supply.enter_names, Supply.name_names, Array.size_push] at hsize1
  have hle : σ.temps ≤ σ1.temps := hemits1.temps
  refine .goto rfl (hC.code_eq hcondAt) ?_
  -- by induction on the number of turns, from the block of the condition on
  generalize some σ.current = prev'
  induction fuel generalizing prev' temps imem mem with
  | zero => cases heval
  | succ n ih =>
    obtain ⟨x, mem1, hx, hturn⟩ := turns_succ heval
    have htest : (evalC mem).map truthOf = some (truthOf (x, mem1)) :=
      congrArg (Option.map truthOf) hx
    refine (hcond h1 (by grind) (suffix_of_append hcondAt) hagree href htest _).outcomes
      (Nat.le_refl _) fun prev1 temps1 imem1 href1 hframe1 hv => ?_
    have hagree1 : Agree m args temps1 σ.temps ctx.symbols env := hagree.mono hframe1 (Nat.le_refl _)
    have htarget := branch_target (σ.names.size + 1) (σ.names.size + 2) hv.1
    obtain ⟨hzero, rfl, rfl⟩ | ⟨hzero, o1, mem2, ho1, hturn⟩ := hturn
    · rw [if_pos hzero] at htarget
      exact Arrives.goto htarget (hC.code_eq hnextAt) (.refl href1 trivial)
    rw [if_neg hzero] at htarget
    refine .goto htarget (hC.code_eq hbodyAt) ?_
    have hrun := (hbody ⟨σ.names.size, σ.names.size + 2⟩ (Placed.mem_layout hcondAt)
      (Placed.mem_layout hnextAt) h2 (by grind) (suffix_of_append hbodyAt)
      (hagree.mono hframe1 hle) href1 ho1 (some σ1.current)).mono hle
    obtain ⟨rfl | rfl, hturns⟩ | ⟨rfl, rfl, rfl⟩ | ⟨w, rfl, rfl, rfl⟩ := hturn
    · -- the end of the body
      refine Arrives.outcomes hrun (Nat.le_refl _) fun prev2 temps2 imem2 href2 hframe2 _ => ?_
      exact .goto rfl (hC.code_eq hcondAt)
        (ih (hagree1.mono hframe2 (Nat.le_refl _)) href2 hturns _)
    · -- `continue`
      obtain ⟨_, hl, hrun⟩ := hrun
      cases hl
      rw [hC.blockAt hcondAt] at hrun
      exact Arrives.outcomes hrun (Nat.le_refl _) fun prev2 temps2 imem2 href2 hframe2 _ =>
        ih (hagree1.mono hframe2 (Nat.le_refl _)) href2 hturns _
    · -- `break`
      obtain ⟨_, hl, hrun⟩ := hrun
      cases hl
      rw [hC.blockAt hnextAt] at hrun
      exact hrun
    · exact hrun

end

/-! ## Statements -/

section

variable {m : IR.Module} {f : IR.Function} {args : List IR.Val} {C : Code}
  {call : Source.Caller} {imem : IR.Memory} {loop : Option Loop}

/-- Where statements are lowered: calls give back what the signatures say, and the blocks of
the innermost loop are in the code. -/
structure Within (C : Code) (call : Source.Caller) (functions : Frame Signature)
    (loop : Option Loop) (inLoop : Bool) : Prop where
  /-- Signatures say what calls give back. -/
  signatures : SignaturesMatch functions call
  /-- The blocks of the loop are in the code. -/
  blocks : ∀ l : Loop, loop = some l → l.cond ∈ C.layout ∧ l.next ∈ C.layout
  /-- There is a loop where the statement is in one. -/
  inLoop : inLoop = loop.isSome

/-- Straight code is left at its end. -/
theorem Outcomes.straight {bound : Nat} {cur : Label} {is : List Instr} {k : Code}
    {mem' : Source.Memory} (h : Simulates m args prev is bound temps imem mem' fun _ => True) :
    Outcomes m f args C loop bound ⟨prev, cur, Code.head (straight is ++ k), temps⟩ imem cur
      (Code.head k) mem' .normal := by
  rw [Code.head_straight]
  exact Arrives.of_simulates h

/-- `break` and `continue` lead to a block of the loop, and outside of loops
to what follows. -/
theorem leaveTo_sound (hC : Placed f C) (block : Loop → Label)
    (hloop : ∀ l, loop = some l → block l ∈ C.layout) {σ σ' : Supply} {c : Code}
    (h : leaveTo (loop.map block) σ = .ok (c, σ')) (href : Refines mem imem) (k : Code)
    (bound : Nat) (prev : Option Label) (temps : Temps) :
    (loop = none ∧ Arrives m f args bound ⟨prev, σ.current, Code.head (c ++ k), temps⟩
      imem σ'.current (Code.head k) mem fun _ => True) ∨
    ∃ l, loop = some l ∧ Arrives m f args bound ⟨prev, σ.current, Code.head (c ++ k), temps⟩
      imem (block l) (C.blockAt (block l)) mem fun _ => True := by
  obtain ⟨hnone, rfl, rfl⟩ | ⟨_, hsome, rfl, rfl⟩ := leaveTo_ok h
  · exact .inl ⟨map_eq_none_iff.1 hnone, .refl href trivial⟩
  · obtain ⟨l, hl, rfl⟩ := map_eq_some_iff.1 hsome
    exact .inr ⟨l, hl, .goto rfl (hC.code _ (hloop l hl)) (.refl href trivial)⟩

/-- **The alternatives of an `if` follow it** to the join. -/
theorem alternatives_sound (hcalls : CallsMatch m call) (hC : Placed f C) {fuel : Nat}
    {ctx : Context} {env : Source.Scope} {inLoop : Bool} {cond : Cond} {body : Stmt}
    {rest : Otherwise} (hjoin : join ∈ C.layout)
    (hsigs : SignaturesMatch ctx.functions call)
    (hbody : StmtSound m f args C ctx env (lowerStmt ctx body) (Source.execStmt call fuel inLoop env body))
    (hrest : JoinSound m f args C ctx env join (lowerOtherwise ctx join rest)
      (Source.execOtherwise call fuel inLoop env rest))
    {σ σ1 σ' : Supply} {c1 c2 k : Code}
    {mem1 mem' : Source.Memory} {o : Source.Outcome}
    (h1 : branchCode join (truth (lowerCond ctx cond)) (lowerStmt ctx body) σ = .ok (c1, σ1))
    (h2 : lowerOtherwise ctx join rest σ1 = .ok (c2, σ')) (hσ : σ.names.size > σ.current)
    (hk : c1 ++ (c2 ++ (perform (.jump join) ++ k)) <:+ C)
    (hagree : Agree m args temps σ.temps ctx.symbols env) (href : Refines mem imem)
    (hn : Source.evalCond call env cond mem = some (n, mem1))
    (heval : (if n = 0 then Source.execOtherwise call fuel inLoop env rest mem1
      else Source.execStmt call fuel inLoop env body mem1) = some (o, mem')) (prev : Option Label) :
    Outcomes m f args C ctx.loop σ.temps
      ⟨prev, σ.current, Code.head (c1 ++ (c2 ++ (perform (.jump join) ++ k))), temps⟩ imem join
      (C.blockAt join) mem' o := by
  have hemits : CondEmits (truth (lowerCond ctx cond)) := truth_emits (lowerCond_emits cond)
  have hemits1 := branchCode_emits hemits (lowerStmt_emits body) h1
  have hbranch := branchCode_sound hC hjoin hemits
    (truth_sound (lowerCond_emits cond) (lowerCond_sound hcalls hsigs hC cond)) hbody h1 hσ hk
    hagree href hn prev
  split at heval
  next hzero =>
    refine (hbranch.1 hzero).outcomes hemits1.temps fun prev1 temps1 imem1 href1 hframe1 _ => ?_
    exact hrest h2 (hemits1.current_lt hσ) (suffix_of_append hk) (hagree.mono hframe1 hemits1.temps)
      href1 heval prev1
  next hzero => exact hbranch.2 hzero o mem' heval

mutual

/-- **The code of a statement follows it.** -/
theorem lowerStmt_sound (hcalls : CallsMatch m call) (hC : Placed f C) (fuel : Nat) :
    ∀ (s : Stmt) (ctx : Context) {env : Source.Scope} {inLoop : Bool},
    Within C call ctx.functions ctx.loop inLoop →
    StmtSound m f args C ctx env (lowerStmt ctx s) (Source.execStmt call fuel inLoop env s)
  | .assign target mark value, _ => fun hin => fun h _ _ hagree href heval _ => by
    obtain ⟨c1, v, σ1, c2, a, scalar, h1, h2, rfl⟩ := lowerStmt_assign h
    rw [Source.execStmt] at heval
    obtain ⟨⟨n, mem1⟩, hn, heval⟩ := bind_eq_some_iff.1 heval
    obtain ⟨⟨place, mem2⟩, hplace, heval⟩ := bind_eq_some_iff.1 heval
    cases place with
    | row r => cases heval
    | word b =>
      obtain ⟨mem3, hwrite, heval⟩ := bind_eq_some_iff.1 heval
      cases heval
      have hext1 := lowerExpr_extends _ h1
      have hext2 := lowerAddress_extends h2
      rw [hext2.current.trans hext1.current]
      refine .straight ?_
      rw [append_assoc]
      refine (lowerExpr_sound hcalls hin.signatures value h1 hagree href
        (expectInt_eq_some.1 hn)).append hext1.temps ?_
      rintro temps1 imem1 href1 hframe1 ⟨_, rfl, hv⟩
      refine (lowerAddress_sound (fun e _ => lowerExpr_sound hcalls hin.signatures e) h2 (hagree.mono hframe1 hext1.temps) href1
        hplace).append hext2.temps ?_
      rintro temps2 imem2 href2 hframe2 ⟨_, ⟨-, p, rfl, hp⟩, ha⟩
      obtain ⟨imem3, hstore, href3⟩ := href2.store hwrite hp rfl
      exact (Yields.perform (eval_store (hv.mono hframe2 hext2.temps).1 ha.1 hstore) href3).imp
        fun _ _ => trivial
  | .eval none, _ => fun _ => fun h _ _ _ href heval _ => by
    rw [lowerStmt] at h
    obtain ⟨rfl, rfl⟩ := pure_ok.1 h
    rw [Source.execStmt] at heval
    cases heval
    exact Arrives.refl href trivial
  | .eval (some e), _ => fun hin => fun h _ _ hagree href heval _ => by
    obtain ⟨is, v, h1, rfl⟩ := lowerStmt_eval h
    rw [Source.execStmt] at heval
    obtain ⟨⟨x, mem1⟩, hx, heval⟩ := bind_eq_some_iff.1 heval
    cases heval
    rw [(lowerExpr_extends e h1).current]
    exact .straight ((lowerExpr_sound hcalls hin.signatures e h1 hagree href hx).imp fun _ _ => trivial)
  | .block b, ctx => fun hin => fun h hσ hk hagree href heval prev => by
    rw [lowerStmt] at h
    rw [Source.execStmt] at heval
    exact lowerBlock_sound hcalls hC fuel b { ctx with symbols := ctx.symbols.enter } hin h hσ hk
      hagree.enter href heval prev
  | .if_ cond body rest, _ => fun hin => fun h hσ hk hagree href heval prev => by
    obtain ⟨c1, σ1, c2, σ2, h1, h2, rfl, rfl⟩ := lowerStmt_if h
    rw [Source.execStmt] at heval
    obtain ⟨⟨n, mem1⟩, hn, heval⟩ := bind_eq_some_iff.1 heval
    simp only [append_assoc, singleton_append] at hk ⊢
    have hjoinAt := suffix_of_append (suffix_of_append (suffix_of_append hk))
    have hjoin := Placed.mem_layout hjoinAt
    rw [← hC.blockAt hjoinAt]
    exact alternatives_sound hcalls hC hjoin hin.signatures (lowerStmt_sound hcalls hC fuel body _ hin)
      (lowerOtherwise_sound hcalls hC fuel rest _ hjoin hin) h1 h2 (Supply.current_lt_name hσ _) hk
      hagree href hn heval prev
  | .while_ cond body, ctx => fun hin => fun h hσ hk hagree href heval prev => by
    rw [lowerStmt] at h
    rw [Source.execStmt] at heval
    refine loopCode_sound hC fuel (truth_emits (lowerCond_emits cond))
      (truth_sound (lowerCond_emits cond) (lowerCond_sound hcalls hin.signatures hC cond))
      (fun l hlc hln => ?_) h hσ hk hagree href heval prev
    refine lowerStmt_sound hcalls hC fuel body { ctx with loop := some l } ⟨hin.signatures, ?_, rfl⟩
    rintro _ ⟨⟩
    exact ⟨hlc, hln⟩
  | .break_ _, _ => fun hin => fun h _ _ _ href heval prev => by
    rw [lowerStmt] at h
    rw [Source.execStmt] at heval
    cases heval
    obtain ⟨hnone, hrun⟩ | ⟨l, hl, hrun⟩ := leaveTo_sound hC (·.next) (fun l hl => (hin.blocks l hl).2)
      h href _ _ prev _
    · rw [hin.inLoop, hnone]
      exact hrun
    · rw [hin.inLoop, hl]
      exact ⟨l, rfl, hrun⟩
  | .continue_ _, _ => fun hin => fun h _ _ _ href heval prev => by
    rw [lowerStmt] at h
    rw [Source.execStmt] at heval
    cases heval
    obtain ⟨hnone, hrun⟩ | ⟨l, hl, hrun⟩ := leaveTo_sound hC (·.cond) (fun l hl => (hin.blocks l hl).1)
      h href _ _ prev _
    · rw [hin.inLoop, hnone]
      exact hrun
    · rw [hin.inLoop, hl]
      exact ⟨l, rfl, hrun⟩
  | .return_ _ none, _ => fun _ => fun h _ _ _ href heval _ => by
    rw [lowerStmt] at h
    obtain ⟨rfl, rfl⟩ := deadEnd_ok.1 h
    rw [Source.execStmt] at heval
    cases heval
    exact ⟨none, _, .retVoid, rfl, href⟩
  | .return_ _ (some e), _ => fun hin => fun h _ _ hagree href heval prev => by
    obtain ⟨is, v, σ1, h1, rfl, rfl⟩ := lowerStmt_return h
    rw [Source.execStmt] at heval
    obtain ⟨⟨n, mem1⟩, hn, heval⟩ := bind_eq_some_iff.1 heval
    cases heval
    obtain ⟨temps1, imem1, hsteps, href1, -, _, rfl, hv⟩ : Simulates m args prev is _ _ _ _ _ :=
      lowerExpr_sound hcalls hin.signatures e h1 hagree href (expectInt_eq_some.1 hn)
    rw [append_assoc, Code.head_straight, append_assoc]
    exact ⟨_, imem1, hsteps.run (.ret hv.1), rfl, href1⟩

/-- The code of the items of a block follows them. -/
theorem lowerBlock_sound (hcalls : CallsMatch m call) (hC : Placed f C) (fuel : Nat) :
    ∀ (b : Block) (ctx : Context) {env : Source.Scope} {inLoop : Bool},
    Within C call ctx.functions ctx.loop inLoop →
    StmtSound m f args C ctx env (lowerBlock ctx b) (Source.execBlock call fuel inLoop env b)
  | .nil, _ => fun _ => fun h _ _ _ href heval _ => by
    rw [lowerBlock] at h
    obtain ⟨rfl, rfl⟩ := pure_ok.1 h
    rw [Source.execBlock] at heval
    cases heval
    exact Arrives.refl href trivial
  | .decl d rest, ctx => fun hin => fun h hσ hk hagree href heval prev => by
    obtain ⟨is, symbols, σ1, c2, h1, h2, rfl⟩ := lowerBlock_decl h
    rw [Source.execBlock] at heval
    obtain ⟨⟨env1, mem1⟩, hd, heval⟩ := bind_eq_some_iff.1 heval
    have hext := lowerDefinitions_extends h1
    have hσ1 : σ1.names.size > σ1.current := by
      rw [hext.names, hext.current]
      exact hσ
    rw [append_assoc] at hk ⊢
    rw [Code.head_straight, ← hext.current]
    refine (Arrives.of_simulates
      (lowerDefinitions_sound hcalls hin.signatures hagree href h1 hd)).outcomes hext.temps
      fun prev1 temps1 imem1 href1 _ hagree1 => ?_
    exact lowerBlock_sound hcalls hC fuel rest { ctx with symbols } hin h2 hσ1 (suffix_of_append hk) hagree1 href1
      heval prev1
  | .stmt s rest, _ => fun hin => fun h hσ hk hagree href heval prev => by
    obtain ⟨c1, σ1, c2, h1, h2, rfl⟩ := lowerBlock_stmt h
    rw [Source.execBlock] at heval
    obtain ⟨⟨o1, mem1⟩, ho1, heval⟩ := bind_eq_some_iff.1 heval
    have hemits1 := lowerStmt_emits s h1
    rw [append_assoc] at hk ⊢
    have hfirst := lowerStmt_sound hcalls hC fuel s _ hin h1 hσ hk hagree href ho1 prev
    by_cases ho : o1 = .normal
    · subst ho
      refine Arrives.outcomes hfirst hemits1.temps fun prev1 temps1 imem1 href1 hframe1 _ => ?_
      exact lowerBlock_sound hcalls hC fuel rest _ hin h2 (hemits1.current_lt hσ) (suffix_of_append hk)
        (hagree.mono hframe1 hemits1.temps) href1 heval prev1
    · cases o1 with
      | normal => exact absurd rfl ho
      | break_ | continue_ | return_ =>
        cases heval
        exact hfirst.of_ne_normal ho

/-- The code of the alternatives of an `if` follows them to the join. -/
theorem lowerOtherwise_sound (hcalls : CallsMatch m call) (hC : Placed f C) (fuel : Nat) :
    ∀ (r : Otherwise) (ctx : Context) {env : Source.Scope} {inLoop : Bool} {join : Label},
    join ∈ C.layout → Within C call ctx.functions ctx.loop inLoop →
    JoinSound m f args C ctx env join (lowerOtherwise ctx join r)
      (Source.execOtherwise call fuel inLoop env r)
  | .done, _ => fun hjoin _ => fun h _ _ _ href heval _ => by
    rw [lowerOtherwise] at h
    obtain ⟨rfl, rfl⟩ := pure_ok.1 h
    rw [Source.execOtherwise] at heval
    cases heval
    exact Arrives.goto rfl (hC.code _ hjoin) (.refl href trivial)
  | .else_ s, _ => fun hjoin hin => fun h hσ hk hagree href heval prev => by
    rw [lowerOtherwise] at h
    rw [Source.execOtherwise] at heval
    exact (lowerStmt_sound hcalls hC fuel s _ hin h hσ hk hagree href heval prev).trans
      fun prev1 temps1 imem1 href1 => .goto rfl (hC.code _ hjoin) (.refl href1 trivial)
  | .elseIf cond body rest, _ => fun hjoin hin => fun h hσ hk hagree href heval prev => by
    obtain ⟨c1, σ1, c2, h1, h2, rfl⟩ := lowerOtherwise_elseIf h
    rw [Source.execOtherwise] at heval
    obtain ⟨⟨n, mem1⟩, hn, heval⟩ := bind_eq_some_iff.1 heval
    rw [append_assoc] at hk ⊢
    exact alternatives_sound hcalls hC hjoin hin.signatures (lowerStmt_sound hcalls hC fuel body _ hin)
      (lowerOtherwise_sound hcalls hC fuel rest _ hjoin hin) h1 h2 hσ hk hagree href hn heval prev

end

end

end SysY.Lower
