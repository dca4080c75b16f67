import SysY.Proofs.Static.Walk

/-!
# Lowered code knows what it reads

The walk through the code of conditions, statements and functions is in order.
A condition forgets nothing of what is known before it. A statement may leave
a block and begin another one, which promises no more than the variables that
were known at the start of the statement; so these are what is known for
certain after it.
-/

namespace SysY.Lower

open IR (Value Op Instr Line Label Temp Kind Known Signatures Step Straight)
open List

variable {sig : Signatures} {env : TyEnv} {ctx : Context} {Γ : List Target} {S S1 S' : Known}
  {σ σ1 σ' : Supply}

/-! ## Conditions -/

/-- The code of a value is in order, forgets nothing, and the value is
usable. -/
def ValueWalks (sig : Signatures) (S : Known) (σ : Supply) (c : Code) (v : Value) (σ' : Supply) :
    Prop :=
  ∃ S' ts, Walks sig [] σ S c ts σ' S' ∧ Known.Sub S S' ∧ v.Usable S'

variable {c : Code} {v : Value} {returns : Ty} {g cond : Gen (Code × Value)}

theorem truth_temp (h : truth g σ = .ok ((c, v), σ')) : ∃ t, v = .temp t := by
  obtain ⟨_, _, σ1, -, -, rfl, -⟩ := truth_ok h
  exact ⟨_, rfl⟩

theorem truth_walks (hg : ∀ c v σ1, g σ = .ok ((c, v), σ1) → ValueWalks sig S σ c v σ1)
    (hn : S.Below σ.temps) (h : truth g σ = .ok ((c, v), σ')) : ValueWalks sig S σ c v σ' := by
  obtain ⟨c1, x, σ1, h1, rfl, rfl, rfl⟩ := truth_ok h
  obtain ⟨S1, ts, hw, hsub, hx⟩ := hg c1 x σ1 h1
  have htest : Grows sig S1 _ _ _ _ :=
    .define (.compare .ne x (.const 0)) (hw.below hn) (.compare hx (Value.usable_const))
  exact ⟨_, _, hw.append (.straight htest.code (Supply.Extends.refl _).bump),
    hsub.trans htest.sub, Value.usable_add rfl⟩

/-- **A connective is in order.** The phi's temporary is copied to where either
operand ends, and the block of the phi is the only one that is promised it. -/
theorem connect_walks {op : LogicOp} {lhs rhs : Gen (Code × Value)}
    (hσ : σ.names.size > σ.current) (hn : S.Below σ.temps)
    (hlhs : ∀ c v σ1, lhs σ = .ok ((c, v), σ1) →
      (∃ t, v = .temp t) ∧ ValueWalks sig S σ c v σ1 ∧ Emits σ [] c σ1)
    (hrhs : ∀ S' τ c v τ', rhs τ = .ok ((c, v), τ') → τ.names.size > τ.current →
      S'.Below τ.temps → Known.Sub S S' →
      (∃ t, v = .temp t) ∧ ValueWalks sig S' τ c v τ' ∧ Emits τ [] c τ')
    (h : connect op lhs rhs σ = .ok ((c, v), σ')) : ValueWalks sig S σ c v σ' := by
  obtain ⟨c1, left, σ1, c2, right, σ2, h1, h2, rfl, rfl, rfl⟩ := connect_ok h
  obtain ⟨hltemp, ⟨S1, _, hw1, hsub1, hleft⟩, hemits1⟩ := hlhs c1 left σ1 h1
  have hn1 := hw1.below hn
  have hlt1 := hemits1.current_lt hσ
  obtain ⟨hrtemp, ⟨S2, _, hw2, hsub2, hright⟩, hemits2⟩ :=
    hrhs S1.busy _ c2 right σ2 h2 (by grind) hn1 hsub1
  have hle : σ1.temps ≤ σ2.temps := hemits2.temps
  have hne : σ1.current ≠ σ2.current := by
    rcases hemits2.current_cases with heq | hge
    · rw [heq]
      exact Nat.ne_of_lt hlt1
    · refine Nat.ne_of_lt (Nat.lt_of_lt_of_le hlt1 (Nat.le_trans ?_ hge.1))
      simp only [Supply.enter_names, Supply.name_names, Array.size_push]
      omega
  obtain ⟨ks1, hwalk1, hres1, hperm1, rfl⟩ := hw1
  obtain ⟨ks2, hwalk2, hres2, hperm2, rfl⟩ := hw2
  -- the block of the phi: what was known after the left operand, and the phi
  have hphi : Grows sig (S1.busy.add σ2.temps .data) _ _ _ _ :=
    .define (.zext (.temp σ2.temps)) (Known.Below.add (S := S1.busy) (hn1.mono hle) .data)
      (.zext (Value.usable_add rfl))
  have hbase : Known.Sub S1 (S1.busy.add σ2.temps .data) :=
    Known.Sub.add_of_below (S := S1.busy) hn1 hle _
  let atLeft : Cut := ⟨⟨σ1.current, S1, some (σ2.temps, left),
    decision op left σ1.names.size (σ1.names.size + 1)⟩, ⟨σ1.names.size, S1.busy, none⟩⟩
  let atRight : Cut := ⟨⟨σ2.current, S2, some (σ2.temps, right), .jump (σ1.names.size + 1)⟩,
    ⟨σ1.names.size + 1, S1.busy.add σ2.temps .data, some σ2.temps⟩⟩
  have hends : Op.Ends S1 atLeft.op := by cases op <;> exact hleft
  have hbusy : S1.busy.Below σ1.temps := hn1
  have hjump : Op.Ends S2 atRight.op := trivial
  have hcopy : ∀ t v, atLeft.copy = some (t, v) → v.Held S1 ∧ σ1.temps ≤ t := by
    intro t v heq
    cases heq
    exact ⟨⟨hltemp, hleft⟩, hle⟩
  refine ⟨_, _, ⟨ks1 ++ atLeft :: (ks2 ++ [atRight]), ?_, ?_, ?_, rfl⟩,
    hsub1.trans (hbase.trans hphi.sub), Value.usable_add rfl⟩
  · have hcode : perform atLeft.op ++ [.label σ1.names.size] ++ c2 ++ perform atRight.op ++
          [.label (σ1.names.size + 1)] ++ straight [⟨some σ2.temps, .phi left σ1.current right
            σ2.current⟩, ⟨some (σ2.temps + 1), .zext (.temp σ2.temps)⟩]
        = .instr ⟨none, atLeft.op⟩ :: .label σ1.names.size :: (c2 ++
          .instr ⟨none, atRight.op⟩ :: .label (σ1.names.size + 1) ::
          .instr ⟨some σ2.temps, .phi left σ1.current right σ2.current⟩ ::
          straight [⟨some (σ2.temps + 1), .zext (.temp σ2.temps)⟩]) := by
      simp [perform, straight]
    rw [hcode]
    exact hwalk1.append (.cut hends hcopy hbusy rfl (hwalk2.append
      (.join hjump ⟨hrtemp, hright⟩ hne (hbusy.mono hle) rfl (.straight hphi.code _))))
  · have hleftMem : atLeft.target ∈ (atLeft :: (ks2 ++ [atRight])).map (·.target) ++ [] := by simp
    have hrightMem : atRight.target ∈ (atLeft :: (ks2 ++ [atRight])).map (·.target) ++ [] := by simp
    have hmem : ∀ k ∈ atLeft :: (ks2 ++ [atRight]), k = atLeft ∨ k ∈ ks2 ∨ k = atRight := by simp
    refine hres1.append ⟨fun k hk l hl => ?_, fun k hk t v hcopy => ?_⟩ <;>
      obtain rfl | hk | rfl := hmem k hk
    · have hsucc : l = σ1.names.size ∨ l = σ1.names.size + 1 := by
        cases op with
        | and => simpa [atLeft, decision, Op.successors] using hl
        | or => simpa [atLeft, decision, Op.successors, or_comm] using hl
      rcases hsucc with rfl | rfl
      · exact ⟨_, hleftMem, rfl, .refl S1⟩
      · refine ⟨_, hrightMem, rfl, left, rfl, ?_⟩
        intro t k ht
        exact ht
    · obtain ⟨T, hT, hlabel⟩ := hres2.jumps k hk l hl
      refine ⟨T, ?_, hlabel⟩
      rw [append_nil] at hT ⊢
      simp only [map_cons, map_append, mem_cons, mem_append]
      exact .inr (.inl hT)
    · have hsucc : l = σ1.names.size + 1 := mem_singleton.1 hl
      exact ⟨_, hrightMem, hsucc.symm, right, rfl, hsub2.add _ _⟩
    · cases hcopy
      refine ⟨_, append_nil _ ▸ hrightMem, rfl, ?_⟩
      cases op <;> simp [atLeft, atRight, decision, Op.successors]
    · obtain ⟨T, hT, hphi⟩ := hres2.copies k hk t v hcopy
      refine ⟨T, ?_, hphi⟩
      simp only [map_cons, map_append, mem_cons, mem_append]
      exact .inr (.inl hT)
    · cases hcopy
      exact ⟨_, append_nil _ ▸ hrightMem, rfl, mem_singleton_self _⟩
  · have hphis : phiCopies (straight [⟨some σ2.temps, .phi left σ1.current right σ2.current⟩,
        ⟨some (σ2.temps + 1), .zext (.temp σ2.temps)⟩])
        = [(σ1.current, Line.copy σ2.temps left), (σ2.current, .copy σ2.temps right)] := rfl
    simp only [phiCopies_append, phiCopies_label, phiCopies_perform, phiCopies_nil, hphis,
      cutCopies_append, nil_append, append_nil]
    refine hperm1.append ?_
    show (phiCopies c2 ++ _).Perm ((σ1.current, Line.copy σ2.temps left) :: cutCopies (ks2 ++ [atRight]))
    rw [cutCopies_append]
    exact (hperm2.append_right _).trans perm_middle

theorem Covers.of_sub {symbols : Symbols} (h : Covers S symbols) (hsub : Known.Sub S S') :
    Covers S' symbols :=
  h.mono ((Known.settled_sub S).trans hsub)

/-- **The code of a condition is in order.** -/
theorem lowerCond_walks (cond : Cond)
    (h : lowerCond ctx cond σ = .ok ((c, v), σ')) (hσ : σ.names.size > σ.current)
    (hS : Covers S ctx.symbols) (hn : S.Below σ.temps)
    (hc : Checked sig.wants env ctx.symbols (cond.findings env)) : ValueWalks sig S σ c v σ' := by
  induction cond generalizing S σ σ' c v with
  | expr e =>
    obtain ⟨is, h1, rfl⟩ := lowerCond_expr h
    rw [Cond.findings] at hc
    obtain ⟨S', hg, hv, -⟩ := lowerExpr_grows e h1 hS hn hc.left
    exact ⟨S', [], .straight hg.code (lowerExpr_extends e h1), hg.sub, hv⟩
  | compare span op a b iha ihb =>
    obtain ⟨c1, x, σ1, c2, y, σ2, h1, h2, rfl, rfl, rfl⟩ := lowerCond_compare h
    rw [Cond.findings] at hc
    obtain ⟨S1, _, hw1, hsub1, hx⟩ := iha h1 hσ hS hn hc.left.left
    obtain ⟨S2, _, hw2, hsub2, hy⟩ := ihb h2 ((lowerCond_emits a h1).current_lt hσ)
      (hS.of_sub hsub1) (hw1.below hn) hc.left.right
    have hn2 := hw2.below (hw1.below hn)
    have htest : Grows sig S2 _ _ _ _ :=
      .define (.compare (cmpOp op) x y) hn2 (.compare (hx.mono hsub2) hy)
    have hwiden : Grows sig _ _ _ _ _ :=
      .define (.zext (.temp σ2.temps)) htest.below (.zext (Value.usable_add rfl))
    have hg := htest.append hwiden
    exact ⟨_, _, (hw1.append hw2).append (.straight hg.code (Supply.Extends.refl _).bump.bump),
      (hsub1.trans hsub2).trans hg.sub, Value.usable_add rfl⟩
  | logic span op a b iha ihb =>
    rw [lowerCond_logic] at h
    rw [Cond.findings] at hc
    refine connect_walks hσ hn (fun c v σ1 h1 => ⟨truth_temp h1, ?_, ?_⟩)
      (fun S' τ c v τ' h2 hτ hn' hsub => ⟨truth_temp h2, ?_, ?_⟩) h
    · exact truth_walks (fun _ _ _ h => iha h hσ hS hn hc.left.left) hn h1
    · exact truth_emits (lowerCond_emits a) h1
    · exact truth_walks (fun _ _ _ h => ihb h hτ (hS.of_sub hsub) hn' hc.left.right) hn' h2
    · exact truth_emits (lowerCond_emits b) h2

/-- A condition where a decision is taken. -/
theorem truth_lowerCond_walks (cond : Cond)
    (h : truth (lowerCond ctx cond) σ = .ok ((c, v), σ')) (hσ : σ.names.size > σ.current)
    (hS : Covers S ctx.symbols) (hn : S.Below σ.temps)
    (hc : Checked sig.wants env ctx.symbols (cond.findings env)) :
    ValueWalks sig S σ c v σ' ∧ Emits σ [] c σ' :=
  ⟨truth_walks (fun _ _ _ h => lowerCond_walks cond h hσ hS hn hc) hn h,
    truth_emits (lowerCond_emits cond) h⟩

/-! ## Statements -/

/-- The code of a statement is in order, and keeps the variables known. -/
def StmtWalks (sig : Signatures) (Γ : List Target) (S : Known) (σ : Supply) (c : Code)
    (σ' : Supply) : Prop :=
  ∃ S' ts, Walks sig Γ σ S c ts σ' S' ∧ Known.Sub S.settled S'

/-- Blocks that a statement may leave to are promised no more than the variables that
are known. -/
def Open (Γ : List Target) (S : Known) (exits : List Label) : Prop :=
  ∀ l ∈ exits, ∃ entry, ⟨l, entry, none⟩ ∈ Γ ∧ Known.Sub entry S.settled

/-- The blocks that the body of a loop may leave to. -/
def exitsOf : Option Loop → List Label
  | some lp => [lp.cond, lp.next]
  | none => []

/-- Where the code of a statement begins that may leave to the given blocks, and to those
of the loop that it is in. -/
structure Begins (Γ : List Target) (ctx : Context) (exits : List Label) (S : Known) (σ : Supply) :
    Prop where
  /-- The block was handed out. -/
  current : σ.names.size > σ.current
  /-- The variables in scope are known. -/
  covers : Covers S ctx.symbols
  /-- What is known was handed out. -/
  below : S.Below σ.temps
  /-- The blocks that it may leave to are promised what is known. -/
  exits : Open Γ S (exits ++ exitsOf ctx.loop)

/-- Code is in order, if nothing is wrong with what it is for. -/
abbrev WalksAt (sig : Signatures) (env : TyEnv) (ctx : Context) (exits : List Label)
    (code : Gen Code) (fs : List Finding) : Prop :=
  ∀ {Γ S σ σ' c}, code σ = .ok (c, σ') → Begins Γ ctx exits S σ →
    Checked sig.wants env ctx.symbols fs → StmtWalks sig Γ S σ c σ'

theorem branchCode_walks {join : Label} {body : Gen Code}
    (hopen : Open Γ S [join]) (hσ : σ.names.size > σ.current) (hn : S.Below σ.temps)
    (hcond : ∀ τ c v τ', cond τ = .ok ((c, v), τ') → τ.names.size > τ.current → τ.temps = σ.temps →
      ValueWalks sig S τ c v τ' ∧ Emits τ [] c τ')
    (hbody : ∀ S1 τ c τ', body τ = .ok (c, τ') → τ.names.size > τ.current → S1.Below τ.temps →
      Known.Sub S S1 → StmtWalks sig Γ S1 τ c τ' ∧ Emits τ [] c τ')
    (h : branchCode join cond body σ = .ok (c, σ')) : StmtWalks sig Γ S σ c σ' := by
  obtain ⟨c1, v, σ1, c2, σ2, h1, h2, rfl, rfl⟩ := branchCode_ok h
  obtain ⟨entry, hjoin, hentry⟩ := hopen join mem_cons_self
  obtain ⟨⟨S1, ts1, hw1, hsub1, hv⟩, hemits1⟩ := hcond _ c1 v σ1 h1 (by grind) rfl
  have hn1 : S1.busy.Below σ1.temps := hw1.below hn
  have hbranch : Walks sig (⟨σ.names.size + 1, S1.busy, none⟩ :: Γ) σ1 S1
      (perform (.branch v σ.names.size (σ.names.size + 1)) ++ [.label σ.names.size])
      [⟨σ.names.size, S1.busy, none⟩] (σ1.enter σ.names.size) S1.busy :=
    .branch mem_cons_self (.refl S1) hv hn1
  have hnames : σ.names.size + 2 ≤ σ1.names.size := by
    have hle := hemits1.names
    simp only [Supply.name_names, Array.size_push] at hle
    omega
  obtain ⟨⟨S2, ts2, hw2, hsub2⟩, hemits2⟩ :=
    hbody S1.busy _ c2 σ2 h2 (show σ.names.size < σ1.names.size by omega) hn1 hsub1
  have hleave : Walks sig (⟨σ.names.size + 1, S1.busy, none⟩ :: Γ) σ2 S2
      (perform (.jump join) ++ [.label (σ.names.size + 1)]) [⟨σ.names.size + 1, S1.busy, none⟩]
      (σ2.enter (σ.names.size + 1)) S1.busy :=
    .jump (mem_cons_of_mem _ (mem_cons_of_mem _ hjoin))
      ((hentry.trans hsub1.settled).trans hsub2) (hn1.mono hemits2.temps) rfl
  have hall := (hw1.mono (nil_subset _)).append
    ((hbranch.append (hw2.mono (subset_cons_self _ _))).append hleave)
  have hclosed := hall.close (by simp)
  simp only [append_assoc] at hclosed ⊢
  exact ⟨S1.busy, _, hclosed, (Known.settled_sub S).trans hsub1⟩

/-- The blocks that the body of a loop may lead to. -/
def loopTargets (S : Known) (lp : Loop) : List Target :=
  [⟨lp.cond, S.settled, none⟩, ⟨lp.next, S.settled, none⟩]

/-- **A loop is in order.** The block of its condition and the one after it are
promised the variables that are known before it. -/
theorem loopCode_walks {body : Loop → Gen Code} (hn : S.Below σ.temps)
    (hcond : ∀ τ c v τ', cond τ = .ok ((c, v), τ') → τ.names.size > τ.current → τ.temps = σ.temps →
      ValueWalks sig S.settled τ c v τ' ∧ Emits τ [] c τ')
    (hbody : ∀ S1 lp τ c τ', body lp τ = .ok (c, τ') → τ.names.size > τ.current →
      S1.Below τ.temps → Known.Sub S.settled S1 →
      StmtWalks sig (loopTargets S lp ++ Γ) S1 τ c τ' ∧ Emits τ [] c τ')
    (h : loopCode cond body σ = .ok (c, σ')) : StmtWalks sig Γ S σ c σ' := by
  obtain ⟨c1, v, σ1, c2, σ2, h1, h2, rfl, rfl⟩ := loopCode_ok h
  obtain ⟨⟨S1, ts1, hw1, hsub1, hv⟩, hemits1⟩ := hcond _ c1 v σ1 h1 (by grind) rfl
  have hn1 : S1.busy.Below σ1.temps := hw1.below hn.settled
  have hnames : σ.names.size + 3 ≤ σ1.names.size := by
    have hle := hemits1.names
    simp only [Supply.enter_names, Supply.name_names, Array.size_push] at hle
    omega
  have hsettled : Known.Sub S.settled S1.settled := hsub1.of_settled
  obtain ⟨⟨S2, ts2, hw2, hsub2⟩, hemits2⟩ := hbody S1.busy _ _ c2 σ2 h2
    (show σ.names.size + 1 < σ1.names.size by omega) hn1 hsub1
  have hle : σ.temps ≤ σ2.temps := Nat.le_trans hemits1.temps hemits2.temps
  have henter : Walks sig (loopTargets S ⟨σ.names.size, σ.names.size + 2⟩ ++ Γ) σ S
      (perform (.jump σ.names.size) ++ [.label σ.names.size]) [⟨σ.names.size, S.settled, none⟩]
      (σ.enter σ.names.size) S.settled :=
    .jump mem_cons_self (Known.settled_sub S) hn.settled rfl
  have hbranch : Walks sig (loopTargets S ⟨σ.names.size, σ.names.size + 2⟩ ++ Γ) σ1 S1
      (perform (.branch v (σ.names.size + 1) (σ.names.size + 2)) ++ [.label (σ.names.size + 1)])
      [⟨σ.names.size + 1, S1.busy, none⟩] (σ1.enter (σ.names.size + 1)) S1.busy :=
    .branch (mem_cons_of_mem _ mem_cons_self) hsub1 hv hn1
  have hback : Walks sig (loopTargets S ⟨σ.names.size, σ.names.size + 2⟩ ++ Γ) σ2 S2
      (perform (.jump σ.names.size) ++ [.label (σ.names.size + 2)])
      [⟨σ.names.size + 2, S.settled, none⟩] (σ2.enter (σ.names.size + 2)) S.settled :=
    .jump (mem_cons_of_mem _ mem_cons_self) (hsettled.trans hsub2) (hn.settled.mono hle) rfl
  have hall := henter.append ((hw1.mono (nil_subset _)).append
    ((hbranch.append hw2).append hback))
  have hclosed := (hall.close (by simp)).close (by simp)
  simp only [append_assoc] at hclosed ⊢
  exact ⟨S.settled, _, hclosed, .refl _⟩

theorem Walks.deadEnd {op : Op} (hends : op.Ends S) (hn : S.Below σ.temps)
    (hjumps : ∀ m ∈ op.successors, ∃ T ∈ Γ, T.label = m ∧ T.phi = none ∧ Known.Sub T.entry S) :
    Walks sig Γ σ S (perform op ++ [.label σ.names.size]) [⟨σ.names.size, S.busy, none⟩]
      ((σ.name "dead").enter σ.names.size) S.busy :=
  .cut hends hn rfl fun m hm =>
    (hjumps m hm).imp fun _ hT => ⟨mem_cons_of_mem _ hT.1, hT.2⟩

theorem StmtWalks.refl : StmtWalks sig Γ S σ [] σ := ⟨S, [], .refl _ _, S.settled_sub⟩

/-- Leaving a loop is in order. -/
theorem leaveTo_walks {block : Loop → Label} (hb : Begins Γ ctx [] S σ)
    (hblock : ∀ lp, block lp ∈ exitsOf (some lp)) (h : leaveTo (ctx.loop.map block) σ = .ok (c, σ')) :
    StmtWalks sig Γ S σ c σ' := by
  obtain ⟨-, rfl, rfl⟩ | ⟨l, hl, rfl, rfl⟩ := leaveTo_ok h
  · exact .refl
  · obtain ⟨lp, hlp, rfl⟩ := Option.map_eq_some_iff.1 hl
    obtain ⟨entry, hentry, hsub⟩ := hb.exits _ (hlp ▸ hblock lp)
    refine ⟨S.busy, _, .deadEnd trivial hb.below fun m hm => ?_, S.settled_sub⟩
    cases mem_singleton.1 hm
    exact ⟨_, hentry, rfl, rfl, hsub.trans S.settled_sub⟩

theorem Open.mono {exits exits' : List Label} (h : Open Γ S exits)
    (hsub : Known.Sub S.settled S'.settled) (hexits : exits' ⊆ exits) : Open Γ S' exits' := by
  intro l hl
  obtain ⟨entry, hentry, hl⟩ := h l (hexits hl)
  exact ⟨entry, hentry, hl.trans hsub⟩

theorem StmtWalks.append {c' : Code} (h : StmtWalks sig Γ S σ c σ1)
    (h' : ∀ S1, Known.Sub S.settled S1 → S1.Below σ1.temps → StmtWalks sig Γ S1 σ1 c' σ')
    (hn : S.Below σ.temps) : StmtWalks sig Γ S σ (c ++ c') σ' := by
  obtain ⟨S1, ts, hw, hsub⟩ := h
  obtain ⟨S', ts', hw', hsub'⟩ := h' S1 hsub (hw.below hn)
  exact ⟨S', _, hw.append hw', hsub.of_settled.trans hsub'⟩

/-- Where the branches of a statement begin that meet in a block. -/
theorem Begins.join (h : Begins Γ ctx [] S σ) :
    Begins (⟨σ.names.size, S.settled, none⟩ :: Γ) ctx [σ.names.size] S (σ.name "if_end") where
  current := Supply.current_lt_name h.current _
  covers := h.covers
  below := h.below
  exits := by
    intro l hl
    rcases mem_cons.1 hl with rfl | hl
    · exact ⟨S.settled, mem_cons_self, .refl _⟩
    · exact (h.exits l hl).imp fun _ hentry => ⟨mem_cons_of_mem _ hentry.1, hentry.2⟩

/-- The end of a statement whose branches meet in a block. -/
theorem StmtWalks.join
    (h : StmtWalks sig (⟨σ.names.size, S.settled, none⟩ :: Γ) S (σ.name "if_end") c σ')
    (hn : S.Below σ.temps) : StmtWalks sig Γ S σ
      (c ++ (perform (.jump σ.names.size) ++ [.label σ.names.size])) (σ'.enter σ.names.size) := by
  obtain ⟨S', ts, hw, hsub⟩ := h
  exact ⟨S.settled, _, (hw.append (.jump mem_cons_self hsub ((hw.below hn).of_sub hsub) rfl)).close
    (by simp), .refl _⟩

/-- Straight code that ends with a store. -/
theorem Designates.store {is : List Instr} {a : Value} {scalar : Bool}
    (hg : Grows sig S σ.temps is S1 σ'.temps) (hext : σ.Extends σ') (ha : Designates S1 a scalar)
    (hv : v.Usable S1) : StmtWalks sig Γ S σ (straight (is ++ [⟨none, .store v a⟩])) σ' := by
  have hstep : Step sig S1 ⟨none, .store v a⟩ S1.busy := by
    rcases ha.target with ⟨t, rfl, ht⟩ | hpoints
    · exact .storeCell ht hv
    · exact .store hpoints hv
  have hall := hg.append (.perform (.store v a) hg.below hstep)
  exact ⟨S1.busy, [], .straight hall.code hext, (Known.settled_sub S).trans hall.sub⟩

/-- Nothing is wrong with either side of an assignment. -/
theorem findings_assign {target : LVal} {mark : Span} {value : Expr}
    (h : (Stmt.assign target mark value).findings returns env = []) :
    target.findings env = [] ∧ value.findings env = [] := by
  rw [Stmt.findings] at h
  split at h
  · cases h
  · have hboth := (append_eq_nil_iff.1 h).1
    exact append_eq_nil_iff.1 hboth

/-- **The alternatives of an `if`**, which meet in the block `join`, are in order. -/
theorem alternatives_walks {join : Label} {cond : Cond} {body : Stmt} {rest : Otherwise} {c1 c2 : Code}
    (hbody : WalksAt sig env ctx [] (lowerStmt ctx body) (body.findings returns env))
    (hrest : WalksAt sig env ctx [join] (lowerOtherwise ctx join rest) (rest.findings returns env))
    (h1 : branchCode join (truth (lowerCond ctx cond)) (lowerStmt ctx body) σ = .ok (c1, σ1))
    (h2 : lowerOtherwise ctx join rest σ1 = .ok (c2, σ')) (hb : Begins Γ ctx [join] S σ)
    (hc : Checked sig.wants env ctx.symbols
      (cond.findings env ++ body.findings returns env ++ rest.findings returns env)) :
    StmtWalks sig Γ S σ (c1 ++ c2) σ' := by
  obtain ⟨hσ, hS, hn, hexits⟩ := hb
  have hfirst : StmtWalks sig Γ S σ c1 σ1 := by
    refine branchCode_walks (hexits.mono (.refl _) (by simp)) hσ hn
      (fun τ c v τ' h hτ htemps => truth_lowerCond_walks cond h hτ hS (htemps ▸ hn) hc.left.left)
      (fun S1 τ c τ' h hτ hn' hsub => ⟨?_, lowerStmt_emits body h⟩) h1
    exact hbody h ⟨hτ, hS.of_sub hsub, hn', hexits.mono hsub.settled (by simp)⟩ hc.left.right
  have hemits := branchCode_emits (truth_emits (lowerCond_emits cond)) (lowerStmt_emits body) h1
  refine hfirst.append (fun S1 hsub hn1 => ?_) hn
  exact hrest h2 ⟨hemits.current_lt hσ, hS.mono hsub, hn1, hexits.mono hsub.of_settled (by simp)⟩ hc.right

mutual

/-- **The code of a statement is in order.** -/
theorem lowerStmt_walks {env : TyEnv} {returns : Ty} : ∀ (s : Stmt) {ctx : Context},
    WalksAt sig env ctx [] (lowerStmt ctx s) (s.findings returns env)
  | .assign target mark value, _ => fun h hb hc => by
    obtain ⟨c1, v, σ1, c2, a, scalar, h1, h2, rfl⟩ := lowerStmt_assign h
    obtain ⟨S1, hg1, hv, -⟩ := lowerExpr_grows value h1 hb.covers hb.below
      (hc.imp fun hj hnil => ⟨hj, (findings_assign hnil).2⟩)
    obtain ⟨S2, hg2, ha, -⟩ := lowerAddress_grows (fun e _ => lowerExpr_grows e) h2 (hg1.covers hb.covers) hg1.below
      (hc.imp fun hj hnil => ⟨hj, findings_lval (findings_assign hnil).1⟩)
    exact ha.store (hg1.append hg2) ((lowerExpr_extends _ h1).trans (lowerAddress_extends h2))
      (hv.mono hg2.sub)
  | .eval none, _ => fun h _ _ => by
    rw [lowerStmt] at h
    obtain ⟨rfl, rfl⟩ := pure_ok.1 h
    exact .refl
  | .eval (some e), _ => fun h hb hc => by
    obtain ⟨is, v, h1, rfl⟩ := lowerStmt_eval h
    rw [Stmt.findings] at hc
    obtain ⟨S1, hg1, -, -⟩ := lowerExpr_grows e h1 hb.covers hb.below hc
    exact ⟨S1, [], .straight hg1.code (lowerExpr_extends e h1), hg1.keeps.sub⟩
  | .block b, _ => fun h hb hc => by
    rw [lowerStmt] at h
    rw [Stmt.findings] at hc
    exact lowerBlock_walks b h { hb with covers := hb.covers.enter } hc.enter
  | .if_ cond body rest, _ => fun h hb hc => by
    obtain ⟨c1, σ1, c2, σ2, h1, h2, rfl, rfl⟩ := lowerStmt_if h
    rw [Stmt.findings] at hc
    rw [← append_assoc]
    exact (alternatives_walks (lowerStmt_walks body) (lowerOtherwise_walks rest) h1 h2 hb.join hc).join
      hb.below
  | .while_ cond body, _ => fun h hb hc => by
    rw [lowerStmt] at h
    rw [Stmt.findings] at hc
    have hS := hb.covers.mono (.refl _)
    refine loopCode_walks hb.below (fun τ c v τ' h hτ htemps =>
        truth_lowerCond_walks cond h hτ hS (htemps ▸ hb.below.settled) hc.left)
      (fun S1 lp τ c τ' h hτ hn' hsub => ⟨?_, lowerStmt_emits body h⟩) h
    refine lowerStmt_walks body h ⟨hτ, hb.covers.mono hsub, hn', fun l hl => ?_⟩ hc.right
    obtain rfl | rfl : l = lp.cond ∨ l = lp.next := by simpa [exitsOf] using hl
    · exact ⟨_, by simp [loopTargets], hsub.of_settled⟩
    · exact ⟨_, by simp [loopTargets], hsub.of_settled⟩
  | .break_ _, _ | .continue_ _, _ => fun h hb _ => by
    rw [lowerStmt] at h
    exact leaveTo_walks hb (fun lp => by simp [exitsOf]) h
  | .return_ _ none, _ => fun h hb _ => by
    rw [lowerStmt] at h
    obtain ⟨rfl, rfl⟩ := deadEnd_ok.1 h
    exact ⟨_, _, .deadEnd trivial hb.below nofun, Known.settled_sub _⟩
  | .return_ _ (some e), _ => fun h hb hc => by
    obtain ⟨is, v, σ1, h1, rfl, rfl⟩ := lowerStmt_return h
    rw [Stmt.findings] at hc
    obtain ⟨S1, hg1, hv, -⟩ := lowerExpr_grows e h1 hb.covers hb.below hc.left
    have hcode : straight (is ++ [⟨none, .ret v⟩]) ++ [.label σ1.names.size]
        = straight is ++ (perform (.ret v) ++ [.label σ1.names.size]) := by simp [straight, perform]
    rw [hcode]
    exact ⟨S1.busy, _, .append (.straight hg1.code (lowerExpr_extends e h1))
      (.deadEnd hv hg1.below nofun), hg1.keeps.sub⟩

theorem lowerBlock_walks {env : TyEnv} {returns : Ty} : ∀ (b : Block) {ctx : Context},
    WalksAt sig env ctx [] (lowerBlock ctx b) (b.findings returns env)
  | .nil, _ => fun h _ _ => by
    rw [lowerBlock] at h
    obtain ⟨rfl, rfl⟩ := pure_ok.1 h
    exact .refl
  | .decl d rest, _ => fun h hb hc => by
    obtain ⟨is, symbols, σ1, c2, h1, h2, rfl⟩ := lowerBlock_decl h
    rw [Block.findings] at hc
    obtain ⟨S1, hkeeps, hS1, hc1⟩ := lowerDefinitions_keeps h1 hb.covers hb.below hc
    have hext := lowerDefinitions_extends h1
    have hlt : σ1.names.size > σ1.current := by
      rw [hext.names, hext.current]
      exact hb.current
    obtain ⟨S2, ts, hw, hsub⟩ := lowerBlock_walks rest h2
      ⟨hlt, hS1, hkeeps.below, hb.exits.mono hkeeps.sub.of_settled (by simp)⟩ hc1
    exact ⟨S2, _, .append (.straight hkeeps.code hext) hw, hkeeps.sub.of_settled.trans hsub⟩
  | .stmt s rest, _ => fun h hb hc => by
    obtain ⟨c1, σ1, c2, h1, h2, rfl⟩ := lowerBlock_stmt h
    rw [Block.findings] at hc
    refine (lowerStmt_walks s h1 hb hc.left).append (fun S1 hsub hn1 => ?_) hb.below
    exact lowerBlock_walks rest h2 ⟨(lowerStmt_emits s h1).current_lt hb.current, hb.covers.mono hsub,
      hn1, hb.exits.mono hsub.of_settled (by simp)⟩ hc.right

theorem lowerOtherwise_walks {env : TyEnv} {returns : Ty} : ∀ (o : Otherwise) {ctx : Context}
    {join : Label}, WalksAt sig env ctx [join] (lowerOtherwise ctx join o) (o.findings returns env)
  | .done, _, _ => fun h _ _ => by
    rw [lowerOtherwise] at h
    obtain ⟨rfl, rfl⟩ := pure_ok.1 h
    exact .refl
  | .else_ s, _, _ => fun h hb hc => by
    rw [lowerOtherwise] at h
    rw [Otherwise.findings] at hc
    exact lowerStmt_walks s h { hb with exits := hb.exits.mono (.refl _) (by simp) } hc
  | .elseIf cond body rest, _, _ => fun h hb hc => by
    obtain ⟨c1, σ1, c2, h1, h2, rfl⟩ := lowerOtherwise_elseIf h
    rw [Otherwise.findings] at hc
    exact alternatives_walks (lowerStmt_walks body) (lowerOtherwise_walks rest) h1 h2 hb hc

end

end SysY.Lower
