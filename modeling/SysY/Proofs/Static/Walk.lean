import SysY.Proofs.Static.Straight

/-!
# Code with blocks knows what it reads

Code is walked from its beginning to its end. Where a block ends and the next
one begins the walk is *cut*: what was known is left behind, and the next
block begins with what its label promises. A promise is kept if every jump to
the label happens where at least as much is known (`Resolved`).

The one temporary that is promised without having been assigned in order is
that of a phi. It is assigned by copies at the ends of the blocks that lead to
the phi, and the cuts record these copies. So the copies that the phis of the
code ask for are those of the cuts, in some other order.
-/

namespace SysY.Lower

open IR (Value Op Instr Line Label Temp Kind Known Signatures Step Straight)
open List

/-! ## Cuts -/

/-- A block that can be jumped to. -/
structure Target where
  label : Label
  /-- What is known where it begins. -/
  entry : Known
  /-- The temporary of the phi with which it begins, if it begins with one. -/
  phi : Option Temp

/-- The end of a block. -/
structure Exit where
  ended : Label
  /-- What is known then. -/
  known : Known
  /-- The copy into a phi's temporary that is made then. -/
  copy : Option (Temp × Value)
  /-- The operation that ends the block. -/
  op : Op

/-- The end of a block and the beginning of the next one. -/
structure Cut extends Exit where
  target : Target

/-- Enough is known at the end of a block to jump to another one. -/
def Exit.Accepts (e : Exit) (T : Target) : Prop :=
  match T.phi with
  | none => Known.Sub T.entry e.known
  | some t => ∃ v, e.copy = some (t, v) ∧ Known.Sub T.entry (e.known.add t .data)

/-- The copies that are made at the end of a block. -/
def Exit.copies (e : Exit) : List (Label × Line) :=
  e.copy.toList.map fun (t, v) => (e.ended, .copy t v)

/-- **Every jump leads to a block that can be jumped to**, one of those that
begin at the cuts or of some others; and every copy is made for a phi with
which a block begins that the end leads to. -/
structure Resolved (Γ : List Target) (ks : List Cut) : Prop where
  /-- There is a block for every jump. -/
  jumps : ∀ k ∈ ks, ∀ l ∈ k.op.successors,
    ∃ T ∈ ks.map (·.target) ++ Γ, T.label = l ∧ k.Accepts T
  /-- There is a phi for every copy. -/
  copies : ∀ k ∈ ks, ∀ t v, k.copy = some (t, v) →
    ∃ T ∈ ks.map (·.target), T.phi = some t ∧ T.label ∈ k.op.successors

namespace Resolved

variable {Γ Γ' : List Target} {T : Target} {ks ks' : List Cut}

theorem nil : Resolved Γ [] where
  jumps := fun _ h => absurd h not_mem_nil
  copies := fun _ h => absurd h not_mem_nil

theorem append (h : Resolved Γ ks) (h' : Resolved Γ ks') : Resolved Γ (ks ++ ks') where
  jumps := by
    intro k hk l hl
    simp only [map_append, mem_append] at hk ⊢
    rcases hk with hk | hk
    · obtain ⟨T, hT, hlabel⟩ := h.jumps k hk l hl
      exact ⟨T, (mem_append.1 hT).imp_left .inl, hlabel⟩
    · obtain ⟨T, hT, hlabel⟩ := h'.jumps k hk l hl
      exact ⟨T, (mem_append.1 hT).imp_left .inr, hlabel⟩
  copies := by
    intro k hk t v hcopy
    simp only [map_append, mem_append] at hk ⊢
    rcases hk with hk | hk
    · obtain ⟨T, hT, hphi⟩ := h.copies k hk t v hcopy
      exact ⟨T, .inl hT, hphi⟩
    · obtain ⟨T, hT, hphi⟩ := h'.copies k hk t v hcopy
      exact ⟨T, .inr hT, hphi⟩

theorem mono (h : Resolved Γ ks) (hsub : Γ ⊆ Γ') : Resolved Γ' ks where
  jumps := by
    intro k hk l hl
    obtain ⟨T, hT, hlabel⟩ := h.jumps k hk l hl
    refine ⟨T, ?_, hlabel⟩
    rw [mem_append] at hT ⊢
    exact hT.imp_right (hsub ·)
  copies := h.copies

/-- A block that begins at a cut need not be asked for. -/
theorem close (h : Resolved (T :: Γ) ks) (hT : T ∈ ks.map (·.target)) : Resolved Γ ks where
  jumps := by
    intro k hk l hl
    obtain ⟨T', hT', hlabel⟩ := h.jumps k hk l hl
    refine ⟨T', ?_, hlabel⟩
    simp only [mem_append, mem_cons] at hT' ⊢
    rcases hT' with hT' | rfl | hT'
    · exact .inl hT'
    · exact .inl hT
    · exact .inr hT'
  copies := h.copies

end Resolved

/-! ## Walks -/

/-- **A walk through code**: from a block, what is known in it and the number of
the next temporary, to those at the end of the code, with the cuts on the
way. -/
inductive Walk (sig : Signatures) :
    Label → Known → Nat → Code → List Cut → Label → Known → Nat → Prop
  | nil {l S n} : Walk sig l S n [] [] l S n
  | define {l S n op S1 c ks l' S' n'} : Step sig S ⟨some n, op⟩ S1 →
    Walk sig l S1 (n + 1) c ks l' S' n' →
    Walk sig l S n (.instr ⟨some n, op⟩ :: c) ks l' S' n'
  | perform {l S n op S1 c ks l' S' n'} : Step sig S ⟨none, op⟩ S1 →
    Walk sig l S1 n c ks l' S' n' → Walk sig l S n (.instr ⟨none, op⟩ :: c) ks l' S' n'
  /-- The end of a block, before one that has no phi. -/
  | cut {l S n op copy next entry c ks l' S' n'} : op.Ends S →
    (∀ t v, copy = some (t, v) → v.Held S ∧ n ≤ t) → entry.Below n → entry.args = false →
    Walk sig next entry n c ks l' S' n' →
    Walk sig l S n (.instr ⟨none, op⟩ :: .label next :: c)
      (⟨⟨l, S, copy, op⟩, ⟨next, entry, none⟩⟩ :: ks) l' S' n'
  /-- The end of a block, before one that begins with a phi. -/
  | join {l S n op v next a la b lb c ks l' S' n'} {entry : Known} : op.Ends S → v.Held S → la ≠ lb →
    entry.Below n → entry.args = false → Walk sig next (entry.add n .data) (n + 1) c ks l' S' n' →
    Walk sig l S n (.instr ⟨none, op⟩ :: .label next :: .instr ⟨some n, .phi a la b lb⟩ :: c)
      (⟨⟨l, S, some (n, v), op⟩, ⟨next, entry.add n .data, some n⟩⟩ :: ks) l' S' n'

namespace Walk

variable {sig : Signatures} {l l1 l' : Label} {S S1 S' : Known} {n n1 n' : Nat} {c c' : Code}
  {ks ks' : List Cut} {is : List Instr}

theorem append (h : Walk sig l S n c ks l1 S1 n1) (h' : Walk sig l1 S1 n1 c' ks' l' S' n') :
    Walk sig l S n (c ++ c') (ks ++ ks') l' S' n' := by
  induction h with
  | nil => exact h'
  | define hstep _ ih => exact .define hstep (ih h')
  | perform hstep _ ih => exact .perform hstep (ih h')
  | cut hends hcopy hbelow hargs _ ih => exact .cut hends hcopy hbelow hargs (ih h')
  | join hends hv hne hbelow hargs _ ih => exact .join hends hv hne hbelow hargs (ih h')

theorem straight (h : Straight sig S n is S' n') (l : Label) :
    Walk sig l S n (Lower.straight is) [] l S' n' := by
  induction h with
  | nil => exact .nil
  | define hstep _ ih => exact .define hstep ih
  | perform hstep _ ih => exact .perform hstep ih

theorem known_below (h : Walk sig l S n c ks l' S' n') (hS : S.Below n) : S'.Below n' := by
  induction h with
  | nil => exact hS
  | define hstep _ ih => exact ih (hstep.below_define hS)
  | perform hstep _ ih => exact ih (hstep.below_perform hS)
  | cut _ _ hbelow _ _ ih => exact ih hbelow
  | join _ _ _ hbelow _ _ ih => exact ih (hbelow.add _)

end Walk

/-! ## Copies -/

/-- The copies that the phis of code ask for. -/
def phiCopies (c : Code) : List (Label × Line) :=
  c.flatMap fun
    | .instr i => i.copies
    | .label _ => []

/-- The copies that are made at cuts. -/
def cutCopies (ks : List Cut) : List (Label × Line) :=
  ks.flatMap (·.copies)

@[simp] theorem phiCopies_append (c c' : Code) :
    phiCopies (c ++ c') = phiCopies c ++ phiCopies c' :=
  flatMap_append

@[simp] theorem phiCopies_nil : phiCopies [] = [] := rfl

@[simp] theorem phiCopies_label (l : Label) (c : Code) :
    phiCopies (.label l :: c) = phiCopies c := rfl

@[simp] theorem phiCopies_perform (op : Op) : phiCopies (perform op) = [] := rfl

@[simp] theorem cutCopies_append (ks ks' : List Cut) :
    cutCopies (ks ++ ks') = cutCopies ks ++ cutCopies ks' :=
  flatMap_append

theorem phiCopies_straight {sig : Signatures} {S S' : Known} {n n' : Nat} {is : List Instr}
    (h : Straight sig S n is S' n') : phiCopies (straight is) = [] := by
  induction h with
  | nil => rfl
  | define hstep _ ih =>
    refine (append_eq_nil_iff).2 ⟨?_, ih⟩
    cases hstep <;> rfl
  | perform hstep _ ih => exact ih

/-! ## Walks that are in order -/

/-- **Code whose walk is in order**: the blocks `ts` begin in it, every jump is
resolved, and the copies that phis ask for are made. -/
def Walks (sig : Signatures) (Γ : List Target) (σ : Supply) (S : Known) (c : Code)
    (ts : List Target) (σ' : Supply) (S' : Known) : Prop :=
  ∃ ks, Walk sig σ.current S σ.temps c ks σ'.current S' σ'.temps ∧ Resolved Γ ks ∧
    (phiCopies c).Perm (cutCopies ks) ∧ ks.map (·.target) = ts

namespace Walks

variable {sig : Signatures} {Γ Γ' : List Target} {T : Target} {σ σ1 σ' : Supply} {S S1 S' : Known}
  {c c' : Code} {ts ts' : List Target} {is : List Instr}

theorem straight (h : Straight sig S σ.temps is S' σ'.temps) (hext : σ.Extends σ') :
    Walks sig Γ σ S (Lower.straight is) [] σ' S' := by
  refine ⟨[], ?_, .nil, ?_, rfl⟩
  · rw [hext.current]
    exact .straight h _
  · rw [phiCopies_straight h]
    exact .nil

protected theorem refl (σ : Supply) (S : Known) : Walks sig Γ σ S [] [] σ S :=
  ⟨[], .nil, .nil, .nil, rfl⟩

theorem append (h : Walks sig Γ σ S c ts σ1 S1) (h' : Walks sig Γ σ1 S1 c' ts' σ' S') :
    Walks sig Γ σ S (c ++ c') (ts ++ ts') σ' S' := by
  obtain ⟨ks, hwalk, hres, hperm, rfl⟩ := h
  obtain ⟨ks', hwalk', hres', hperm', rfl⟩ := h'
  refine ⟨ks ++ ks', hwalk.append hwalk', hres.append hres', ?_, map_append⟩
  rw [phiCopies_append, cutCopies_append]
  exact hperm.append hperm'

theorem mono (h : Walks sig Γ σ S c ts σ' S') (hsub : Γ ⊆ Γ') : Walks sig Γ' σ S c ts σ' S' := by
  obtain ⟨ks, hwalk, hres, hperm, hts⟩ := h
  exact ⟨ks, hwalk, hres.mono hsub, hperm, hts⟩

theorem close (h : Walks sig (T :: Γ) σ S c ts σ' S') (hT : T ∈ ts) :
    Walks sig Γ σ S c ts σ' S' := by
  obtain ⟨ks, hwalk, hres, hperm, rfl⟩ := h
  exact ⟨ks, hwalk, hres.close hT, hperm, rfl⟩

/-- The end of a block that no phi asks a copy of. -/
theorem cut {op : Op} {l : Label} {entry : Known} (hends : op.Ends S) (hbelow : entry.Below σ.temps)
    (hargs : entry.args = false)
    (hjumps : ∀ m ∈ op.successors, ∃ T ∈ ⟨l, entry, none⟩ :: Γ,
      T.label = m ∧ T.phi = none ∧ Known.Sub T.entry S) :
    Walks sig Γ σ S (perform op ++ [.label l]) [⟨l, entry, none⟩] (σ.enter l) entry := by
  refine ⟨[⟨⟨σ.current, S, none, op⟩, ⟨l, entry, none⟩⟩],
    .cut hends nofun hbelow hargs .nil, ⟨?_, ?_⟩, .nil, rfl⟩
  · intro k hk m hm
    cases mem_singleton.1 hk
    obtain ⟨T, hT, hlabel, hphi, hsub⟩ := hjumps m hm
    refine ⟨T, hT, hlabel, ?_⟩
    unfold Exit.Accepts
    rw [hphi]
    exact hsub
  · intro k hk t v hcopy
    cases mem_singleton.1 hk
    cases hcopy

/-- A jump, after which a block begins. -/
theorem jump {l next : Label} {entry entry' : Known}
    (hl : ⟨l, entry', none⟩ ∈ (⟨next, entry, none⟩ : Target) :: Γ) (hsub : Known.Sub entry' S)
    (hbelow : entry.Below σ.temps) (hargs : entry.args = false) :
    Walks sig Γ σ S (perform (.jump l) ++ [.label next]) [⟨next, entry, none⟩] (σ.enter next)
      entry := by
  refine .cut trivial hbelow hargs fun m hm => ?_
  cases mem_singleton.1 hm
  exact ⟨_, hl, rfl, rfl, hsub⟩

/-- A branch to the block that begins after it or to another one. -/
theorem branch {v : Value} {yes no : Label} {entry : Known} (hno : ⟨no, entry, none⟩ ∈ Γ)
    (hsub : Known.Sub entry S) (hv : v.Usable S) (hbelow : S.Below σ.temps) :
    Walks sig Γ σ S (perform (.branch v yes no) ++ [.label yes]) [⟨yes, S.busy, none⟩]
      (σ.enter yes) S.busy := by
  refine .cut hv hbelow rfl fun m hm => ?_
  rcases mem_cons.1 hm with rfl | hm
  · exact ⟨_, mem_cons_self, rfl, rfl, .refl S⟩
  · cases mem_singleton.1 hm
    exact ⟨_, mem_cons_of_mem _ hno, rfl, rfl, hsub⟩

theorem below (h : Walks sig Γ σ S c ts σ' S') (hS : S.Below σ.temps) : S'.Below σ'.temps := by
  obtain ⟨ks, hwalk, -, -, -⟩ := h
  exact hwalk.known_below hS

end Walks

end SysY.Lower
