import Mathlib.Data.List.Nodup
import Mathlib.Tactic.ByContra
import Mathlib.Tactic.Set
import SysY.Alloc.Plan

/-!
# The places of a plan

A plan is sound if it places exactly the temporaries that have an interval,
and never puts two of them in one place while both are live.

The delicate case is an eviction. The temporary that makes way has been in a
register since its interval began, and is moved to a slot *for its whole
life*: the slot has to have been free all that time, although it is taken
only now. What makes this work is that a slot never looks freer than it is.
Its *horizon* is the first line at which nothing that was ever put into it is
live; to free a slot does not move its horizon, and a slot is only given to
an interval that begins at or after it.

Registers need no memory of this kind. Whoever was in a register and is not
any more is either dead or has been moved elsewhere, also for the past.
-/

namespace SysY

open List

/-- Two intervals without a common line. -/
def Interval.Apart (i j : Interval) : Prop := i.stop < j.start ∨ j.stop < i.start

/-- Intervals that are apart have no line in common. -/
theorem Interval.Apart.not_covers {i j : Interval} (h : i.Apart j) (line : Nat)
    (hi : i.covers line = true) : j.covers line = false := by
  simp only [covers, Bool.and_eq_true, decide_eq_true_eq] at hi
  simp only [covers, Bool.and_eq_false_iff, decide_eq_false_iff_not, Nat.not_le]
  rcases h with h | h <;> omega

/-- The interval of a temporary, if it has one. -/
def intervalAt (intervals : Array (Option Interval)) (t : Nat) : Option Interval :=
  intervals[t]?.join

/-- No interval ends before it begins. -/
def Ordered (intervals : Array (Option Interval)) : Prop :=
  ∀ t i, intervalAt intervals t = some i → i.start ≤ i.stop

variable {ρ : Type}

/-- The place that was given to a temporary, if one was. -/
def placeAt (places : Array (Option (Place ρ))) (t : Nat) : Option (Place ρ) := places[t]?.join

/-- Noting a place changes what is noted of that temporary only. -/
theorem placeAt_setIfInBounds {places : Array (Option (Place ρ))} {t u : Nat}
    {p : Option (Place ρ)} (ht : t < places.size) :
    placeAt (places.setIfInBounds t p) u = if u = t then p else placeAt places u := by
  unfold placeAt
  rw [Array.getElem?_setIfInBounds]
  by_cases h : t = u
  · subst h
    simp [ht]
  · rw [if_neg h, if_neg (Ne.symm h)]

/-- A temporary that has an interval is one of those that have places. -/
theorem lt_size_of_intervalAt {intervals : Array (Option Interval)} {t : Nat} {i : Interval}
    (h : intervalAt intervals t = some i) : t < intervals.size := by
  unfold intervalAt at h
  by_contra hge
  rw [Array.getElem?_eq_none (Nat.le_of_not_lt hge)] at h
  cases h

namespace Slot

/-- The first line at which nothing that was ever put into the slot is live. -/
def horizon (s : Slot) : Nat :=
  match s.takenUntil with
  | some stop => stop + 1
  | none => s.freeSince

/-- Freeing a slot does not move its horizon. -/
@[simp] theorem horizon_expire (line : Nat) (s : Slot) : (s.expire line).horizon = s.horizon := by
  rcases s with ⟨_ | stop, since⟩
  · rfl
  · unfold expire
    dsimp only
    split <;> rfl

/-- A slot is only given to intervals that begin at or after its horizon. -/
theorem horizon_le_of_freeFrom {s : Slot} {start : Nat} (h : s.freeFrom start = true) :
    s.horizon ≤ start := by
  rcases s with ⟨_ | stop, since⟩
  · simpa [freeFrom, horizon] using h
  · simp [freeFrom] at h

end Slot

/-! ## Taking a place -/

/-- **Taking a slot.** The slot that is taken is one of the slots afterwards,
and is taken until the interval ends; if it was there before, its horizon was
not beyond the interval's start. All other slots are as they were. -/
theorem takeSlot_spec (i : Interval) (slots : List Slot) :
    ((takeSlot i slots).2[(takeSlot i slots).1]?).map Slot.horizon = some (i.stop + 1) ∧
    (∀ s, slots[(takeSlot i slots).1]? = some s → s.horizon ≤ i.start) ∧
    ∀ n, n ≠ (takeSlot i slots).1 → (takeSlot i slots).2[n]? = slots[n]? := by
  induction slots with
  | nil => refine ⟨rfl, by simp, fun n hn => ?_⟩; cases n <;> simp_all [takeSlot]
  | cons s slots ih =>
    unfold takeSlot
    by_cases h : s.freeFrom i.start = true
    · rw [if_pos h]
      refine ⟨rfl, fun s' hs' => ?_, fun n hn => ?_⟩
      · cases hs'
        exact Slot.horizon_le_of_freeFrom h
      · cases n with
        | zero => exact absurd rfl hn
        | succ n => rfl
    · rw [if_neg h]
      obtain ⟨ih1, ih2, ih3⟩ := ih
      refine ⟨ih1, ih2, fun n hn => ?_⟩
      cases n with
      | zero => rfl
      | succ n => exact ih3 n fun hc => hn (congrArg Nat.succ hc)

variable {rs : List (Resident ρ)} {r : ρ} {old o : Occupant} {rs' : List (Resident ρ)} {next : Nat}

/-- **Taking a register.** It was free, or the one who makes way was in it, and
nobody else moves. -/
theorem takeRegister_spec {old : Option Occupant} {new : Occupant} {reg : ρ}
    (h : takeRegister old new rs = some (reg, rs')) :
    ∃ before after, rs = before ++ ⟨reg, old⟩ :: after ∧
      rs' = before ++ ⟨reg, some new⟩ :: after := by
  induction rs generalizing rs' with
  | nil => cases h
  | cons r rs ih =>
    unfold takeRegister at h
    split at h
    next ho =>
      cases h
      exact ⟨[], rs, by rw [← ho]; rfl, rfl⟩
    next =>
      obtain ⟨⟨reg'', rs''⟩, h', hcons⟩ := Option.map_eq_some_iff.1 h
      cases hcons
      obtain ⟨before, after, rfl, rfl⟩ := ih h'
      exact ⟨_ :: before, after, rfl, rfl⟩

/-- A fold that keeps what it has or takes the next item ends with what it began
with or with an item. -/
theorem mem_of_foldl {α : Type} {f : Option α → α → Option α}
    (hf : ∀ best x, f best x = best ∨ f best x = some x) {best : Option α} {x : α} {xs : List α}
    (h : xs.foldl f best = some x) : best = some x ∨ x ∈ xs := by
  induction xs generalizing best with
  | nil => exact .inl h
  | cons y xs ih =>
    rcases ih h with heq | hmem
    · rcases hf best y with hkeep | htake
      · exact .inl (hkeep ▸ heq)
      · exact .inr (Option.some.inj (htake.symm.trans heq) ▸ mem_cons_self)
    · exact .inr (mem_cons_of_mem _ hmem)

/-- Who has to make way is in a register. -/
theorem mem_of_victim? {stop : Nat} (h : victim? stop rs = some o) : ∃ r, ⟨r, some o⟩ ∈ rs := by
  refine (mem_of_foldl (fun best o' => ?_) h).elim (fun hnone => by cases hnone) fun hmem => ?_
  · cases best with
    | none => exact .inr rfl
    | some b =>
      dsimp only [Occupant.later]
      split
      · exact .inr rfl
      · exact .inl rfl
  · obtain ⟨⟨r, _⟩, hr, rfl⟩ := mem_filterMap.1 (mem_filter.1 hmem).1
    exact ⟨r, hr⟩

/-- Who is in a register can be replaced. -/
theorem exists_takeRegister (h : ⟨r, some old⟩ ∈ rs) (new : Occupant) :
    ∃ reg rs', takeRegister (some old) new rs = some (reg, rs') := by
  induction rs with
  | nil => cases h
  | cons r' rs ih =>
    unfold takeRegister
    split
    next => exact ⟨_, _, rfl⟩
    next hne =>
      rcases mem_cons.1 h with rfl | h
      · exact absurd rfl hne
      · obtain ⟨reg, rs', hrs'⟩ := ih h
        exact ⟨reg, r' :: rs', by rw [hrs']; rfl⟩

/-! ## What holds while places are given -/

namespace Planning

/-- **The invariant of planning,** when all intervals that begin before `line`
have been given places. -/
structure Sound (intervals : Array (Option Interval)) (pool : List ρ) (line : Nat)
    (s : Planning ρ) : Prop where
  /-- The registers are those of the pool. -/
  regs : s.residents.map (·.reg) = pool
  /-- There is an entry for every temporary. -/
  size : s.places.size = intervals.size
  /-- Only temporaries that are live somewhere are given places. -/
  live : ∀ t p, placeAt s.places t = some p → ∃ i, intervalAt intervals t = some i
  /-- Registers are given from the pool. -/
  given : ∀ t r, placeAt s.places t = some (.register r) → r ∈ pool
  /-- Who is in a register has that register for a place. -/
  resident : ∀ r o, ⟨r, some o⟩ ∈ s.residents → placeAt s.places o.temp = some (.register r)
  /-- Who is in a register is noted with the end of its interval. -/
  stops : ∀ r o i, ⟨r, some o⟩ ∈ s.residents → intervalAt intervals o.temp = some i →
    o.stop = i.stop
  /-- Whose place is a register is in it, or is dead. -/
  held : ∀ t i r, placeAt s.places t = some (.register r) → intervalAt intervals t = some i →
    ⟨r, some ⟨t, i.stop⟩⟩ ∈ s.residents ∨ i.stop < line
  /-- Whose place is a slot is dead at the slot's horizon. -/
  slot : ∀ t i n, placeAt s.places t = some (.slot n) → intervalAt intervals t = some i →
    ∃ sl, s.slots[n]? = some sl ∧ i.stop < sl.horizon
  /-- Temporaries in one place are not live together. -/
  apart : ∀ t u p i j, t ≠ u → placeAt s.places t = some p → placeAt s.places u = some p →
    intervalAt intervals t = some i → intervalAt intervals u = some j → i.Apart j

variable {intervals : Array (Option Interval)} {pool : List ρ} {line : Nat} {s : Planning ρ}

/-- Who is left when the dead leave was there before. -/
theorem mem_of_mem_expire (h : ⟨r, some o⟩ ∈ (s.expire next).residents) :
    ⟨r, some o⟩ ∈ s.residents := by
  obtain ⟨⟨r', o'⟩, hmem, heq⟩ := mem_map.1 h
  rw [Resident.expire, Resident.mk.injEq] at heq
  obtain ⟨rfl, ho⟩ := heq
  obtain ⟨rfl, -⟩ := Option.filter_eq_some_iff.1 ho
  exact hmem

/-- When the dead leave, the invariant holds of a later line. -/
theorem Sound.expire (h : s.Sound intervals pool line) (hle : line ≤ next) :
    (s.expire next).Sound intervals pool next where
  regs := by
    rw [← h.regs]
    simp [Planning.expire, Resident.expire, Function.comp_def]
  size := h.size
  live := h.live
  given := h.given
  resident := fun r o hr => h.resident r o (mem_of_mem_expire hr)
  stops := fun r o i hr => h.stops r o i (mem_of_mem_expire hr)
  held := by
    intro t i r ht hi
    rcases h.held t i r ht hi with hmem | hdead
    · by_cases hstop : next ≤ i.stop
      · refine Or.inl (mem_map.2 ⟨_, hmem, ?_⟩)
        simp [Resident.expire, hstop]
      · exact Or.inr (Nat.lt_of_not_le hstop)
    · exact Or.inr (Nat.lt_of_lt_of_le hdead hle)
  slot := by
    intro t i n ht hi
    obtain ⟨sl, hsl, hlt⟩ := h.slot t i n ht hi
    refine ⟨sl.expire next, ?_, by rwa [Slot.horizon_expire]⟩
    show (s.slots.map _)[n]? = _
    rw [getElem?_map, hsl]
    rfl
  apart := h.apart

variable {i : Interval} {t : Nat} {after before : List (Resident ρ)} {reg : ρ}

section

variable (h : s.Sound intervals pool line)

include h

theorem Sound.lt_size (hi : intervalAt intervals t = some i) : t < s.places.size :=
  h.size ▸ lt_size_of_intervalAt hi

/-- The occupants of other registers than a given one. -/
theorem Sound.reg_ne (hpool : pool.Nodup) {o o' : Option Occupant}
    (hs : s.residents = before ++ ⟨reg, o⟩ :: after) (hr : ⟨r, o'⟩ ∈ before ++ after) :
    r ≠ reg := by
  rintro rfl
  have hnodup : ((before ++ ⟨r, o⟩ :: after).map (·.reg)).Nodup := by
    rw [← hs, h.regs]
    exact hpool
  rw [map_append, map_cons, nodup_middle, ← map_append] at hnodup
  exact (nodup_cons.1 hnodup).1 (mem_map.2 ⟨_, hr, rfl⟩)

/-- **Making way.** If the occupant of a register leaves it, and with it any
place, the invariant is kept. -/
theorem Sound.vacate (hpool : pool.Nodup)
    (hs : s.residents = before ++ ⟨reg, some old⟩ :: after) :
    Sound intervals pool line { s with
      residents := before ++ ⟨reg, none⟩ :: after
      places := s.places.setIfInBounds old.temp none } := by
  have hold : placeAt s.places old.temp = some (.register reg) :=
    h.resident reg old (by rw [hs]; simp)
  obtain ⟨iold, hiold⟩ := h.live _ _ hold
  have hbound := h.lt_size hiold
  -- all that remains placed was placed before, and is not the one who left
  have hplace : ∀ u p, placeAt (s.places.setIfInBounds old.temp none) u = some p →
      u ≠ old.temp ∧ placeAt s.places u = some p := by
    intro u p hu
    rw [placeAt_setIfInBounds hbound] at hu
    split at hu
    · cases hu
    · exact ⟨‹_›, hu⟩
  have hmem : ∀ r o, ⟨r, some o⟩ ∈ before ++ ⟨reg, none⟩ :: after →
      ⟨r, some o⟩ ∈ before ++ after ∧ ⟨r, some o⟩ ∈ s.residents := by
    intro r o hr
    have hr' : ⟨r, some o⟩ ∈ before ++ after := by simpa using hr
    refine ⟨hr', ?_⟩
    rw [hs]
    simp only [mem_append, mem_cons] at hr' ⊢
    exact hr'.imp id Or.inr
  refine ⟨?_, ?_, ?_, ?_, ?_, ?_, ?_, ?_, ?_⟩
  · rw [← h.regs, hs]
    simp
  · rw [Array.size_setIfInBounds]
    exact h.size
  · exact fun t p ht => h.live t p (hplace t p ht).2
  · exact fun t r ht => h.given t r (hplace t _ ht).2
  · intro r o hr
    obtain ⟨hr', hr⟩ := hmem r o hr
    have ho := h.resident r o hr
    have hne : o.temp ≠ old.temp := by
      intro heq
      rw [heq, hold] at ho
      exact h.reg_ne hpool hs hr' (Place.register.inj (Option.some.inj ho)).symm
    show placeAt _ o.temp = _
    rw [placeAt_setIfInBounds hbound, if_neg hne]
    exact ho
  · exact fun r o i hr => h.stops r o i (hmem r o hr).2
  · intro t i r ht hi
    obtain ⟨hne, ht⟩ := hplace t _ ht
    refine (h.held t i r ht hi).imp (fun hmem => ?_) id
    rw [hs] at hmem
    simp only [mem_append, mem_cons, Resident.mk.injEq, Option.some.injEq] at hmem ⊢
    rcases hmem with hmem | ⟨-, rfl⟩ | hmem
    · exact Or.inl hmem
    · exact absurd rfl hne
    · exact Or.inr (Or.inr hmem)
  · exact fun t i n ht hi => h.slot t i n (hplace t _ ht).2 hi
  · exact fun t u p i j hne ht hu => h.apart t u p i j hne (hplace t _ ht).2 (hplace u _ hu).2

/-- **Noting a place.** A temporary without a place may be given one where all
others are dead when its interval begins, if nobody else moves and no slot
looks freer than before. -/
theorem Sound.settle {s' : Planning ρ}
    {place : Place ρ} (hi : intervalAt intervals t = some i) (hfree : placeAt s.places t = none)
    (hplaces : s'.places = s.places.setIfInBounds t (some place))
    (hpast : ∀ u j, placeAt s.places u = some place → intervalAt intervals u = some j →
      j.stop < i.start)
    (hregs : s'.residents.map (·.reg) = pool) (hgiven : ∀ r, place = .register r → r ∈ pool)
    (hmem : ∀ r o, ⟨r, some o⟩ ∈ s'.residents ↔
      place = .register r ∧ o = ⟨t, i.stop⟩ ∨ ⟨r, some o⟩ ∈ s.residents)
    (htaken : ∀ n, place = .slot n → ∃ sl, s'.slots[n]? = some sl ∧ i.stop < sl.horizon)
    (hslots : ∀ (n : Nat) (sl : Slot), s.slots[n]? = some sl →
      ∃ sl', s'.slots[n]? = some sl' ∧ sl.horizon ≤ sl'.horizon) :
    s'.Sound intervals pool line := by
  -- who is placed is the new one, or was placed before
  have hplace : ∀ u, placeAt s'.places u = if u = t then some place else placeAt s.places u := by
    intro u
    rw [hplaces, placeAt_setIfInBounds (h.lt_size hi)]
  have hcases : ∀ u p j, placeAt s'.places u = some p → intervalAt intervals u = some j →
      u = t ∧ p = place ∧ j = i ∨ u ≠ t ∧ placeAt s.places u = some p := by
    intro u p j hu hj
    rw [hplace] at hu
    split at hu
    next heq =>
      cases hu
      exact .inl ⟨heq, rfl, Option.some.inj (hj.symm.trans (heq ▸ hi))⟩
    next hne => exact .inr ⟨hne, hu⟩
  have hlive : ∀ u p, placeAt s'.places u = some p → ∃ j, intervalAt intervals u = some j := by
    intro u p hu
    rw [hplace] at hu
    split at hu
    next heq => exact ⟨i, heq ▸ hi⟩
    next => exact h.live u p hu
  refine ⟨hregs, ?_, hlive, ?_, ?_, ?_, ?_, ?_, ?_⟩
  · rw [hplaces, Array.size_setIfInBounds]
    exact h.size
  · intro u r hu
    obtain ⟨j, hj⟩ := hlive u _ hu
    obtain ⟨-, hp, -⟩ | ⟨-, hu⟩ := hcases u _ j hu hj
    · exact hgiven r hp.symm
    · exact h.given u r hu
  · intro r o hr
    rw [hplace]
    rcases (hmem r o).1 hr with ⟨rfl, rfl⟩ | hr
    · exact if_pos rfl
    · have ho := h.resident r o hr
      rwa [if_neg]
      rintro rfl
      rw [hfree] at ho
      cases ho
  · intro r o j hr hj
    rcases (hmem r o).1 hr with ⟨-, rfl⟩ | hr
    · cases hi.symm.trans hj
      rfl
    · exact h.stops r o j hr hj
  · intro u j r hu hj
    obtain ⟨rfl, hp, rfl⟩ | ⟨-, hu⟩ := hcases u _ j hu hj
    · exact .inl ((hmem _ _).2 (.inl ⟨hp.symm, rfl⟩))
    · exact (h.held u j r hu hj).imp_left fun hr => (hmem _ _).2 (.inr hr)
  · intro u j n hu hj
    obtain ⟨-, hp, rfl⟩ | ⟨-, hu⟩ := hcases u _ j hu hj
    · exact htaken n hp.symm
    · obtain ⟨sl, hsl, hlt⟩ := h.slot u j n hu hj
      obtain ⟨sl', hsl', hle⟩ := hslots n sl hsl
      exact ⟨sl', hsl', Nat.lt_of_lt_of_le hlt hle⟩
  · intro u v p j k hne hu hv hj hk
    obtain ⟨hut, rfl, rfl⟩ | ⟨-, hu⟩ := hcases u p j hu hj <;>
      obtain ⟨hvt, hp, hki⟩ | ⟨-, hv⟩ := hcases v _ k hv hk
    · exact absurd (hut.trans hvt.symm) hne
    · exact .inr (hpast v k hv hk)
    · exact .inl (hki ▸ hpast u j (hp ▸ hu) hj)
    · exact h.apart u v p j k hne hu hv hj hk

/-- **Going to a slot.** A temporary without a place may be given a slot for
its whole interval, whenever that began. -/
theorem Sound.spill (hi : intervalAt intervals t = some i) (hord : i.start ≤ i.stop)
    (hfree : placeAt s.places t = none) : (s.spill t i).Sound intervals pool line := by
  obtain ⟨htaken, hbefore, hothers⟩ := takeSlot_spec i s.slots
  obtain ⟨sl, hsl, hhorizon⟩ := Option.map_eq_some_iff.1 htaken
  refine h.settle hi hfree rfl ?_ h.regs (fun r hr => by cases hr)
    (by simp [Planning.spill, Planning.settle]) ?_ ?_
  · -- whoever had the slot before is dead when the interval begins
    intro u j hu hj
    obtain ⟨sl', hsl', hlt⟩ := h.slot u j _ hu hj
    exact Nat.lt_of_lt_of_le hlt (hbefore sl' hsl')
  · intro n hn
    cases hn
    exact ⟨sl, hsl, by omega⟩
  · intro n sl' hsl'
    by_cases hn : n = (takeSlot i s.slots).1
    · subst hn
      have hle := hbefore sl' hsl'
      exact ⟨sl, hsl, by omega⟩
    · exact ⟨sl', (hothers n hn).trans hsl', Nat.le_refl _⟩

/-- **Going to a register.** A temporary without a place whose interval begins
may be given a register that nobody is in. -/
theorem Sound.seat [BEq ρ] (hpool : pool.Nodup)
    (hs : s.residents = before ++ ⟨reg, none⟩ :: after)
    (hi : intervalAt intervals t = some i) (hline : line ≤ i.start)
    (hfree : placeAt s.places t = none) :
    (Planning.seat t reg { s with residents := before ++ ⟨reg, some ⟨t, i.stop⟩⟩ :: after }).Sound
      intervals pool line := by
  have hregs : before.map (·.reg) ++ reg :: after.map (·.reg) = pool := by
    rw [← h.regs, hs, map_append, map_cons]
  refine h.settle hi hfree rfl ?_ ?_ ?_ ?_ (fun n hn => by cases hn)
    fun n sl hsl => ⟨sl, hsl, Nat.le_refl _⟩
  · -- whoever had the register before is dead by now, or would still be in it
    intro u j hu hj
    rcases h.held u j reg hu hj with hmem | hdead
    · rw [hs] at hmem
      have hmem' : ⟨reg, some ⟨u, j.stop⟩⟩ ∈ before ++ after := by simpa using hmem
      exact absurd rfl (h.reg_ne hpool hs hmem')
    · exact Nat.lt_of_lt_of_le hdead hline
  · rw [← hregs]
    exact map_append
  · rintro r ⟨⟩
    rw [← hregs]
    exact mem_append_right _ mem_cons_self
  · intro r o
    rw [hs]
    show ⟨r, some o⟩ ∈ before ++ ⟨reg, some ⟨t, i.stop⟩⟩ :: after ↔ _
    simp only [mem_append, mem_cons, Resident.mk.injEq, Option.some.injEq,
      Place.register.injEq, reduceCtorEq, and_false, false_or, eq_comm (a := reg)]
    exact or_left_comm

end

/-- To be spilled, it does not matter to have had a place. -/
theorem spill_vacated (t : Nat) (i : Interval) (residents : List (Resident ρ)) (s : Planning ρ) :
    Planning.spill t i { s with residents, places := s.places.setIfInBounds t none }
      = Planning.spill t i { s with residents } := by
  unfold Planning.spill settle
  dsimp only
  rw [Array.setIfInBounds_setIfInBounds]

/-- **How a place is given**: a free register, a slot, or the register of one
who makes way and moves to a slot for the whole of its interval. -/
theorem Sound.lodge_cases [BEq ρ] (h : s.Sound intervals pool line) (t : Nat) (i : Interval) :
    (∃ before reg after, s.residents = before ++ ⟨reg, none⟩ :: after ∧
      s.lodge intervals t i = Planning.seat t reg
        { s with residents := before ++ ⟨reg, some ⟨t, i.stop⟩⟩ :: after }) ∨
    s.lodge intervals t i = s.spill t i ∨
    ∃ before reg old after j, s.residents = before ++ ⟨reg, some old⟩ :: after ∧
      placeAt s.places old.temp = some (.register reg) ∧ intervalAt intervals old.temp = some j ∧
      s.lodge intervals t i = Planning.seat t reg (Planning.spill old.temp j
        { s with residents := before ++ ⟨reg, some ⟨t, i.stop⟩⟩ :: after }) := by
  unfold Planning.lodge
  dsimp only
  split
  next reg residents hreg =>
    obtain ⟨before, after, hs, rfl⟩ := takeRegister_spec hreg
    exact .inl ⟨before, reg, after, hs, rfl⟩
  next =>
    split
    next => exact .inr (.inl rfl)
    next old _ =>
      split
      next => exact .inr (.inl rfl)
      next reg residents hreg =>
        obtain ⟨before, after, hs, rfl⟩ := takeRegister_spec hreg
        have hmem : ⟨reg, some old⟩ ∈ s.residents := by
          rw [hs]
          simp
        have hold := h.resident reg old hmem
        obtain ⟨j, hj⟩ := h.live _ _ hold
        refine .inr (.inr ⟨before, reg, old, after, j, hs, hold, hj, ?_⟩)
        rw [show (intervals[old.temp]?).join = some j from hj, h.stops reg old j hmem hj]
        rfl

/-- **Giving a place** to a temporary whose interval begins keeps the
invariant. -/
theorem Sound.lodge [BEq ρ] (h : s.Sound intervals pool line) (hpool : pool.Nodup)
    (hord : Ordered intervals) (hi : intervalAt intervals t = some i) (hline : line ≤ i.start)
    (hfree : placeAt s.places t = none) : (s.lodge intervals t i).Sound intervals pool line := by
  obtain ⟨before, reg, after, hs, heq⟩ | heq | ⟨before, reg, old, after, j, hs, hold, hj, heq⟩ :=
    h.lodge_cases t i <;> rw [heq]
  · exact h.seat hpool hs hi hline hfree
  · exact h.spill hi (hord t i hi) hfree
  · have hne : t ≠ old.temp := by
      rintro rfl
      rw [hfree] at hold
      cases hold
    have hbound := h.lt_size hj
    have hspilled := (h.vacate hpool hs).spill hj (hord _ _ hj)
      (by rw [placeAt_setIfInBounds hbound, if_pos rfl])
    rw [spill_vacated] at hspilled
    have hresidents : (Planning.spill old.temp j
        { s with residents := before ++ ⟨reg, none⟩ :: after }).residents
        = before ++ ⟨reg, none⟩ :: after := rfl
    refine hspilled.seat hpool hresidents hi hline ?_
    show placeAt (s.places.setIfInBounds _ _) t = none
    rw [placeAt_setIfInBounds hbound, if_neg hne]
    exact hfree

/-- **The registers that count as used** are those that are someone's place. -/
structure Counted (s : Planning ρ) : Prop where
  /-- A register counts once. -/
  once : s.used.Nodup
  /-- The registers that count. -/
  mem_iff : ∀ r, r ∈ s.used ↔ ∃ t, placeAt s.places t = some (.register r)

/-- A register that is given away counts as used from then on. -/
theorem Counted.seat [DecidableEq ρ] (hbound : t < s.places.size) (honce : s.used.Nodup)
    (hmem : ∀ r, r ≠ reg → (r ∈ s.used ↔ ∃ u, u ≠ t ∧ placeAt s.places u = some (.register r))) :
    (Planning.seat t reg s).Counted := by
  have hplace : ∀ u, placeAt (Planning.seat t reg s).places u
      = if u = t then some (.register reg) else placeAt s.places u :=
    fun u => placeAt_setIfInBounds hbound
  have hused : (Planning.seat t reg s).used
      = if reg ∈ s.used then s.used else s.used ++ [reg] := by
    simp [Planning.seat]
  constructor
  · rw [hused]
    split
    · exact honce
    · exact nodup_append'.2 ⟨honce, by simp, by simpa⟩
  · intro r
    have hr : r ∈ (Planning.seat t reg s).used ↔ r ∈ s.used ∨ r = reg := by
      rw [hused]
      split
      · exact ⟨Or.inl, fun h => h.elim id (fun h => h ▸ ‹_›)⟩
      · simp
    rw [hr]
    by_cases hreg : r = reg
    · refine ⟨fun _ => ⟨t, ?_⟩, fun _ => Or.inr hreg⟩
      rw [hplace, if_pos rfl, hreg]
    · rw [hmem r hreg]
      constructor
      · rintro (⟨u, hne, hu⟩ | h)
        · exact ⟨u, by rw [hplace, if_neg hne]; exact hu⟩
        · exact absurd h hreg
      · rintro ⟨u, hu⟩
        rw [hplace] at hu
        split at hu
        · cases hu
          exact absurd rfl hreg
        · exact Or.inl ⟨u, ‹_›, hu⟩

/-- What counts does not change when a temporary without a place is
spilled. -/
theorem Counted.spill (h : s.Counted) (hbound : t < s.places.size)
    (hfree : placeAt s.places t = none) : (s.spill t i).Counted := by
  refine ⟨h.once, fun r => (h.mem_iff r).trans (exists_congr fun u => ?_)⟩
  show _ ↔ placeAt (s.places.setIfInBounds t _) u = _
  rw [placeAt_setIfInBounds hbound]
  split
  next heq => rw [heq, hfree]; simp
  next => exact Iff.rfl

/-- **Giving a place** keeps count of the registers. Who makes way leaves a
register that is given away at once, so no register stops to count. -/
theorem Counted.lodge [DecidableEq ρ] (hc : s.Counted) (h : s.Sound intervals pool line)
    (hi : intervalAt intervals t = some i)
    (hfree : placeAt s.places t = none) : (s.lodge intervals t i).Counted := by
  have hbound := h.lt_size hi
  have hne : ∀ u p, placeAt s.places u = some p → u ≠ t := by
    rintro u p hu rfl
    rw [hfree] at hu
    cases hu
  obtain ⟨before, reg, after, hs, heq⟩ | heq | ⟨before, reg, old, after, j, hs, hold, hj, heq⟩ :=
    h.lodge_cases t i <;> rw [heq]
  · refine Counted.seat hbound hc.once fun r _ => (hc.mem_iff r).trans ?_
    exact exists_congr fun u => ⟨fun hu => ⟨hne u _ hu, hu⟩, And.right⟩
  · exact hc.spill hbound hfree
  · refine Counted.seat ?_ hc.once fun r hr => (hc.mem_iff r).trans (exists_congr fun u => ?_)
    · exact (Array.size_setIfInBounds ..).symm ▸ hbound
    · show _ ↔ u ≠ t ∧ placeAt (s.places.setIfInBounds _ _) u = _
      rw [placeAt_setIfInBounds (h.lt_size hj)]
      split
      next heq =>
        rw [heq, hold]
        simp [Ne.symm hr]
      next => exact ⟨fun hu => ⟨hne u _ hu, hu⟩, And.right⟩

/-- Giving a place to a temporary gives it one, and takes no one's away. -/
theorem Sound.isSome_lodge [BEq ρ] (h : s.Sound intervals pool line)
    (hi : intervalAt intervals t = some i) (u : Nat) :
    (placeAt (s.lodge intervals t i).places u).isSome
      = (decide (u = t) || (placeAt s.places u).isSome) := by
  have hset : ∀ (places : Array (Option (Place ρ))) (t : Nat) (p : Place ρ), t < places.size →
      (placeAt (places.setIfInBounds t (some p)) u).isSome
        = (decide (u = t) || (placeAt places u).isSome) := by
    intro places t p hlt
    rw [placeAt_setIfInBounds hlt]
    split <;> simp [*]
  have hbound := h.lt_size hi
  obtain ⟨before, reg, after, hs, heq⟩ | heq | ⟨before, reg, old, after, j, hs, hold, hj, heq⟩ :=
    h.lodge_cases t i <;> rw [heq]
  · exact hset _ _ _ hbound
  · exact hset _ _ _ hbound
  · refine (hset (s.places.setIfInBounds _ _) _ _ (by rwa [Array.size_setIfInBounds])).trans ?_
    rw [hset _ _ _ (h.lt_size hj)]
    by_cases hu : u = old.temp
    · rw [hu, hold]
      simp
    · rw [decide_eq_false hu, Bool.false_or]

end Planning

/-! ## The order in which intervals are taken -/

namespace Plan

variable {intervals : Array (Option Interval)} {pool : List ρ}

/-- The intervals that are taken are those that there are. -/
theorem mem_order {t : Nat} {i : Interval} :
    (t, i) ∈ order intervals ↔ intervalAt intervals t = some i := by
  unfold order intervalAt
  rw [mem_mergeSort, mem_filterMap]
  constructor
  · rintro ⟨⟨o, u⟩, hmem, heq⟩
    obtain ⟨j, rfl, hpair⟩ := Option.map_eq_some_iff.1 heq
    cases hpair
    rw [mk_mem_zipIdx_iff_getElem?, Array.getElem?_toList] at hmem
    rw [hmem]
    rfl
  · intro h
    refine ⟨(some i, t), ?_, rfl⟩
    rw [mk_mem_zipIdx_iff_getElem?, Array.getElem?_toList]
    exact Option.join_eq_some_iff.1 h

/-- Intervals are taken in the order of their starts. -/
theorem pairwise_order :
    (order intervals).Pairwise fun a b => a.2.start ≤ b.2.start := by
  refine Pairwise.imp ?_ (pairwise_mergeSort ?_ ?_ _)
  · intro a b hab
    simp only [Bool.or_eq_true, Bool.and_eq_true, decide_eq_true_eq] at hab
    omega
  · intro a b c hab hbc
    simp only [Bool.or_eq_true, Bool.and_eq_true, decide_eq_true_eq] at hab hbc ⊢
    omega
  · intro a b
    simp only [Bool.or_eq_true, Bool.and_eq_true, decide_eq_true_eq]
    omega

/-- Each temporary is taken once. -/
theorem nodup_order : ((order intervals).map (·.1)).Nodup := by
  unfold order
  rw [((mergeSort_perm _ _).map _).nodup_iff]
  have hidx : intervals.toList.zipIdx.Pairwise fun a b => a.2 ≠ b.2 := by
    rw [← pairwise_map, zipIdx_map_snd]
    exact nodup_range'
  rw [Nodup, pairwise_map, pairwise_filterMap]
  refine hidx.imp ?_
  rintro ⟨o, t⟩ ⟨o', t'⟩ hne a ha b hb
  obtain ⟨i, -, rfl⟩ := Option.map_eq_some_iff.1 ha
  obtain ⟨j, -, rfl⟩ := Option.map_eq_some_iff.1 hb
  exact hne

/-! ## Plans -/

/-- At the start nobody has a place. -/
theorem placeAt_blank (maxLive t : Nat) :
    placeAt (blank intervals pool maxLive).places t = none := by
  unfold placeAt blank
  rw [Array.getElem?_replicate]
  split <;> rfl

/-- The invariant holds at the start. -/
theorem sound_blank (maxLive : Nat) :
    (blank intervals pool maxLive).Sound intervals pool 0 where
  regs := by simp [blank, Function.comp_def]
  size := by simp [blank]
  live := by simp [placeAt_blank]
  given := by simp [placeAt_blank]
  resident := by simp [blank]
  stops := by simp [blank]
  held := by simp [placeAt_blank]
  slot := by simp [placeAt_blank]
  apart := by simp [placeAt_blank]

/-- No register counts as used at the start. -/
theorem counted_blank (maxLive : Nat) : (blank intervals pool maxLive).Counted where
  once := nodup_nil
  mem_iff r := by
    simp only [placeAt_blank, reduceCtorEq, exists_false, iff_false]
    exact not_mem_nil

/-- **What a run of planning establishes.** If the intervals still to be taken
begin no earlier than the line reached, in order, and have no places yet, then
afterwards the invariants hold and everyone of them has a place. -/
theorem run_step [DecidableEq ρ] (hpool : pool.Nodup) (hord : Ordered intervals)
    (todo : List (Nat × Interval)) (line : Nat) (s : Planning ρ)
    (h : s.Sound intervals pool line) (hc : s.Counted)
    (hsorted : todo.Pairwise fun a b => a.2.start ≤ b.2.start)
    (hline : ∀ a ∈ todo, line ≤ a.2.start) (honce : (todo.map (·.1)).Nodup)
    (hlive : ∀ a ∈ todo, intervalAt intervals a.1 = some a.2)
    (hfree : ∀ a ∈ todo, placeAt s.places a.1 = none) :
    let s' := todo.foldl (step intervals) s
    (∃ line', s'.Sound intervals pool line') ∧ s'.Counted ∧
      ∀ t, (placeAt s'.places t).isSome ↔
        t ∈ todo.map (·.1) ∨ (placeAt s.places t).isSome := by
  induction todo generalizing line s with
  | nil => exact ⟨⟨line, h⟩, hc, by simp⟩
  | cons a todo ih =>
    obtain ⟨t, i⟩ := a
    rw [forall_mem_cons] at hline hlive hfree
    obtain ⟨hfirst, hsorted⟩ := pairwise_cons.1 hsorted
    obtain ⟨hnew, honce⟩ := nodup_cons.1 honce
    have hexp : (s.expire i.start).Sound intervals pool i.start := h.expire hline.1
    have hcexp : (s.expire i.start).Counted := ⟨hc.once, hc.mem_iff⟩
    have hsome := hexp.isSome_lodge hlive.1
    have hstep : (step intervals s (t, i)).Sound intervals pool i.start :=
      hexp.lodge hpool hord hlive.1 (Nat.le_refl _) hfree.1
    have hrest : ∀ b ∈ todo, placeAt (step intervals s (t, i)).places b.1 = none := by
      intro b hb
      have hne : b.1 ≠ t := fun heq => hnew (mem_map.2 ⟨b, hb, heq⟩)
      have hnone : (placeAt (step intervals s (t, i)).places b.1).isSome = false := by
        refine (hsome b.1).trans ?_
        rw [decide_eq_false hne, Bool.false_or]
        exact congrArg Option.isSome (hfree.2 b hb)
      exact Option.isSome_eq_false_iff.1 hnone |> Option.isNone_iff_eq_none.1
    obtain ⟨hsound, hcounted, hplaced⟩ := ih i.start (step intervals s (t, i)) hstep
      (hcexp.lodge hexp hlive.1 hfree.1) hsorted hfirst honce hlive.2 hrest
    refine ⟨hsound, hcounted, fun u => (hplaced u).trans ?_⟩
    rw [show (placeAt (step intervals s (t, i)).places u).isSome = _ from hsome u]
    simp only [Bool.or_eq_true, decide_eq_true_eq, map_cons, mem_cons]
    exact or_left_comm.trans or_assoc.symm

/-- **A valid plan** for intervals in a pool of registers. -/
structure Valid [BEq ρ] (intervals : Array (Option Interval)) (pool : List ρ) (plan : Plan ρ) :
    Prop where
  /-- Exactly the temporaries that are live somewhere have a place. -/
  placed : ∀ t, (placeAt plan.places t).isSome ↔ (intervalAt intervals t).isSome
  register : ∀ t r, placeAt plan.places t = some (.register r) → r ∈ pool
  slot : ∀ t n, placeAt plan.places t = some (.slot n) → n < plan.slots
  /-- Two temporaries that are live at one line are in different places. -/
  apart : ∀ t u i j line, t ≠ u → intervalAt intervals t = some i → intervalAt intervals u = some j →
    i.covers line = true → j.covers line = true → placeAt plan.places t ≠ placeAt plan.places u
  /-- The registers that are used are those that are someone's place. -/
  mem_used : ∀ r, r ∈ plan.used ↔ ∃ t, placeAt plan.places t = some (.register r)
  /-- They are listed once each, -/
  used_once : plan.used.Nodup
  /-- and in the order of the pool. -/
  used_order : plan.used.Pairwise fun a b => pool.idxOf a < pool.idxOf b

/-- What planning has established when so many intervals have been taken. -/
theorem run_take [DecidableEq ρ] (hpool : pool.Nodup) (hord : Ordered intervals) (maxLive n : Nat) :
    let s := ((order intervals).take n).foldl (step intervals) (blank intervals pool maxLive)
    (∃ line, s.Sound intervals pool line) ∧ s.Counted ∧
      ∀ t, (placeAt s.places t).isSome ↔ ∃ i, (t, i) ∈ (order intervals).take n := by
  have hsub := take_sublist n (order intervals)
  obtain ⟨hsound, hcounted, hplaced⟩ := run_step hpool hord ((order intervals).take n) 0
    (blank intervals pool maxLive) (sound_blank maxLive) (counted_blank maxLive)
    (pairwise_order.sublist hsub) (fun _ _ => Nat.zero_le _) (nodup_order.sublist (hsub.map _))
    (fun a ha => mem_order.1 (hsub.subset ha)) (fun a _ => placeAt_blank maxLive a.1)
  refine ⟨hsound, hcounted, fun t => ?_⟩
  rw [hplaced t, placeAt_blank, Option.isSome_none, or_iff_left Bool.false_ne_true, mem_map]
  exact ⟨fun ⟨a, ha, heq⟩ => ⟨a.2, heq ▸ ha⟩, fun ⟨i, hi⟩ => ⟨(t, i), hi, rfl⟩⟩

/-- What a plan is when all intervals have been taken. -/
theorem valid_make [DecidableEq ρ] (hpool : pool.Nodup) (hord : Ordered intervals) (maxLive : Nat) :
    Valid intervals pool (make intervals pool maxLive) := by
  obtain ⟨⟨line, hsound⟩, hcounted, hplaced⟩ := run_take hpool hord maxLive (order intervals).length
  rw [take_length] at hsound hcounted hplaced
  have hmem : ∀ r, r ∈ (make intervals pool maxLive).used ↔
      ∃ t, placeAt (make intervals pool maxLive).places t = some (.register r) := fun r =>
    mem_mergeSort.trans (hcounted.mem_iff r)
  have honce : (make intervals pool maxLive).used.Nodup :=
    (mergeSort_perm _ _).nodup_iff.2 hcounted.once
  constructor
  case placed =>
    intro t
    rw [Option.isSome_iff_exists (x := intervalAt intervals t)]
    exact (hplaced t).trans (exists_congr fun i => mem_order)
  case register => exact hsound.given
  case slot =>
    intro t n ht
    obtain ⟨i, hi⟩ := hsound.live t _ ht
    obtain ⟨sl, hsl, -⟩ := hsound.slot t i n ht hi
    exact (List.getElem?_eq_some_iff.1 hsl).1
  case apart =>
    intro t u i j line hne hi hj hcover hcover' heq
    obtain ⟨p, hp⟩ := Option.isSome_iff_exists.1 ((hplaced t).2 ⟨i, mem_order.2 hi⟩)
    have happart := hsound.apart t u p i j hne hp (heq ▸ hp) hi hj
    rw [happart.not_covers line hcover] at hcover'
    cases hcover'
  case mem_used => exact hmem
  case used_once => exact honce
  case used_order =>
    have hle : (make intervals pool maxLive).used.Pairwise fun a b => pool.idxOf a ≤ pool.idxOf b := by
      refine Pairwise.imp (fun h => of_decide_eq_true h) (pairwise_mergeSort ?_ ?_ _)
      · intro a b c hab hbc
        simp only [decide_eq_true_eq] at hab hbc ⊢
        omega
      · intro a b
        simp only [Bool.or_eq_true, decide_eq_true_eq]
        omega
    refine (hle.and honce).imp_of_mem fun {a b} ha _ hab => ?_
    obtain ⟨t, ht⟩ := (hmem a).1 ha
    exact Nat.lt_of_le_of_ne hab.1 fun heq => hab.2 ((idxOf_inj (hsound.given t a ht)).1 heq)

/-- **Every plan is valid,** whatever the intervals, the pool and the number of
slots that are set aside. -/
theorem make_valid [DecidableEq ρ] (intervals : Array (Option Interval)) (pool : List ρ)
    (maxLive : Nat) (hpool : pool.Nodup)
    (hord : ∀ t i, intervalAt intervals t = some i → i.start ≤ i.stop) :
    Valid intervals pool (make intervals pool maxLive) :=
  valid_make hpool hord maxLive

/-- A plan for one register. The last interval evicts the third one, when the
slot to which the first one was evicted is free again; but it was taken when
the third one began, so a second slot is needed. -/
theorem make_valid_late_eviction :
    let intervals := #[some ⟨0, 10⟩, some ⟨1, 3⟩, none, some ⟨4, 30⟩, some ⟨12, 13⟩]
    ([0] : List Nat).Nodup ∧ (∀ t i, intervalAt intervals t = some i → i.start ≤ i.stop) ∧
      Valid intervals [0] (make intervals [0] 2) := by
  have hord : ∀ t i, intervalAt #[some ⟨0, 10⟩, some ⟨1, 3⟩, none, some ⟨4, 30⟩, some ⟨12, 13⟩] t
      = some i → i.start ≤ i.stop := by
    intro t i hi
    have hmem := Array.mem_of_getElem? (Option.join_eq_some_iff.1 hi)
    have hall : ∀ o ∈ #[some (⟨0, 10⟩ : Interval), some ⟨1, 3⟩, none, some ⟨4, 30⟩, some ⟨12, 13⟩],
        ∀ j ∈ o, j.start ≤ j.stop := by decide
    exact hall _ hmem i rfl
  exact ⟨by decide, hord, make_valid _ _ _ (by decide) hord⟩

end Plan

end SysY
