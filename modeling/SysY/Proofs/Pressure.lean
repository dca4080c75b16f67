import SysY.Proofs.Live
import SysY.Proofs.Plan

/-!
# How many slots a plan has

A plan never has more slots than there are temporaries. Some slots are set
aside from the start: as many as the largest number of temporaries that are
live at one line, at most. Others are added when no slot is free; but then
every slot has been taken before, and each interval takes one slot at most,
either when it begins or when it has to make way.
-/

namespace SysY

open List

/-! ## How many intervals share a line -/

/-- The sum of changes up to a line. -/
def total : List Int → Nat → Int
  | [], _ => 0
  | d :: _, 0 => d
  | d :: ds, k + 1 => d + total ds k

theorem total_le_peakFrom {ds : List Int} {k : Nat} (hk : k < ds.length) (live : Int) :
    live + total ds k ≤ peakFrom live ds := by
  induction ds generalizing live k with
  | nil => cases hk
  | cons d ds ih =>
    rw [peakFrom]
    cases k with
    | zero => exact Int.le_max_left _ _
    | succ k =>
      have hrest := ih (Nat.lt_of_succ_lt_succ hk) (live + d)
      rw [total]
      omega

/-- The peak is reached somewhere, unless all is below zero. -/
theorem exists_peakFrom_eq (live : Int) (ds : List Int) :
    peakFrom live ds = 0 ∨ ∃ k < ds.length, peakFrom live ds = live + total ds k := by
  induction ds generalizing live with
  | nil => exact .inl rfl
  | cons d ds ih =>
    rw [peakFrom]
    by_cases hle : peakFrom (live + d) ds ≤ live + d
    · exact .inr ⟨0, Nat.succ_pos _, Int.max_eq_left hle⟩
    · rw [Int.max_eq_right (Int.le_of_not_le hle)]
      refine (ih (live + d)).imp_right ?_
      rintro ⟨k, hk, heq⟩
      exact ⟨k + 1, Nat.succ_lt_succ hk, by rw [heq, total, Int.add_assoc]⟩

theorem total_modify (ds : List Int) {n : Nat} (hn : n < ds.length) (x : Int) (k : Nat) :
    total (ds.modify n (· + x)) k = total ds k + if n ≤ k then x else 0 := by
  induction ds generalizing n k with
  | nil => cases hn
  | cons d ds ih =>
    cases n with
    | zero =>
      rw [modify_zero_cons, if_pos (Nat.zero_le k)]
      cases k with
      | zero => rfl
      | succ k => rw [total, total, Int.add_right_comm]
    | succ n =>
      rw [modify_succ_cons]
      cases k with
      | zero => simp [total]
      | succ k =>
        rw [total, total, ih (Nat.lt_of_succ_lt_succ hn), Int.add_assoc]
        simp

theorem total_replicate_zero (n k : Nat) : total (List.replicate n 0) k = 0 := by
  induction n generalizing k with
  | zero => rfl
  | succ n ih =>
    cases k with
    | zero => rfl
    | succ k => exact (Int.zero_add _).trans (ih k)

variable {lines : Nat}

/-- **The changes add up to the number of intervals at a line.** -/
theorem total_coverageChanges {intervals : List Interval}
    (h : ∀ i ∈ intervals, i.start ≤ i.stop ∧ i.stop < lines) (k : Nat) :
    total (coverageChanges lines intervals).toList k = intervals.countP (·.covers k) := by
  have hrun : ∀ delta : Array Int, delta.size = lines + 1 →
      total (intervals.foldl (fun delta i => (delta.modify i.start (· + 1)).modify (i.stop + 1) (· - 1))
        delta).toList k = total delta.toList k + intervals.countP (·.covers k) := by
    induction intervals with
    | nil => exact fun delta _ => (Int.add_zero _).symm
    | cons i intervals ih =>
      intro delta hsize
      rw [forall_mem_cons] at h
      rw [foldl_cons, ih h.2 _ (by simpa using hsize), Array.toList_modify, Array.toList_modify,
        show (fun x : Int => x - 1) = (· + -1) from rfl,
        total_modify _ (by simp [hsize]; omega), total_modify _ (by simp [hsize]; omega),
        countP_cons]
      simp only [Interval.covers, Bool.and_eq_true, decide_eq_true_eq]
      push_cast
      split <;> split <;> split <;> omega
  have hall := hrun (Array.replicate (lines + 1) 0) (by simp)
  rwa [Array.toList_replicate, total_replicate_zero, Int.zero_add] at hall

/-- **The largest number of intervals that share a line** is that of some line. -/
theorem maxOverlap_spec {intervals : List Interval}
    (h : ∀ i ∈ intervals, i.start ≤ i.stop ∧ i.stop < lines) :
    (∀ k, intervals.countP (·.covers k) ≤ maxOverlap lines intervals) ∧
      ∃ k, intervals.countP (·.covers k) = maxOverlap lines intervals := by
  have hsize : (coverageChanges lines intervals).size = lines + 1 :=
    foldlRecOn intervals _ (motive := fun delta : Array Int => delta.size = lines + 1) (by simp)
      fun delta hdelta i _ => by simpa using hdelta
  -- after the last line nothing is live
  have hafter : ∀ k, lines ≤ k → intervals.countP (·.covers k) = 0 := by
    intro k hk
    refine countP_eq_zero.2 fun i hi => ?_
    have hstop := (h i hi).2
    simp only [Interval.covers, Bool.and_eq_true, decide_eq_true_eq]
    omega
  have htotal := total_coverageChanges h
  unfold maxOverlap
  constructor
  · intro k
    by_cases hk : k < lines
    · have hlt : k < (coverageChanges lines intervals).toList.length := by simp [hsize]; omega
      have hle := total_le_peakFrom hlt 0
      rw [htotal k] at hle
      omega
    · rw [hafter k (Nat.le_of_not_lt hk)]
      exact Nat.zero_le _
  · obtain hzero | ⟨k, -, hpeak⟩ := exists_peakFrom_eq 0 (coverageChanges lines intervals).toList
    · exact ⟨lines, by rw [hafter lines (Nat.le_refl _), hzero]; rfl⟩
    · refine ⟨k, ?_⟩
      rw [hpeak, htotal k]
      omega

/-- How many temporaries are live at a line. -/
def coverage (intervals : Array (Option Interval)) (line : Nat) : Nat :=
  (intervals.toList.filterMap id).countP (·.covers line)

variable {temps : Nat} {live : Liveness} {flat : IR.Flat}

theorem Liveness.ordered_intervals (h : analyze temps flat = .ok live) :
    Ordered live.intervals := fun _ _ hi =>
  analyze_ordered h (Option.join_eq_some_iff.1 hi)

/-- **The analysis counts the temporaries that are live at a line.** -/
theorem Liveness.analyze_maxLive (h : analyze temps flat = .ok live) :
    (∀ line, coverage live.intervals line ≤ live.maxLive) ∧
      ∃ line, coverage live.intervals line = live.maxLive := by
  obtain ⟨-, -, -, hmax⟩ := analyze_ok h
  rw [hmax]
  refine maxOverlap_spec fun i hi => ?_
  obtain ⟨_, ho, rfl⟩ := mem_filterMap.1 hi
  obtain ⟨t, ht⟩ := getElem?_of_mem ho
  rw [Array.getElem?_toList] at ht
  exact ⟨analyze_ordered h ht, analyze_stop_lt h ht⟩

/-! ## How many slots a plan has -/

variable {ρ : Type}

/-- The number of slots that have been taken. -/
def takenSlots (slots : List Slot) : Nat := slots.countP (0 < ·.horizon)

theorem horizon_pos_of_not_freeFrom {s : Slot} {start : Nat} (h : ¬ s.freeFrom start = true) :
    0 < s.horizon := by
  rcases s with ⟨_ | stop, since⟩
  · have hlt : start < since := by simpa [Slot.freeFrom] using h
    exact Nat.zero_lt_of_lt hlt
  · exact Nat.succ_pos stop

/-- A slot is added only if all have been taken, and one more is taken then. -/
theorem takeSlot_counts (i : Interval) (slots : List Slot) :
    takenSlots (takeSlot i slots).2 ≤ takenSlots slots + 1 ∧
      (takeSlot i slots).2.length ≤ max slots.length (takenSlots slots + 1) := by
  induction slots with
  | nil => exact ⟨countP_le_length, Nat.le_refl _⟩
  | cons s slots ih =>
    unfold takeSlot
    split
    next =>
      refine ⟨?_, Nat.le_max_left _ _⟩
      dsimp only
      have hhere : takenSlots ({ s with takenUntil := some i.stop } :: slots) = takenSlots slots + 1 :=
        countP_cons_of_pos (by simp [Slot.horizon])
      have hrest : takenSlots slots ≤ takenSlots (s :: slots) :=
        (sublist_cons_self s slots).countP_le
      omega
    next hfree =>
      have hpos : decide (0 < s.horizon) = true := decide_eq_true (horizon_pos_of_not_freeFrom hfree)
      have hcons : ∀ ss, takenSlots (s :: ss) = takenSlots ss + 1 := fun ss => countP_cons_of_pos hpos
      dsimp only
      rw [hcons, hcons, length_cons, length_cons]
      omega

namespace Planning

/-- At most `n` slots have been taken, and there are no more than these or
those set aside. -/
structure Spends (reserved n : Nat) (slots : List Slot) : Prop where
  taken : takenSlots slots ≤ n
  length : slots.length ≤ max reserved n

variable {reserved n : Nat} {s : Planning ρ}

theorem Spends.expire (h : Spends reserved n s.slots) (line : Nat) :
    Spends reserved n (s.expire line).slots := by
  constructor
  · refine Nat.le_trans (Nat.le_of_eq ?_) h.taken
    show (s.slots.map _).countP _ = _
    rw [countP_map]
    simp [takenSlots, Function.comp_def]
  · show (s.slots.map _).length ≤ _
    rw [length_map]
    exact h.length

theorem Spends.takeSlot {slots : List Slot} (h : Spends reserved n slots) (i : Interval) :
    Spends reserved (n + 1) (takeSlot i slots).2 := by
  obtain ⟨htaken, hlength⟩ := takeSlot_counts i slots
  have hn := h.taken
  have hmax := h.length
  exact ⟨Nat.le_trans htaken (by omega), Nat.le_trans hlength (by omega)⟩

/-- **Giving a place takes one slot at most.** -/
theorem Spends.lodge [BEq ρ] (h : Spends reserved n s.slots) (intervals : Array (Option Interval))
    (t : Nat) (i : Interval) :
    Spends reserved (n + 1) (s.lodge intervals t i).slots := by
  unfold Planning.lodge
  dsimp only
  split
  next =>
    have hlength := h.length
    exact ⟨Nat.le_trans h.taken (Nat.le_succ n), Nat.le_trans hlength (by omega)⟩
  next =>
    split
    next => exact h.takeSlot i
    next =>
      split
      next => exact h.takeSlot i
      next => exact h.takeSlot _

end Planning

namespace Plan

variable [BEq ρ] (intervals : Array (Option Interval)) (pool : List ρ) (maxLive : Nat)

theorem spends_run {reserved : Nat} (todo : List (Nat × Interval)) {n : Nat} {s : Planning ρ}
    (h : Planning.Spends reserved n s.slots) :
    Planning.Spends reserved (n + todo.length) (todo.foldl (step intervals) s).slots := by
  induction todo generalizing n s with
  | nil => exact h
  | cons next todo ih =>
    have hrest := ih ((h.expire next.2.start).lodge intervals next.1 next.2)
    rw [length_cons, ← Nat.add_assoc, Nat.add_right_comm]
    exact hrest

/-- **A plan has no more slots than intervals, or than are set aside.** -/
theorem make_slots_le :
    (make intervals pool maxLive).slots ≤ max (reserved pool maxLive) (order intervals).length := by
  have hblank : Planning.Spends (reserved pool maxLive) 0 (blank intervals pool maxLive).slots := by
    constructor
    · refine Nat.le_of_eq (countP_eq_zero.2 fun s hs => ?_)
      rw [eq_of_mem_replicate hs]
      decide
    · simp [blank]
  have hrun := (spends_run intervals (order intervals) hblank).length
  rwa [Nat.zero_add] at hrun

theorem length_order_le : (order intervals).length ≤ intervals.size := by
  unfold order
  rw [length_mergeSort]
  refine Nat.le_trans (length_filterMap_le _ _) ?_
  simp

end Plan

/-- **No more slots than temporaries.** -/
theorem Liveness.analyze_slots_le {ρ : Type} [BEq ρ] (h : analyze temps flat = .ok live)
    (pool : List ρ) : (Plan.make live.intervals pool live.maxLive).slots ≤ temps := by
  have hslots := Plan.make_slots_le live.intervals pool live.maxLive
  have horder := Plan.length_order_le live.intervals
  have hsize := analyze_size h
  obtain ⟨-, line, hmax⟩ := analyze_maxLive h
  have hlive : live.maxLive ≤ live.intervals.size := by
    rw [← hmax]
    refine Nat.le_trans countP_le_length (Nat.le_trans (length_filterMap_le _ _) ?_)
    simp
  unfold Plan.reserved at hslots
  omega

end SysY
