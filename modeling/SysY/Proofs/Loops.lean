import Mathlib.Logic.Relation
import Mathlib.Order.Bounds.Basic
import SysY.Proofs.Live

/-!
# Extension over loops is a least fixpoint

Where an interval may end is a property of its start: a line is a possible end
if no jump back leads from behind it to a loop that begins between the two. To
extend an interval is to find the least possible end that is not before the
present one (`Interval.extend_isLeast`), so the order in which loops are looked
at does not matter.

A vector of intervals can be extended in place, one of them at a time over one loop
that it crosses (`Liveness.Widens`), in whatever order: that comes to an end, and
always to the same one.
-/

namespace SysY

open IR List

namespace Interval

variable {edges : List BackEdge} {i : Interval} {e : BackEdge}

/-- The lines at which an interval may end that has a start, and certain lines
at least. -/
def ends (edges : List BackEdge) (i : Interval) : Set Nat :=
  {stop | i.stop ≤ stop ∧ ∀ e ∈ edges, i.start < e.header → e.header ≤ stop → e.back ≤ stop}

/-- What a loop that is crossed adds is in every possible end. -/
theorem ends_extended (he : e ∈ edges) (hcross : i.crosses e = true) :
    ends edges { i with stop := e.back } = ends edges i := by
  obtain ⟨hstart, hheader, hback⟩ := crosses_iff.1 hcross
  ext stop
  refine and_congr_left fun hclosed => ⟨fun hle => Nat.le_trans (Nat.le_of_lt hback) hle, fun hle => ?_⟩
  exact hclosed e he hstart (Nat.le_trans hheader hle)

theorem extendWithin_le {stop : Nat} (hstop : stop ∈ ends edges i) (n : Nat) :
    (extendWithin edges n i).stop ≤ stop := by
  induction n generalizing i with
  | zero => exact hstop.1
  | succ n ih =>
    rw [extendWithin]
    split
    next e hfind =>
      exact ih (ends_extended (mem_of_find?_eq_some hfind) (find?_some hfind) ▸ hstop)
    next => exact hstop.1

theorem stop_mem_ends (h : ∀ e ∈ edges, i.crosses e = false) : i.stop ∈ ends edges i := by
  refine ⟨Nat.le_refl _, fun e he hstart hheader => ?_⟩
  by_contra hlt
  have hcross := h e he
  rw [crosses_iff.2 ⟨hstart, hheader, Nat.lt_of_not_le hlt⟩] at hcross
  cases hcross

/-- **An extended interval has the least possible end.** -/
theorem extend_isLeast (edges : List BackEdge) (i : Interval) :
    IsLeast (ends edges i) (i.extend edges).stop := by
  obtain ⟨-, hclosed⟩ := stop_mem_ends (i := i.extend edges)
    fun e (he : e ∈ edges) => not_crosses_extend he
  rw [extend, start_extendWithin] at hclosed
  exact ⟨⟨stop_le_extendWithin _ _, hclosed⟩, fun stop hstop => extendWithin_le hstop _⟩

/-- Intervals with the same start and the same possible ends are extended to the
same one. -/
theorem extend_congr {edges' : List BackEdge} {j : Interval} (hstart : j.start = i.start)
    (hends : ends edges' j = ends edges i) : j.extend edges' = i.extend edges := by
  have hstop := (hends ▸ extend_isLeast edges' j).unique (extend_isLeast edges i)
  have hstart' : (j.extend edges').start = (i.extend edges).start := by
    rw [extend, extend, start_extendWithin, start_extendWithin, hstart]
  exact Interval.mk.injEq .. ▸ ⟨hstart', hstop⟩

theorem extend_eq_self (h : ∀ e ∈ edges, i.crosses e = false) : i.extend edges = i :=
  Interval.mk.injEq .. ▸ ⟨start_extendWithin _ i,
    Nat.le_antisymm (extendWithin_le (stop_mem_ends h) _) (stop_le_extendWithin _ i)⟩

end Interval

namespace Liveness

variable {edges : List BackEdge} {v w : Array (Option Interval)}

/-- One interval of a vector is extended over one loop that it crosses. -/
def Widens (edges : List BackEdge) (v w : Array (Option Interval)) : Prop :=
  ∃ t i e, v[t]? = some (some i) ∧ e ∈ edges ∧ i.crosses e = true ∧
    w = v.setIfInBounds t (some { i with stop := e.back })

/-- The jumps back that the intervals of a list might still be extended to. -/
def ahead (edges : List BackEdge) : List (Option Interval) → Nat
  | [] => 0
  | o :: os => o.elim 0 (Interval.ahead edges) + ahead edges os

theorem ahead_set_lt {os : List (Option Interval)} {t : Nat} {i j : Interval}
    (h : os[t]? = some (some i)) (hlt : Interval.ahead edges j < Interval.ahead edges i) :
    ahead edges (os.set t (some j)) < ahead edges os := by
  induction os generalizing t with
  | nil => cases h
  | cons o os ih =>
    cases t with
    | zero =>
      cases h
      exact Nat.add_lt_add_right hlt _
    | succ t => exact Nat.add_lt_add_left (ih h) _

/-- **Extending one interval after the other comes to an end.** -/
theorem wellFounded_widens (edges : List BackEdge) : WellFounded fun w v => Widens edges v w := by
  refine Subrelation.wf ?_ (measure fun v : Array (Option Interval) => ahead edges v.toList).wf
  rintro _ v ⟨t, i, e, hi, he, hcross, rfl⟩
  show ahead edges (v.setIfInBounds t _).toList < ahead edges v.toList
  rw [Array.toList_setIfInBounds]
  refine ahead_set_lt ?_ (Interval.ahead_lt he hcross)
  rwa [Array.getElem?_toList]

/-- Extended intervals are the same before and after a step. -/
theorem Widens.map_extend (h : Widens edges v w) :
    w.map (·.map (·.extend edges)) = v.map (·.map (·.extend edges)) := by
  obtain ⟨t, i, e, hi, he, hcross, rfl⟩ := h
  have hsame : Interval.extend edges { i with stop := e.back } = i.extend edges :=
    Interval.extend_congr rfl (Interval.ends_extended he hcross)
  refine Array.ext_getElem? fun n => ?_
  rw [Array.getElem?_map, Array.getElem?_map, Array.getElem?_setIfInBounds]
  split
  next heq =>
    have ht := (Array.getElem?_eq_some_iff.1 hi).1
    rw [if_pos ht, ← heq, hi, Option.map_some, Option.map_some, hsame]
    rfl
  next => rfl

/-- **It comes to the extended intervals**, in whatever order. -/
theorem eq_map_extend_of_widens (h : Relation.ReflTransGen (Widens edges) v w)
    (hend : ∀ u, ¬ Widens edges w u) : w = v.map (·.map (·.extend edges)) := by
  have hself : w.map (·.map (·.extend edges)) = w := by
    refine Array.ext_getElem? fun n => ?_
    rw [Array.getElem?_map]
    cases hn : w[n]? with
    | none => rfl
    | some o =>
      cases o with
      | none => rfl
      | some i =>
        refine congrArg (some ∘ some) (Interval.extend_eq_self fun e he => ?_)
        exact Bool.eq_false_iff.2 fun hcross => hend _ ⟨n, i, e, hn, he, hcross, rfl⟩
  -- every step leaves the extended intervals as they are
  rw [← hself]
  clear hend hself
  induction h with
  | refl => rfl
  | tail _ hstep ih => rw [hstep.map_extend, ih]

/-- **Extension over loops is a least fixpoint**, for every flattened function
whose jumps lead to blocks. The jumps back are found. Every interval keeps its start
and gets the least end, not before its present one, that no jump back leaves,
whatever the order of the jumps. And that is where one comes to, in every vector of
intervals, by extending any of them over any loop that it crosses until none does:
this ends, and the order of intervals and jumps does not matter. -/
theorem extend_least_fixpoint {flat : Flat} (hclosed : flat.Closed) :
    ∃ edges, backEdges flat = .ok edges ∧
      (∀ s n, ⟨s, n⟩ ∈ edges ↔ flat.Jumps n s ∧ s ≤ n) ∧
      (∀ i : Interval, (i.extend edges).start = i.start ∧
        IsLeast {stop | i.stop ≤ stop ∧
          ∀ s n, flat.Jumps n s → s ≤ n → i.start < s → s ≤ stop → n ≤ stop} (i.extend edges).stop ∧
        ∀ edges', (∀ e, e ∈ edges' ↔ e ∈ edges) → i.extend edges' = i.extend edges) ∧
      ∀ intervals, Acc (fun w v => Widens edges v w) intervals ∧
        ∀ result, Relation.ReflTransGen (Widens edges) intervals result →
          (∀ w, ¬ Widens edges result w) → result = intervals.map (·.map (·.extend edges)) := by
  obtain ⟨edges, hedges, hmem⟩ := exists_backEdges hclosed
  refine ⟨edges, hedges, fun s n => hmem, fun i => ⟨Interval.start_extendWithin _ i, ?_, ?_⟩,
    fun v => ⟨(wellFounded_widens edges).apply v, fun w => eq_map_extend_of_widens⟩⟩
  · convert Interval.extend_isLeast edges i using 1
    ext stop
    refine and_congr_right fun _ => ⟨fun h e he => ?_, fun h s n hjump hle => ?_⟩
    · obtain ⟨hjump, hle⟩ := hmem.1 he
      exact h _ _ hjump hle
    · exact h ⟨s, n⟩ (hmem.2 ⟨hjump, hle⟩)
  · intro edges' hsame
    refine Interval.extend_congr rfl ?_
    simp only [Interval.ends, hsame]

/-- Two loops, the second of which begins in the first: an interval that reaches the
head of the first one at line 2 is extended to the end of the second one. -/
theorem extend_least_fixpoint_chained :
    let flat : Flat := ⟨[⟨0, [.instr ⟨some 0, .alloca⟩, .instr ⟨none, .jump 1⟩]⟩,
      ⟨1, [.instr ⟨none, .branch (.const 1) 2 3⟩]⟩, ⟨2, [.instr ⟨none, .jump 1⟩]⟩,
      ⟨3, [.instr ⟨none, .jump 2⟩]⟩]⟩
    flat.Closed ∧ ∃ edges, backEdges flat = .ok edges ∧
      IsLeast {stop | 2 ≤ stop ∧ ∀ s n, flat.Jumps n s → s ≤ n → 0 < s → s ≤ stop → n ≤ stop} 4 := by
  intro flat
  have hclosed : flat.Closed := by
    have hall : ∀ line ∈ flat.lines, ∀ l ∈ line.successors, (flat.start? l).isSome := by decide
    exact fun line hline l hl => Option.isSome_iff_exists.1 (hall line hline l hl)
  obtain ⟨edges, hedges, -, hall, -⟩ := extend_least_fixpoint hclosed
  have hfound : backEdges flat = .ok [⟨2, 3⟩, ⟨3, 4⟩] := by decide +kernel
  cases hedges.symm.trans hfound
  exact ⟨hclosed, _, hedges, (hall ⟨0, 2⟩).2.1⟩

end Liveness

end SysY
