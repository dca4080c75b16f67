import SysY.Proofs.Pressure

/-!
# Spilling

Planning gives a temporary a slot only where it has to: when its interval begins
no register is free, so as many others as there are registers are live at that
line. Whoever makes way then, the new one or the one that is needed longest, is
live there too.
-/

namespace SysY

open List

variable {ρ : Type} {intervals : Array (Option Interval)} {pool : List ρ} {t line : Nat} {i : Interval}

/-- Different temporaries that are live at a line are counted there. -/
theorem length_le_coverage {l : List Nat} (honce : l.Nodup)
    (h : ∀ t ∈ l, ∃ i, intervalAt intervals t = some i ∧ i.covers line = true) :
    l.length ≤ coverage intervals line := by
  have hcount : coverage intervals line
      = ((intervals.toList.zipIdx.filter fun x => x.1.any (·.covers line)).map (·.2)).length := by
    rw [length_map, ← countP_eq_length_filter, coverage, countP_filterMap,
      show (fun x : Option Interval × Nat => x.1.any (·.covers line))
        = (fun o : Option Interval => o.any (·.covers line)) ∘ Prod.fst from rfl,
      ← countP_map, zipIdx_map_fst]
    refine countP_congr fun o _ => ?_
    cases o <;> simp
  rw [hcount]
  refine (subperm_of_subset honce fun t ht => ?_).length_le
  obtain ⟨i, hi, hcovers⟩ := h t ht
  refine mem_map.2 ⟨(some i, t), mem_filter.2 ⟨?_, hcovers⟩, rfl⟩
  rw [mk_mem_zipIdx_iff_getElem?, Array.getElem?_toList]
  exact Option.join_eq_some_iff.1 hi

/-- Who is in the registers. -/
def occupants (rs : List (Resident ρ)) : List Occupant := rs.filterMap (·.occupant)

/-- If no register is free, there is someone in each. -/
theorem length_occupants_of_takeRegister {o : Occupant} {rs : List (Resident ρ)}
    (h : takeRegister none o rs = none) : (occupants rs).length = rs.length := by
  induction rs with
  | nil => rfl
  | cons r rs ih =>
    rcases r with ⟨reg, _ | o'⟩
    · cases h
    · exact congrArg Nat.succ (ih (Option.map_eq_none_iff.1 h))

/-- The interval of a temporary has a line at which more temporaries are live
than there are registers. -/
def Pressed (intervals : Array (Option Interval)) (registers t : Nat) : Prop :=
  ∃ i line, intervalAt intervals t = some i ∧ i.covers line = true ∧
    registers < coverage intervals line

namespace Planning

/-- **What makes planning frugal**, when the intervals that begin before a line
have been given places and others are still to be taken. -/
structure Frugal (intervals : Array (Option Interval)) (pool : List ρ) (reserved line : Nat)
    (todo : List (Nat × Interval)) (s : Planning ρ) : Prop where
  /-- The registers are as many as in the pool. -/
  length : s.residents.length = pool.length
  /-- Nobody is in two of them. -/
  once : ((occupants s.residents).map (·.temp)).Nodup
  /-- Who is in one has begun, and is noted with the end of its interval. -/
  begun : ∀ o ∈ occupants s.residents, o.temp ∉ todo.map (·.1) ∧
    ∃ i, intervalAt intervals o.temp = some i ∧ i.start ≤ line ∧ o.stop = i.stop
  /-- Who is in a slot has been under pressure. -/
  spilled : ∀ t n, placeAt s.places t = some (.slot n) → Pressed intervals pool.length t
  /-- A slot is added under pressure only. -/
  slots : s.slots.length = reserved ∨ ∃ line, pool.length < coverage intervals line

variable {reserved : Nat} {todo : List (Nat × Interval)} {s : Planning ρ}

theorem placeAt_settle {places : Array (Option (Place ρ))} {u : Nat} {p q : Place ρ}
    (h : placeAt (places.setIfInBounds t (some p)) u = some q) :
    u = t ∧ q = p ∨ placeAt places u = some q := by
  unfold placeAt at h
  rw [Array.getElem?_setIfInBounds] at h
  split at h
  next heq =>
    split at h <;> cases h
    exact .inl ⟨heq.symm, rfl⟩
  next => exact .inr h

/-- When the dead leave, those who stay are live at the line. -/
theorem Frugal.expire (h : s.Frugal intervals pool reserved line todo) {next : Nat} (hle : line ≤ next) :
    (s.expire next).Frugal intervals pool reserved next todo ∧
      ∀ o ∈ occupants (s.expire next).residents, next ≤ o.stop := by
  have hstay : occupants (s.expire next).residents
      = (occupants s.residents).filter (next ≤ ·.stop) := by
    show filterMap _ (map _ _) = filter _ (filterMap _ _)
    rw [filterMap_map, filter_filterMap]
    rfl
  refine ⟨⟨?_, ?_, ?_, h.spilled, ?_⟩, ?_⟩
  · exact (length_map _).trans h.length
  · rw [hstay]
    exact h.once.sublist ((filter_sublist).map _)
  · intro o ho
    rw [hstay] at ho
    obtain ⟨hnew, i, hi, hstart, hstop⟩ := h.begun o (mem_filter.1 ho).1
    exact ⟨hnew, i, hi, Nat.le_trans hstart hle, hstop⟩
  · exact h.slots.imp_left (length_map _).trans
  · intro o ho
    rw [hstay] at ho
    exact of_decide_eq_true (mem_filter.1 ho).2

/-- A temporary may go to a slot under pressure. -/
theorem Frugal.spill (h : s.Frugal intervals pool reserved line todo)
    (hpressed : Pressed intervals pool.length t) (i : Interval) :
    (s.spill t i).Frugal intervals pool reserved line todo := by
  refine ⟨h.length, h.once, h.begun, fun u n hu => ?_, ?_⟩
  · obtain ⟨rfl, -⟩ | hu := placeAt_settle hu
    · exact hpressed
    · exact h.spilled u n hu
  · obtain ⟨-, line, -, -, hline⟩ := hpressed
    exact .inr ⟨line, hline⟩

section

variable (h : s.Frugal intervals pool reserved line ((t, i) :: todo))
  (hi : intervalAt intervals t = some i) (hnew : t ∉ todo.map (·.1))

include h hi hnew

/-- A temporary whose interval begins may take over a register. -/
theorem Frugal.seat [BEq ρ]
    {before after : List (Resident ρ)} {reg : ρ} {o : Option Occupant}
    (hs : s.residents = before ++ ⟨reg, o⟩ :: after) (hstart : i.start ≤ line) :
    (Planning.seat t reg { s with residents := before ++ ⟨reg, some ⟨t, i.stop⟩⟩ :: after }).Frugal
      intervals pool reserved line todo := by
  have hsub : (occupants before ++ occupants after).Sublist (occupants s.residents) := by
    rw [hs, occupants, occupants, ← filterMap_append]
    exact (Sublist.append_left (sublist_cons_self _ _) _).filterMap _
  have hmem : occupants (before ++ ⟨reg, some ⟨t, i.stop⟩⟩ :: after)
      = occupants before ++ ⟨t, i.stop⟩ :: occupants after := filterMap_append ..
  refine ⟨?_, ?_, ?_, fun u n hu => ?_, h.slots⟩
  · rw [← h.length, hs]
    simp [Planning.seat, settle]
  · show ((occupants (before ++ _ :: after)).map _).Nodup
    rw [hmem, map_append, map_cons, nodup_middle, ← map_append, nodup_cons]
    refine ⟨fun ht => ?_, h.once.sublist (hsub.map _)⟩
    obtain ⟨o, ho, rfl⟩ := mem_map.1 ht
    exact (h.begun o (hsub.subset ho)).1 mem_cons_self
  · intro o ho
    have ho : o ∈ occupants (before ++ ⟨reg, some ⟨t, i.stop⟩⟩ :: after) := ho
    rw [hmem] at ho
    obtain rfl | ho := mem_cons.1 (perm_middle.subset ho)
    · exact ⟨hnew, i, hi, hstart, rfl⟩
    · exact (h.begun o (hsub.subset ho)).imp_left fun hnot hmem => hnot (mem_cons_of_mem _ hmem)
  · obtain ⟨-, hq⟩ | hu := placeAt_settle hu
    · cases hq
    · exact h.spilled u n hu

/-- **A step of planning is frugal**: one who goes to a slot is live at the same
line as someone in each register and one more. -/
theorem Frugal.step [BEq ρ] (hle : line ≤ i.start) (hord : i.start ≤ i.stop) :
    (Plan.step intervals s (t, i)).Frugal intervals pool reserved i.start todo := by
  obtain ⟨h, hlive⟩ := h.expire hle
  have hcovers : i.covers i.start = true := by simp [Interval.covers, hord]
  have hothers : ∀ o ∈ occupants (s.expire i.start).residents,
      ∃ j, intervalAt intervals o.temp = some j ∧ j.covers i.start = true := by
    intro o ho
    obtain ⟨-, j, hj, hstart, hstop⟩ := h.begun o ho
    exact ⟨j, hj, by simp [Interval.covers, hstart, ← hstop, hlive o ho]⟩
  -- the one that begins is live there as well, and is in no register yet
  have hcrowd : ∀ {o}, takeRegister none o (s.expire i.start).residents = none →
      pool.length < coverage intervals i.start := by
    intro o ho
    rw [← h.length, ← length_occupants_of_takeRegister ho, ← length_map (f := (·.temp))]
    refine length_le_coverage (l := t :: _) (nodup_cons.2 ⟨fun ht => ?_, h.once⟩)
      (forall_mem_cons.2 ⟨⟨i, hi, hcovers⟩, forall_mem_map.2 hothers⟩)
    obtain ⟨o, ho, rfl⟩ := mem_map.1 ht
    exact (h.begun o ho).1 mem_cons_self
  have hself : ∀ {o}, takeRegister none o (s.expire i.start).residents = none →
      ((s.expire i.start).spill t i).Frugal intervals pool reserved i.start todo := fun ho => by
    refine Frugal.spill ⟨h.length, h.once, fun o ho => ?_, h.spilled, h.slots⟩
      ⟨i, _, hi, hcovers, hcrowd ho⟩ i
    exact (h.begun o ho).imp_left fun hnot hmem => hnot (mem_cons_of_mem _ hmem)
  unfold Plan.step lodge
  dsimp only
  split
  next reg residents htake =>
    obtain ⟨before, after, hs, rfl⟩ := takeRegister_spec htake
    exact h.seat hi hnew hs (Nat.le_refl _)
  next htake =>
    split
    next => exact hself htake
    next old _ =>
      split
      next => exact hself htake
      next reg residents hreplace =>
        obtain ⟨before, after, hs, rfl⟩ := takeRegister_spec hreplace
        have hold : old ∈ occupants (s.expire i.start).residents :=
          mem_filterMap.2 ⟨⟨reg, some old⟩, by rw [hs]; simp, rfl⟩
        obtain ⟨j, hj, hjcovers⟩ := hothers old hold
        exact (h.spill ⟨j, _, hj, hjcovers, hcrowd htake⟩ _).seat hi hnew hs (Nat.le_refl _)

end

end Planning

namespace Plan

/-- **Planning is frugal.** -/
theorem frugal_run [BEq ρ] {reserved : Nat} {todo : List (Nat × Interval)} {s : Planning ρ}
    (hord : Ordered intervals) (h : s.Frugal intervals pool reserved line todo)
    (hsorted : todo.Pairwise fun a b => a.2.start ≤ b.2.start)
    (hline : ∀ a ∈ todo, line ≤ a.2.start) (honce : (todo.map (·.1)).Nodup)
    (hlive : ∀ a ∈ todo, intervalAt intervals a.1 = some a.2) :
    ∃ line, (todo.foldl (step intervals) s).Frugal intervals pool reserved line [] := by
  induction todo generalizing line s with
  | nil => exact ⟨line, h⟩
  | cons a todo ih =>
    obtain ⟨t, i⟩ := a
    rw [forall_mem_cons] at hline hlive
    obtain ⟨hfirst, hsorted⟩ := pairwise_cons.1 hsorted
    obtain ⟨hnew, honce⟩ := nodup_cons.1 honce
    exact ih (h.step hlive.1 hnew hline.1 (hord t i hlive.1)) hsorted hfirst honce hlive.2

/-- **Spilling happens only under pressure**, whatever the pool and the number of
slots that are set aside. -/
theorem make_frugal [BEq ρ] (hord : Ordered intervals) (pool : List ρ) (maxLive : Nat) :
    (∀ t n, placeAt (make intervals pool maxLive).places t = some (.slot n) →
      Pressed intervals pool.length t) ∧
    ((make intervals pool maxLive).slots = reserved pool maxLive ∨
      ∃ line, pool.length < coverage intervals line) := by
  have hblank : (blank intervals pool maxLive).Frugal intervals pool (reserved pool maxLive) 0
      (order intervals) := by
    have hnobody : occupants (blank intervals pool maxLive).residents = [] := by
      simp [occupants, blank]
    refine ⟨by simp [blank], by simp [hnobody], by simp [hnobody], by simp [placeAt_blank], ?_⟩
    exact .inl length_replicate
  obtain ⟨line, h⟩ := frugal_run hord hblank pairwise_order (fun _ _ => Nat.zero_le _) nodup_order
    fun a ha => mem_order.1 ha
  exact ⟨h.spilled, h.slots⟩

/-- **Spilling happens only under pressure.** A temporary goes to a slot only if
its interval has a line at which more temporaries are live than there are
registers. What the analysis counts is the largest number that are live at a
line; so if there are registers for as many, no slot is used or set aside. -/
theorem spills_under_pressure [BEq ρ] (pool : List ρ) :
    (∀ (intervals : Array (Option Interval)) (maxLive : Nat),
      (∀ t i, intervalAt intervals t = some i → i.start ≤ i.stop) →
      ∀ t n, placeAt (make intervals pool maxLive).places t = some (.slot n) →
        ∃ i line, intervalAt intervals t = some i ∧ i.covers line = true ∧
          pool.length < coverage intervals line) ∧
    ∀ (temps : Nat) (flat : IR.Flat),
      (flat.Closed → (∀ t n, (t, n) ∈ Liveness.touches flat.lines → t < temps) →
        ∃ live, Liveness.analyze temps flat = .ok live) ∧
      ∀ live, Liveness.analyze temps flat = .ok live →
        (∀ line, coverage live.intervals line ≤ live.maxLive) ∧
        (∃ line, coverage live.intervals line = live.maxLive) ∧
        (live.maxLive ≤ pool.length →
          (∀ t n, placeAt (make live.intervals pool live.maxLive).places t ≠ some (.slot n)) ∧
          (make live.intervals pool live.maxLive).slots = 0) := by
  refine ⟨fun intervals maxLive hord => (make_frugal hord pool maxLive).1, fun temps flat => ⟨?_, ?_⟩⟩
  · intro hclosed htemps
    exact (Liveness.exists_analyze hclosed htemps).imp fun _ h => h.1
  · intro live h
    obtain ⟨hle, hmax⟩ := Liveness.analyze_maxLive h
    refine ⟨hle, hmax, fun hfew => ?_⟩
    have hcalm : ∀ line, ¬ pool.length < coverage live.intervals line := fun line =>
      Nat.not_lt.2 (Nat.le_trans (hle line) hfew)
    obtain ⟨hspilled, hslots⟩ := make_frugal (Liveness.ordered_intervals h) pool live.maxLive
    constructor
    · intro t n ht
      obtain ⟨-, line, -, -, hline⟩ := hspilled t n ht
      exact hcalm line hline
    · rw [hslots.resolve_right fun ⟨line, hline⟩ => hcalm line hline, reserved]
      omega

/-- Of two temporaries that are live at line 1, the one that is needed longer is
in a slot if there is one register. The function `sum` of the sample has 54
lines, and needs no slots if there are as many registers as temporaries that are
live at one of them. -/
theorem spills_under_pressure_pair :
    let intervals := #[some ⟨0, 4⟩, some ⟨1, 2⟩]
    placeAt (make intervals [0] 2).places 0 = some (.slot 0) ∧
      (∃ i line, intervalAt intervals 0 = some i ∧ i.covers line = true ∧
        1 < coverage intervals line) ∧
      ∃ m f flat live, Source.Sample.program.lower.result = .ok m ∧ f ∈ m.functions ∧
        f.flatten = .ok flat ∧ flat.lines.length = 54 ∧ Liveness.analyze f.temps flat = .ok live ∧
        (∃ line, coverage live.intervals line = live.maxLive) ∧
        (make live.intervals (range live.maxLive) live.maxLive).slots = 0 := by
  intro intervals
  have horder : order intervals = [(0, ⟨0, 4⟩), (1, ⟨1, 2⟩)] := mergeSort_of_pairwise (by decide)
  have hspill : placeAt (make intervals [0] 2).places 0 = some (.slot 0) := by
    rw [make, horder]
    rfl
  have hord : ∀ o ∈ intervals, ∀ i ∈ o, i.start ≤ i.stop := by decide
  refine ⟨hspill, (spills_under_pressure [0]).1 intervals 2 (fun t i hi => ?_) 0 0 hspill, ?_⟩
  · exact hord _ (Array.mem_of_getElem? (Option.join_eq_some_iff.1 hi)) i rfl
  · obtain ⟨m, f, hm, hf, hlength⟩ := Source.Sample.head_lowers (p := Source.Sample.program)
      (fun f => f.flatten.toOption.any (·.lines.length = 54)) (by decide +kernel)
    obtain ⟨_, ps, htyped⟩ := Program.lower_typed hm hf
    obtain ⟨known, hflat, -⟩ := htyped.exists_table
    obtain ⟨hends, hlive⟩ := (spills_under_pressure [0]).2 f.temps ⟨ps.map (·.flat)⟩
    obtain ⟨live, h⟩ := hends hflat.closed fun _ _ => hflat.touch_lt
    rw [htyped.flatten] at hlength
    refine ⟨m, f, _, live, hm, hf, htyped.flatten, of_decide_eq_true hlength, h,
      (hlive live h).2.1, ?_⟩
    obtain ⟨-, hcalm⟩ := (spills_under_pressure (range live.maxLive)).2 f.temps _
    exact ((hcalm live h).2.2 (Nat.le_of_eq length_range.symm)).2

end Plan

end SysY
