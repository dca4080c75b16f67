import Mathlib.Data.List.Chain
import SysY.Live.Analysis
import SysY.Proofs.Source
import SysY.Proofs.Static.Program

/-!
# Live intervals are sound

A temporary has to keep its value along every path of the flattened function
that leads from a line that writes it to one that reads it. One interval of
lines has to cover all of these paths, also those that jump back any number of
times.

Two things make it so. Where a temporary is live, it is known, and so it has
been assigned by an earlier line: its interval begins before (`known_of_liveAt`).
And an interval that has been extended crosses no jump back any more
(`not_crosses_extend`), so going backwards along a path never leaves it at the
other end.
-/

namespace SysY

open IR List

/-! ## Paths -/

variable {line : Line} {l : Label}

namespace IR

/-- The temporary that stands for the variable into which a line stores. -/
def Line.stored? : Line → Option Temp
  | instr ⟨_, .store _ (.temp t)⟩ => some t
  | _ => none

namespace Flat

variable (flat : Flat) (t : Temp) (n : Nat)

/-- A jump leads from one line to another. -/
def Jumps (s : Nat) : Prop :=
  ∃ line ∈ flat.lines[n]?, ∃ l ∈ line.successors, flat.start? l = some s

/-- Control may go from one line to another: to the next one inside of a block,
or to the start of a block. -/
def Next (n' : Nat) : Prop :=
  (∃ line ∈ flat.lines[n]?, line.isTerminator = false ∧ n' = n + 1) ∨ flat.Jumps n n'

/-- The line has a temporary among its operands. -/
def Reads : Prop :=
  ∃ line ∈ flat.lines[n]?, .temp t ∈ line.operands

/-- The line gives a value to a temporary: as the result of an instruction that
is no phi, or by a copy. -/
def Assigns : Prop :=
  ∃ line ∈ flat.lines[n]?, line.assigned? = some t

/-- The line writes a temporary: it assigns it, or stores into the variable
that it stands for. -/
def Writes : Prop :=
  ∃ line ∈ flat.lines[n]?, line.assigned? = some t ∨ line.stored? = some t

instance (s : Nat) : Decidable (flat.Jumps n s) :=
  inferInstanceAs (Decidable (∃ _ ∈ _, _))

instance (n' : Nat) : Decidable (flat.Next n n') :=
  inferInstanceAs (Decidable (_ ∨ _))

instance : Decidable (flat.Reads t n) :=
  inferInstanceAs (Decidable (∃ _ ∈ _, _))

instance : Decidable (flat.Assigns t n) :=
  inferInstanceAs (Decidable (∃ _ ∈ _, _))

instance : Decidable (flat.Writes t n) :=
  inferInstanceAs (Decidable (∃ _ ∈ _, _))

/-- **A path along which a temporary keeps its value**: from a line that writes
it to one that reads it, and not assigned in between. -/
structure Carries (ns : List Nat) : Prop where
  /-- Control may go from each line to the next. -/
  path : IsChain flat.Next (n :: ns)
  writes : flat.Writes t n
  reads : flat.Reads t ((n :: ns).getLast (cons_ne_nil n ns))
  /-- No line in between assigns. -/
  keeps : ∀ k ∈ ns.dropLast, ¬ flat.Assigns t k

instance (ns : List Nat) : Decidable (flat.Carries t n ns) :=
  decidable_of_iff (IsChain flat.Next (n :: ns) ∧ flat.Writes t n ∧
    flat.Reads t ((n :: ns).getLast (cons_ne_nil n ns)) ∧ ∀ k ∈ ns.dropLast, ¬ flat.Assigns t k)
    ⟨fun ⟨hpath, hwrites, hreads, hkeeps⟩ => ⟨hpath, hwrites, hreads, hkeeps⟩,
      fun h => ⟨h.path, h.writes, h.reads, h.keeps⟩⟩

/-- Every jump leads to a block. -/
def Closed : Prop :=
  ∀ line ∈ flat.lines, ∀ l ∈ line.successors, ∃ s, flat.start? l = some s

end Flat

theorem Line.mem_operands_of_stored? {t : Temp} (h : line.stored? = some t) :
    .temp t ∈ line.operands := by
  unfold Line.stored? at h
  split at h
  · cases h
    exact mem_cons_of_mem _ mem_cons_self
  · cases h

theorem Line.isTerminator_of_successors (h : l ∈ line.successors) : line.isTerminator = true := by
  cases line with
  | copy => cases h
  | instr i =>
    obtain ⟨out, op⟩ := i
    cases op with
    | jump | branch => rfl
    | _ => cases h

end IR

/-! ## Extended intervals -/

namespace Interval

variable {edges : List BackEdge} {i : Interval} {e : BackEdge}

theorem crosses_iff :
    i.crosses e = true ↔ i.start < e.header ∧ e.header ≤ i.stop ∧ i.stop < e.back := by
  simp [crosses, and_assoc]

/-- The jumps back that an interval might still be extended to. -/
def ahead (edges : List BackEdge) (i : Interval) : Nat :=
  edges.countP fun e => i.stop < e.back

theorem countP_lt_countP {α : Type} {p q : α → Bool} {l : List α} {a : α}
    (h : ∀ b, p b = true → q b = true) (ha : a ∈ l) (hp : p a = false) (hq : q a = true) :
    l.countP p < l.countP q := by
  obtain ⟨pre, post, rfl⟩ := append_of_mem ha
  have hpre := countP_mono_left (l := pre) fun b _ => h b
  have hpost := countP_mono_left (l := post) fun b _ => h b
  rw [countP_append, countP_append, countP_cons_of_pos hq,
    countP_cons_of_neg (by simp [hp])]
  omega

theorem ahead_lt (he : e ∈ edges) (hcross : i.crosses e = true) :
    ahead edges { i with stop := e.back } < ahead edges i := by
  obtain ⟨-, -, hback⟩ := crosses_iff.1 hcross
  refine countP_lt_countP (fun e' h => ?_) he ?_ ?_
  · rw [decide_eq_true_eq] at h ⊢
    exact Nat.lt_trans hback h
  · exact decide_eq_false (Nat.lt_irrefl _)
  · exact decide_eq_true hback

/-- Enough steps are enough. -/
theorem not_crosses_extendWithin {n : Nat} (hn : ahead edges i ≤ n) (he : e ∈ edges) :
    (extendWithin edges n i).crosses e = false := by
  induction n generalizing i with
  | zero =>
    have hnone : ¬ i.stop < e.back := by
      simpa using countP_eq_zero.1 (Nat.le_zero.1 hn) e he
    rw [extendWithin, ← Bool.not_eq_true, crosses_iff]
    exact fun h => hnone h.2.2
  | succ n ih =>
    rw [extendWithin]
    split
    next e' hfind =>
      have hlt := ahead_lt (mem_of_find?_eq_some hfind) (find?_some hfind)
      exact ih (by omega)
    next hnone => simpa using find?_eq_none.1 hnone e he

/-- **An extended interval crosses no jump back.** -/
theorem not_crosses_extend (he : e ∈ edges) : (i.extend edges).crosses e = false :=
  not_crosses_extendWithin countP_le_length he

theorem start_extendWithin (n : Nat) (i : Interval) : (extendWithin edges n i).start = i.start := by
  induction n generalizing i with
  | zero => rfl
  | succ n ih =>
    rw [extendWithin]
    split
    next => exact ih _
    next => rfl

theorem stop_le_extendWithin (n : Nat) (i : Interval) : i.stop ≤ (extendWithin edges n i).stop := by
  induction n generalizing i with
  | zero => exact Nat.le_refl _
  | succ n ih =>
    rw [extendWithin]
    split
    next e hfind =>
      obtain ⟨-, -, hback⟩ := crosses_iff.1 (find?_some hfind)
      exact Nat.le_trans (Nat.le_of_lt hback) (ih ⟨i.start, e.back⟩)
    next => exact Nat.le_refl _

/-- An interval is extended to jumps back only. -/
theorem stop_extendWithin_lt {lines : Nat} (hedges : ∀ e ∈ edges, e.back < lines) (n : Nat)
    (hi : i.stop < lines) : (extendWithin edges n i).stop < lines := by
  induction n generalizing i with
  | zero => exact hi
  | succ n ih =>
    rw [extendWithin]
    split
    next e hfind => exact ih (hedges e (mem_of_find?_eq_some hfind))
    next => exact hi

end Interval

/-! ## Spans -/

namespace Liveness

/-- An interval has a line. -/
def Has (intervals : Array (Option Interval)) (t : Temp) (n : Nat) : Prop :=
  ∃ i, intervals[t]? = some (some i) ∧ i.start ≤ n ∧ n ≤ i.stop

variable {intervals : Array (Option Interval)} {t u : Temp} {n m : Nat}

theorem has_modify_self (h : t < intervals.size) (n : Nat) :
    Has (intervals.modify t fun i => some (.including i n)) t n := by
  refine ⟨.including intervals[t] n, ?_, ?_⟩
  · rw [Array.getElem?_modify, if_pos rfl, Array.getElem?_eq_getElem h]
    rfl
  · unfold Interval.including
    split
    next => exact ⟨Nat.le_refl _, Nat.le_refl _⟩
    next => exact ⟨Nat.min_le_right _ _, Nat.le_max_right _ _⟩

theorem Has.modify (h : Has intervals u m) (t : Temp) (n : Nat) :
    Has (intervals.modify t fun i => some (.including i n)) u m := by
  obtain ⟨i, hi, hstart, hstop⟩ := h
  by_cases heq : t = u
  · subst heq
    refine ⟨.including (some i) n, ?_, ?_⟩
    · rw [Array.getElem?_modify, if_pos rfl, hi]
      rfl
    · exact ⟨Nat.le_trans (Nat.min_le_left _ _) hstart, Nat.le_trans hstop (Nat.le_max_left _ _)⟩
  · refine ⟨i, ?_, hstart, hstop⟩
    rw [Array.getElem?_modify, if_neg heq, hi]

variable {touched : List (Temp × Nat)} {lines : List Line} {live : Liveness} {temps : Nat}
  {flat : Flat} {i : Interval}

/-- **Every touch is in the interval** of its temporary. -/
theorem has_spans (h : (t, n) ∈ touched) (ht : t < temps) : Has (spans temps touched) t n := by
  unfold spans
  generalize hA : Array.replicate temps (none : Option Interval) = A
  have hsize : t < A.size := by rw [← hA, Array.size_replicate]; exact ht
  clear hA
  have hmono : ∀ (touched : List (Temp × Nat)) (A : Array (Option Interval)), Has A t n →
      Has (touched.foldl (fun intervals x => intervals.modify x.1 fun i => some (.including i x.2)) A)
        t n := by
    intro touched
    induction touched with
    | nil => exact fun _ h => h
    | cons x xs ih => exact fun A h => ih _ (h.modify x.1 x.2)
  induction touched generalizing A with
  | nil => cases h
  | cons x xs ih =>
    rcases mem_cons.1 h with rfl | h
    · exact hmono xs _ (has_modify_self hsize n)
    · refine ih h _ ?_
      rwa [Array.size_modify]

@[simp] theorem size_spans (temps : Nat) (touched : List (Temp × Nat)) :
    (spans temps touched).size = temps := by
  have hsize : (Array.replicate temps (none : Option Interval)).size = temps := Array.size_replicate
  unfold spans
  revert hsize
  generalize Array.replicate temps (none : Option Interval) = A
  intro hsize
  induction touched generalizing A with
  | nil => exact hsize
  | cons x xs ih => exact ih _ ((Array.size_modify ..).trans hsize)

/-- What including each touch keeps holds of every interval. -/
theorem spans_forall {P : Interval → Prop}
    (hP : ∀ x ∈ touched, ∀ o, (∀ i, o = some i → P i) → P (.including o x.2))
    (h : (spans temps touched)[t]? = some (some i)) : P i := by
  unfold spans at h
  have hnone : ∀ i, (Array.replicate temps (none : Option Interval))[t]? = some (some i) → P i := by
    intro i hi
    rw [Array.getElem?_replicate] at hi
    split at hi <;> simp at hi
  revert hnone h
  generalize Array.replicate temps (none : Option Interval) = A
  intro h hA
  induction touched generalizing A with
  | nil => exact hA i h
  | cons x xs ih =>
    obtain ⟨hx, hxs⟩ := forall_mem_cons.1 hP
    refine ih hxs _ h fun j hj => ?_
    rw [Array.getElem?_modify] at hj
    split at hj
    · obtain ⟨o, ho, heq⟩ := Option.map_eq_some_iff.1 hj
      cases heq
      exact hx o fun k hk => hA k (hk ▸ ho)
    · exact hA j hj

/-- An interval does not end before it begins. -/
theorem spans_ordered (h : (spans temps touched)[t]? = some (some i)) : i.start ≤ i.stop := by
  refine spans_forall (P := fun i => i.start ≤ i.stop) (fun x _ o ho => ?_) h
  cases o with
  | none => exact Nat.le_refl _
  | some k =>
    have hk := ho k rfl
    simp only [Interval.including]
    omega

/-- An interval ends with a touch. -/
theorem spans_stop_lt {lines : Nat} (hlines : ∀ x ∈ touched, x.2 < lines)
    (h : (spans temps touched)[t]? = some (some i)) : i.stop < lines := by
  refine spans_forall (P := fun i => i.stop < lines) (fun x hx o ho => ?_) h
  cases o with
  | none => exact hlines x hx
  | some k => exact Nat.max_lt.2 ⟨ho k rfl, hlines x hx⟩

/-! ## Analysis -/

theorem mem_touches : (t, n) ∈ touches lines ↔
    ∃ line, lines[n]? = some line ∧ t ∈ line.temps := by
  unfold touches
  simp only [mem_flatMap, mem_map, Prod.exists, Prod.mk.injEq, mem_zipIdx_iff_getElem?]
  constructor
  · rintro ⟨line, m, hline, _, hmem, rfl, rfl⟩
    exact ⟨line, hline, hmem⟩
  · rintro ⟨line, hline, hmem⟩
    exact ⟨line, n, hline, t, hmem, rfl, rfl⟩

theorem mem_touches_of_operand (hline : lines[n]? = some line) (ht : .temp t ∈ line.operands) :
    (t, n) ∈ touches lines :=
  mem_touches.2 ⟨line, hline, mem_append_left _ (mem_filterMap.2 ⟨_, ht, rfl⟩)⟩

theorem mem_touches_of_output (hline : lines[n]? = some line) (ht : line.output? = some t) :
    (t, n) ∈ touches lines :=
  mem_touches.2 ⟨line, hline, mem_append_right _ (by simp [ht])⟩

/-- The jumps of lines: where they lead, and where they stand. -/
def jumps (lines : List Line) : List (Label × Nat) :=
  lines.zipIdx.flatMap fun (line, n) => line.successors.map (·, n)

theorem mem_jumps : (l, n) ∈ jumps lines ↔ ∃ line, lines[n]? = some line ∧ l ∈ line.successors := by
  simp only [jumps, mem_flatMap, mem_map, Prod.exists, Prod.mk.injEq,
    mem_zipIdx_iff_getElem?]
  constructor
  · rintro ⟨line, m, hline, _, hl, rfl, rfl⟩
    exact ⟨line, hline, hl⟩
  · rintro ⟨line, hline, hl⟩
    exact ⟨line, n, hline, l, hl, rfl, rfl⟩

/-- The jumps back are found, if every jump leads to a block. -/
theorem exists_backEdges (h : flat.Closed) :
    ∃ edges, backEdges flat = .ok edges ∧
      ∀ {n s}, ⟨s, n⟩ ∈ edges ↔ flat.Jumps n s ∧ s ≤ n := by
  have hedges : backEdges flat = .ok (((jumps flat.lines).map
      fun j => ⟨(flat.start? j.1).getD 0, j.2⟩).filter fun e => e.header ≤ e.back) := by
    rw [backEdges, mapM_eq_ok (g := fun j => ⟨(flat.start? j.1).getD 0, j.2⟩)]
    · rfl
    · rintro ⟨l, n⟩ hj
      obtain ⟨line, hline, hl⟩ := mem_jumps.1 hj
      obtain ⟨s, hs⟩ := h line (mem_of_getElem? hline) l hl
      simp only [hs]
      rfl
  refine ⟨_, hedges, fun {n s} => mem_filter.trans (and_congr ?_ decide_eq_true_iff)⟩
  constructor
  · intro hmem
    obtain ⟨⟨l, n'⟩, hj, heq⟩ := mem_map.1 hmem
    obtain ⟨line, hline, hl⟩ := mem_jumps.1 hj
    obtain ⟨s', hs'⟩ := h line (mem_of_getElem? hline) l hl
    rw [hs'] at heq
    cases heq
    exact ⟨line, hline, l, hl, hs'⟩
  · rintro ⟨line, hline, l, hl, hs⟩
    exact mem_map.2 ⟨(l, n), mem_jumps.2 ⟨line, hline, hl⟩, by rw [hs]; rfl⟩

theorem mem_of_mapM_ok {ε α β : Type} {f : α → Except ε β} {l : List α} {l' : List β}
    (h : l.mapM f = .ok l') {b : β} (hb : b ∈ l') : ∃ a ∈ l, f a = .ok b := by
  induction l generalizing l' with
  | nil =>
    cases h
    cases hb
  | cons a l ih =>
    rw [mapM_cons] at h
    obtain ⟨b', hb', h⟩ := except_bind_ok.1 h
    obtain ⟨bs, hbs, h⟩ := except_bind_ok.1 h
    cases h
    rcases mem_cons.1 hb with rfl | hb
    · exact ⟨a, mem_cons_self, hb'⟩
    · obtain ⟨c, hc, hcb⟩ := ih hbs hb
      exact ⟨c, mem_cons_of_mem _ hc, hcb⟩

/-- A jump back stands on a line. -/
theorem back_lt_of_backEdges {edges : List BackEdge} (h : backEdges flat = .ok edges) :
    ∀ e ∈ edges, e.back < flat.lines.length := by
  intro e he
  obtain ⟨all, hall, h⟩ := except_bind_ok.1 h
  cases h
  obtain ⟨⟨l, n⟩, hj, he⟩ := mem_of_mapM_ok hall (mem_filter.1 he).1
  obtain ⟨line, hline, -⟩ := mem_jumps.1 hj
  dsimp only at he
  split at he
  · cases he
    exact (List.getElem?_eq_some_iff.1 hline).1
  · cases he

/-- An interval that has every touch of a temporary, and that no jump back
leaves. -/
structure Sound (flat : Flat) (t : Temp) (i : Interval) : Prop where
  /-- It has every touch. -/
  touch : ∀ ⦃n⦄, (t, n) ∈ touches flat.lines → i.start ≤ n ∧ n ≤ i.stop
  /-- If it begins before a loop and has its head, it has the jump back. -/
  back : ∀ ⦃n s⦄, flat.Jumps n s → s ≤ n → i.start < s → s ≤ i.stop → n ≤ i.stop

/-- **What the analysis finds**, if the temporaries of lines are in range and
jumps lead to blocks. -/
theorem exists_analyze (hclosed : flat.Closed)
    (htemps : ∀ ⦃t n⦄, (t, n) ∈ touches flat.lines → t < temps) :
    ∃ live, analyze temps flat = .ok live ∧
      ∀ ⦃t n⦄, t ∉ arrayTemps flat.lines → (t, n) ∈ touches flat.lines →
        ∃ i, live.intervals[t]? = some (some i) ∧ Sound flat t i := by
  obtain ⟨edges, hedges, hmem⟩ := exists_backEdges hclosed
  have hfind : (touches flat.lines).find? (temps ≤ ·.1) = none :=
    find?_eq_none.2 fun x hx => by simpa using htemps hx
  refine ⟨_, by rw [analyze, hfind, hedges]; rfl, fun t n harray ht => ?_⟩
  have hspans : ∀ ⦃n⦄, (t, n) ∈ touches flat.lines →
      Has (spans temps ((touches flat.lines).filter (!(arrayTemps flat.lines).contains ·.1))) t n :=
    fun n hn => has_spans (mem_filter.2 ⟨hn, by simpa using harray⟩) (htemps hn)
  obtain ⟨i, hi, -⟩ := hspans ht
  refine ⟨i.extend edges, ?_, fun n hn => ?_, fun n s hjump hle hstart hstop => ?_⟩
  · rw [Array.getElem?_map, hi]
    rfl
  · obtain ⟨i', hi', hstart, hstop⟩ := hspans hn
    cases hi.symm.trans hi'
    rw [Interval.extend, Interval.start_extendWithin]
    exact ⟨hstart, Nat.le_trans hstop (Interval.stop_le_extendWithin _ _)⟩
  · by_contra hlt
    have hcross := Interval.not_crosses_extend (i := i) (hmem.2 ⟨hjump, hle⟩)
    rw [Interval.crosses_iff.2 ⟨hstart, hstop, Nat.lt_of_not_le hlt⟩] at hcross
    cases hcross

section

variable (h : analyze temps flat = .ok live)

include h

/-- What the intervals are that the analysis finds. -/
theorem analyze_ok :
    ∃ edges, backEdges flat = .ok edges ∧ live.intervals
        = (spans temps ((touches flat.lines).filter (!(arrayTemps flat.lines).contains ·.1))).map
          (·.map (·.extend edges)) ∧
      live.maxLive = maxOverlap flat.lines.length (live.intervals.toList.filterMap id) := by
  unfold analyze at h
  dsimp only at h
  split at h
  · cases h
  · obtain ⟨edges, hedges, h⟩ := except_bind_ok.1 h
    cases h
    exact ⟨edges, hedges, rfl, rfl⟩

theorem analyze_size : live.intervals.size = temps := by
  obtain ⟨edges, -, hintervals, -⟩ := analyze_ok h
  rw [hintervals, Array.size_map, size_spans]

/-- An interval that the analysis finds is an extended span. -/
theorem analyze_interval (hi : live.intervals[t]? = some (some i)) :
    ∃ edges j, backEdges flat = .ok edges ∧ (spans temps ((touches flat.lines).filter
      (!(arrayTemps flat.lines).contains ·.1)))[t]? = some (some j) ∧ i = j.extend edges := by
  obtain ⟨edges, hedges, hintervals, -⟩ := analyze_ok h
  rw [hintervals, Array.getElem?_map] at hi
  obtain ⟨o, ho, heq⟩ := Option.map_eq_some_iff.1 hi
  obtain ⟨j, rfl, rfl⟩ := Option.map_eq_some_iff.1 heq
  exact ⟨edges, j, hedges, ho, rfl⟩

theorem analyze_ordered (hi : live.intervals[t]? = some (some i)) : i.start ≤ i.stop := by
  obtain ⟨edges, j, -, hj, rfl⟩ := analyze_interval h hi
  rw [Interval.extend, Interval.start_extendWithin]
  exact Nat.le_trans (spans_ordered hj) (Interval.stop_le_extendWithin _ _)

/-- **An interval ends inside of the function.** -/
theorem analyze_stop_lt (hi : live.intervals[t]? = some (some i)) : i.stop < flat.lines.length := by
  obtain ⟨edges, j, hedges, hj, rfl⟩ := analyze_interval h hi
  refine Interval.stop_extendWithin_lt (back_lt_of_backEdges hedges) _ (spans_stop_lt ?_ hj)
  rintro ⟨u, n⟩ hx
  obtain ⟨line, hline, -⟩ := mem_touches.1 (mem_filter.1 hx).1
  exact (List.getElem?_eq_some_iff.1 hline).1

end

end Liveness

/-! ## Typed functions -/

variable {ns : List Nat}

namespace IR

namespace Flat.Typed

variable {sig : Signatures} {temps : Nat} {flat : Flat} {known : Nat → Known} {t : Temp} {n n' : Nat}

section

variable (h : flat.Typed sig temps known)

include h

theorem output_lt (hline : line ∈ flat.lines)
    (ht : line.output? = some t) : t < temps := by
  have hresult : ∀ i : Instr, .instr i ∈ flat.lines → i.output = some t → t < temps := by
    intro i hi hout
    have hmem : t ∈ flat.lines.filterMap (·.result?) := mem_filterMap.2 ⟨_, hi, hout⟩
    rw [h.results] at hmem
    exact mem_range.1 hmem
  cases line with
  | instr i => exact hresult i hline ht
  | copy u v =>
    cases ht
    obtain ⟨φ, hφ, hmem⟩ := h.copied hline
    exact hresult _ hmem (congrArg some hφ)

theorem closed : flat.Closed := by
  intro line hline l hl
  obtain ⟨n, hn⟩ := getElem?_of_mem hline
  obtain ⟨op, rfl, -, hleads⟩ := h.leave hn (Line.isTerminator_of_successors hl)
  obtain ⟨s, hs, -⟩ := hleads l hl
  exact ⟨s, hs⟩

/-- What a line reads is known there. -/
theorem known_of_reads (hreads : flat.Reads t n) :
    ∃ k, (known n).kinds t = some k := by
  obtain ⟨line, hline, ht⟩ := hreads
  cases hterm : line.isTerminator with
  | false => exact (h.step hline hterm).1.known_of_operand ht
  | true =>
    obtain ⟨op, rfl, hends, -⟩ := h.leave hline hterm
    refine hends.known_of_operand ?_
    cases op with
    | phi => cases hends
    | _ => exact ht

/-- Going back along a path, what is known stays known, up to the line that
assigns it. -/
theorem known_of_next (hnext : flat.Next n n')
    (hkeeps : ¬ flat.Assigns t n) (ht : ∃ k, (known n').kinds t = some k) :
    ∃ k, (known n).kinds t = some k := by
  obtain ⟨line, hline, hterm, rfl⟩ | ⟨line, hline, l, hl, hs⟩ := hnext
  · obtain ⟨k, hk⟩ := ht
    rcases (h.step hline hterm).1.kinds_of hk with hassign | hbefore
    · exact absurd ⟨line, hline, hassign⟩ hkeeps
    · exact ⟨k, hbefore⟩
  · have hterm := Line.isTerminator_of_successors hl
    obtain ⟨op, rfl, -, hleads⟩ := h.leave hline hterm
    obtain ⟨s, hs', -, -, hsub⟩ := hleads l hl
    cases hs.symm.trans hs'
    exact ht.imp fun k hk => hsub hk

/-- What is known somewhere has been touched before. -/
theorem exists_touch (hn : n < flat.lines.length)
    (ht : ∃ k, (known n).kinds t = some k) : ∃ m < n, (t, m) ∈ Liveness.touches flat.lines := by
  obtain ⟨k, hk⟩ := ht
  obtain ⟨line, hline, hout⟩ := h.assigned hn hk
  obtain ⟨m, hm⟩ := getElem?_of_mem hline
  have hlt : m < n := Nat.lt_of_lt_of_le (List.getElem?_eq_some_iff.1 hm).1 (List.length_take_le _ _)
  rw [List.getElem?_take_of_lt hlt] at hm
  exact ⟨m, hlt, Liveness.mem_touches_of_output hm hout⟩

theorem touch_lt (ht : (t, n) ∈ Liveness.touches flat.lines) :
    t < temps := by
  obtain ⟨line, hline, hmem⟩ := Liveness.mem_touches.1 ht
  rcases mem_append.1 hmem with hread | hout
  · obtain ⟨v, hv, htemp⟩ := mem_filterMap.1 hread
    have hvt : v = .temp t := by
      cases v <;> simp_all [Value.temp?]
    subst hvt
    obtain ⟨k, hk⟩ := h.known_of_reads ⟨line, hline, hv⟩
    obtain ⟨line', hline', hout⟩ := h.assigned (List.getElem?_eq_some_iff.1 hline).1 hk
    exact h.output_lt (List.mem_of_mem_take hline') hout
  · exact h.output_lt (mem_of_getElem? hline) (Option.mem_toList.1 hout)

end

variable {i : Interval}

section

variable (h : flat.Typed sig temps known) (hi : Liveness.Sound flat t i)

include h hi

/-- What is known somewhere is in the interval there. -/
theorem start_lt
    (hn : n < flat.lines.length) (ht : ∃ k, (known n).kinds t = some k) : i.start < n := by
  obtain ⟨m, hlt, hm⟩ := h.exists_touch hn ht
  exact Nat.lt_of_le_of_lt (hi.touch hm).1 hlt

/-- **Going back along a path does not leave an interval** that no jump back
leaves. -/
theorem path_covered (hpath : IsChain flat.Next (n :: ns))
    (hreads : flat.Reads t ((n :: ns).getLast (cons_ne_nil n ns)))
    (hkeeps : ∀ k ∈ (n :: ns).dropLast, ¬ flat.Assigns t k) :
    (∃ k, (known n).kinds t = some k) ∧ ∀ k ∈ n :: ns, i.start ≤ k ∧ k ≤ i.stop := by
  induction ns generalizing n with
  | nil =>
    obtain ⟨line, hline, ht⟩ := hreads
    refine ⟨h.known_of_reads ⟨line, hline, ht⟩, fun k hk => ?_⟩
    cases mem_singleton.1 hk
    exact hi.touch (Liveness.mem_touches_of_operand hline ht)
  | cons n' ns ih =>
    obtain ⟨hnext, hrest⟩ := isChain_cons_cons.1 hpath
    obtain ⟨hknown, hall⟩ := ih hrest (by simpa using hreads) fun k hk =>
      hkeeps k (mem_cons_of_mem _ hk)
    have hhere := h.known_of_next hnext (hkeeps n mem_cons_self) hknown
    obtain ⟨-, hstop⟩ := hall n' mem_cons_self
    obtain ⟨hlen, hn⟩ : n < flat.lines.length ∧ n ≤ i.stop := by
      obtain ⟨line, hline, -, rfl⟩ | ⟨line, hline, hjump⟩ := hnext
      · exact ⟨(List.getElem?_eq_some_iff.1 hline).1, by omega⟩
      · have hlen := (List.getElem?_eq_some_iff.1 hline).1
        rcases Nat.lt_or_ge n n' with hlt | hge
        · exact ⟨hlen, by omega⟩
        · exact ⟨hlen, hi.back ⟨line, hline, hjump⟩ hge (h.start_lt hi (by omega) hknown) hstop⟩
    have hstart := h.start_lt hi hlen hhere
    exact ⟨hhere, forall_mem_cons.2 ⟨⟨Nat.le_of_lt hstart, hn⟩, hall⟩⟩

/-- **A path along which a temporary keeps its value stays in its interval.** -/
theorem carries_covered
    (hpath : flat.Carries t n ns) {k : Nat} (hk : k ∈ n :: ns) : i.start ≤ k ∧ k ≤ i.stop := by
  rcases mem_cons.1 hk with rfl | hk
  · obtain ⟨line, hline, hassign | hstore⟩ := hpath.writes
    · exact hi.touch (Liveness.mem_touches_of_output hline (Line.output?_of_assigned? hassign))
    · exact hi.touch (Liveness.mem_touches_of_operand hline (Line.mem_operands_of_stored? hstore))
  · cases ns with
    | nil => cases hk
    | cons n' ns =>
      obtain ⟨-, hrest⟩ := isChain_cons_cons.1 hpath.path
      exact (h.path_covered hi hrest (by simpa using hpath.reads) hpath.keeps).2 k hk

end

end Flat.Typed

end IR

/-- **Live intervals of lowered functions are sound**, whether the program is
accepted or not. A temporary that is no array has an interval, and no path
along which it keeps its value leaves the interval, however often it jumps
back. -/
theorem Program.lower_live_sound {p : Program} {m : IR.Module} (h : p.lower.result = .ok m)
    {f : IR.Function} (hf : f ∈ m.functions) :
    ∃ flat live, f.flatten = .ok flat ∧ Liveness.analyze f.temps flat = .ok live ∧
      ∀ t n ns, t ∉ Liveness.arrayTemps flat.lines → flat.Carries t n ns →
        ∃ i, live.intervals[t]? = some (some i) ∧ ∀ k ∈ n :: ns, i.covers k = true := by
  obtain ⟨_, ps, htyped⟩ := Program.lower_typed h hf
  obtain ⟨known, hflat, -⟩ := htyped.exists_table
  obtain ⟨live, hlive, hsound⟩ := Liveness.exists_analyze hflat.closed fun t n => hflat.touch_lt
  refine ⟨_, live, htyped.flatten, hlive, fun t n ns harray hpath => ?_⟩
  obtain ⟨line, hline, ht⟩ := hpath.reads
  obtain ⟨i, hi, hsound⟩ := hsound harray (Liveness.mem_touches_of_operand hline ht)
  refine ⟨i, hi, fun k hk => ?_⟩
  obtain ⟨hstart, hstop⟩ := hflat.carries_covered hsound hpath hk
  simp [Interval.covers, hstart, hstop]

/-- The parameter `n` of `sum` is stored on line 3 and read on line 10, also
after the loop has been continued from line 39. -/
theorem Program.lower_live_sound_sample :
    ∃ m f, Source.Sample.program.lower.result = .ok m ∧ f ∈ m.functions ∧
      ∃ flat live, f.flatten = .ok flat ∧ Liveness.analyze f.temps flat = .ok live ∧
        1 ∉ Liveness.arrayTemps flat.lines ∧
        flat.Carries 1 3 (List.range' 4 12 ++ List.range' 23 17 ++ [9, 10]) ∧
        ∃ i, live.intervals[1]? = some (some i) ∧ i.covers 39 = true := by
  obtain ⟨m, f, hm, hf, hpath⟩ := Source.Sample.head_lowers (p := Source.Sample.program)
    (fun f => f.flatten.toOption.any fun flat => 1 ∉ Liveness.arrayTemps flat.lines ∧
      flat.Carries 1 3 (List.range' 4 12 ++ List.range' 23 17 ++ [9, 10])) (by decide +kernel)
  obtain ⟨flat, live, hflat, hlive, hsound⟩ := Program.lower_live_sound hm hf
  rw [hflat] at hpath
  obtain ⟨harray, hcarries⟩ := of_decide_eq_true hpath
  obtain ⟨i, hi, hcovers⟩ := hsound 1 3 _ harray hcarries
  exact ⟨m, f, hm, hf, flat, live, hflat, hlive, harray, hcarries, i, hi, hcovers 39 (by decide)⟩

end SysY
