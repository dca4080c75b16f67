import Mathlib.Data.List.Nodup
import SysY.Checked
import SysY.Rv32.Frame

/-!
# The areas of a stack frame

From the stack pointer upward a frame has the outgoing arguments, the spill
slots, the arrays, the saved registers and the return address. These are
words that do not overlap: each area ends where the next one begins, and
within an area every slot, array and register has its own words.

What a temporary stands for is found by going through the lines once. Since
no temporary is the result of two lines, the line that makes room for it
decides.
-/

namespace SysY.Rv32

open IR List

/-! ## Sizes -/

theorem le_roundTo16 (n : Nat) : n ≤ roundTo16 n := by
  unfold roundTo16
  omega

theorem roundTo16_mod (n : Nat) : roundTo16 n % 16 = 0 := by
  unfold roundTo16
  omega

/-- The bytes for outgoing arguments. -/
def outgoing (lines : List Line) : Nat := (lines.map outgoingBytes).foldl max 0

theorem le_foldl_max {l : List Nat} {init n : Nat} (h : n ≤ init ∨ n ∈ l) : n ≤ l.foldl max init := by
  induction l generalizing init with
  | nil => exact h.resolve_right not_mem_nil
  | cons m l ih =>
    refine ih ?_
    rcases h with h | h
    · exact .inl (Nat.le_trans h (Nat.le_max_left _ _))
    · rcases mem_cons.1 h with rfl | h
      · exact .inl (Nat.le_max_right _ _)
      · exact .inr h

theorem foldl_max_mod {l : List Nat} {init : Nat} (hinit : init % 4 = 0) (h : ∀ n ∈ l, n % 4 = 0) :
    l.foldl max init % 4 = 0 := by
  induction l generalizing init with
  | nil => exact hinit
  | cons m l ih =>
    rw [forall_mem_cons] at h
    refine ih ?_ h.2
    rcases Nat.le_total init m with hle | hle
    · rw [Nat.max_eq_right hle]
      exact h.1
    · rw [Nat.max_eq_left hle]
      exact hinit

theorem outgoing_mod (lines : List Line) : outgoing lines % 4 = 0 := by
  refine foldl_max_mod rfl fun n hn => ?_
  obtain ⟨line, -, rfl⟩ := mem_map.1 hn
  unfold outgoingBytes wordSize
  split
  · omega
  · rfl

/-- There is room for the arguments of every call. -/
theorem le_outgoing {lines : List Line} {output : Option Temp} {callee : String} {args : List Value}
    (h : .instr ⟨output, .call callee args⟩ ∈ lines) : 4 * (args.length - 8) ≤ outgoing lines := by
  refine le_foldl_max (.inr (mem_map.2 ⟨_, h, ?_⟩))
  simp only [outgoingBytes, registerArgs, wordSize]
  omega

/-- **A frame** for the lines of a function, with its areas one after the
other. -/
structure Frame.Fits (frame : Frame) (lines : List Line) (plan : Plan Reg) : Prop where
  /-- The slots come after the outgoing arguments. -/
  spills : frame.spills = outgoing lines
  /-- The arrays come after the slots. -/
  arrays : frame.arrays = frame.spills + 4 * plan.slots
  /-- The saved registers come after the arrays. -/
  saved : frame.saved = frame.arrays + 4 * arrayWords lines
  /-- The return address comes after the saved registers. -/
  ra : frame.ra = frame.saved + 4 * plan.used.length
  /-- The registers that are saved are those that are used. -/
  preserved : frame.preserved = plan.used
  /-- There is room for the return address. -/
  size : frame.ra + 4 ≤ frame.size
  /-- The size is a multiple of sixteen. -/
  aligned : frame.size % 16 = 0

/-- The frame for the lines of a function and a plan, whether its bytes can be
counted in 32 bits or not. -/
def Frame.whole (lines : List Line) (plan : Plan Reg) : Frame :=
  layOut (outgoing lines) plan.slots (arrayWords lines) plan.used

theorem Frame.fits_whole (lines : List Line) (plan : Plan Reg) : (whole lines plan).Fits lines plan := by
  constructor
  · rfl
  · simp only [whole, layOut, wordSize]
    omega
  · simp only [whole, layOut, wordSize]
    omega
  · simp only [whole, layOut, wordSize]
    omega
  · rfl
  · exact le_roundTo16 _
  · exact roundTo16_mod _

/-- The bytes of a frame, counted as the lines are read and the areas are put
one after the other. Every operation is checked. -/
def Frame.count (lines : List Line) (plan : Plan Reg) : Option Nat :=
  (lines.foldlM (fun n line => checked wordLimit (n + lineWords line)) 0).bind fun words =>
  (lines.foldlM (fun n line => checked wordLimit (max n (outgoingBytes line))) 0).bind fun bytes =>
  ([plan.slots, words, plan.used.length, 1].foldlM (fun n k =>
    (checked wordLimit (k * wordSize)).bind fun area => checked wordLimit (n + area)) bytes).bind
  fun bytes => checked wordLimit (bytes + 15)

/-- **No step of counting a frame overflows exactly when the frame fits.** -/
theorem Frame.make_eq (lines : List Line) (plan : Plan Reg) :
    make lines plan = (count lines plan).elim (.error .frameOverflow) fun _ => .ok (whole lines plan) := by
  have hwords (n : Nat) : lines.foldl (fun n line => n + lineWords line) n = n + arrayWords lines := by
    induction lines generalizing n with
    | nil => rfl
    | cons line lines ih => rw [foldl_cons, ih, arrayWords, Nat.add_assoc]
  have hstep (n k : Nat) : ((checked wordLimit (k * wordSize)).bind fun area =>
      checked wordLimit (n + area)) = checked wordLimit (n + k * wordSize) :=
    checked_bind (Nat.le_add_left ..)
  have hareas (words bytes : Nat) : ((checked wordLimit bytes).bind fun bytes =>
      ([plan.slots, words, plan.used.length, 1].foldlM (fun n k => checked wordLimit (n + k * wordSize))
        bytes).bind fun bytes => checked wordLimit (bytes + 15)) =
      checked wordLimit (bytes + plan.slots * wordSize + words * wordSize +
        plan.used.length * wordSize + 1 * wordSize + 15) := by
    rw [← Option.bind_assoc, checked_foldlM fun _ _ n => Nat.le_add_right ..]
    exact checked_bind (Nat.le_add_right ..)
  have hcount : count lines plan = checked wordLimit ((whole lines plan).ra + wordSize + 15) := by
    unfold count
    simp only [hstep]
    rw [foldlM_checked (fun _ _ n => Nat.le_add_right ..) (by decide), hwords, Nat.zero_add,
      foldlM_checked (fun _ _ n => Nat.le_max_left ..) (by decide), ← foldl_map]
    simp only [hareas]
    rw [checked_bind]
    · rfl
    · unfold wordSize
      omega
  rw [hcount, checked]
  show (if (whole lines plan).ra + wordSize + 15 < wordLimit then Except.ok (whole lines plan)
    else .error Fault.frameOverflow) = _
  split <;> rfl

theorem Frame.eq_whole_of_make {lines : List Line} {plan : Plan Reg} {frame : Frame}
    (h : Frame.make lines plan = .ok frame) : frame = whole lines plan := by
  unfold Frame.make at h
  dsimp only at h
  split at h
  · cases h
    rfl
  · cases h

theorem Frame.fits_of_make {lines : List Line} {plan : Plan Reg} {frame : Frame}
    (h : Frame.make lines plan = .ok frame) : frame.Fits lines plan :=
  eq_whole_of_make h ▸ fits_whole lines plan

namespace Frame.Fits

variable {frame : Frame} {lines : List Line} {plan : Plan Reg} {n first words : Nat} (h : frame.Fits lines plan)

include h

theorem spills_mod : frame.spills % 4 = 0 :=
  h.spills ▸ outgoing_mod lines

/-- A slot is in the area of slots. -/
theorem slot (hn : n < plan.slots) :
    frame.spills ≤ frame.slotOffset n ∧ frame.slotOffset n + 4 ≤ frame.arrays ∧
      frame.slotOffset n % 4 = 0 := by
  have hmod := h.spills_mod
  have harrays := h.arrays
  unfold slotOffset wordSize
  omega

/-- An array is in the area of arrays. -/
theorem array (hn : first + words ≤ arrayWords lines) :
    frame.arrays ≤ frame.arrayOffset first ∧
      frame.arrayOffset first + 4 * words ≤ frame.saved ∧ frame.arrayOffset first % 4 = 0 := by
  have hmod := h.spills_mod
  have harrays := h.arrays
  have hsaved := h.saved
  unfold arrayOffset wordSize
  omega

theorem saved_mod : frame.saved % 4 = 0 := by
  have hmod := h.spills_mod
  have harrays := h.arrays
  have hsaved := h.saved
  omega

theorem ra_mod : frame.ra % 4 = 0 := by
  have hmod := h.saved_mod
  have hra := h.ra
  omega

/-- The areas are in order. -/
theorem areas :
    frame.spills ≤ frame.arrays ∧ frame.arrays ≤ frame.saved ∧ frame.saved ≤ frame.ra ∧
      frame.ra + 4 ≤ frame.size := by
  have harrays := h.arrays
  have hsaved := h.saved
  have hra := h.ra
  exact ⟨by omega, by omega, by omega, h.size⟩

end Frame.Fits

/-! ## What temporaries stand for -/

/-- Whether a line makes room for a variable. -/
def roomFor? : Line → Option Temp
  | .instr ⟨some t, .alloca⟩ | .instr ⟨some t, .array _⟩ => some t
  | _ => none

theorem tempKinds_other {lines : List Line} {words : Nat} {kinds : Array TempKind} {t : Temp}
    (h : ∀ line ∈ lines, roomFor? line ≠ some t) : (tempKinds words kinds lines)[t]? = kinds[t]? := by
  fun_induction tempKinds words kinds lines with
  | case1 => rfl
  | case2 words kinds u lines ih | case3 words kinds u n lines ih =>
    rw [forall_mem_cons] at h
    rw [ih h.2, Array.getElem?_setIfInBounds_ne fun heq => h.1 (congrArg some heq)]
  | case4 words kinds line lines _ _ ih =>
    rw [forall_mem_cons] at h
    exact ih h.2

@[simp] theorem size_tempKinds (words : Nat) (kinds : Array TempKind) (lines : List Line) :
    (tempKinds words kinds lines).size = kinds.size := by
  fun_induction tempKinds words kinds lines with
  | case1 => rfl
  | case2 words kinds u lines ih | case3 words kinds u n lines ih =>
    rw [ih, Array.size_setIfInBounds]
  | case4 words kinds line lines _ _ ih => exact ih

/-- Lines go through one after the other. -/
theorem tempKinds_append (words : Nat) (kinds : Array TempKind) (pre post : List Line) :
    tempKinds words kinds (pre ++ post)
      = tempKinds (words + arrayWords pre) (tempKinds words kinds pre) post := by
  fun_induction tempKinds words kinds pre with
  | case1 => rfl
  | case2 words kinds u lines ih =>
    rw [cons_append, tempKinds, ih]
    simp [arrayWords, lineWords]
  | case3 words kinds u n lines ih =>
    rw [cons_append, tempKinds, ih]
    simp [arrayWords, lineWords, Nat.add_assoc]
  | case4 words kinds line lines h1 h2 ih =>
    rw [cons_append, tempKinds, ih]
    · have hzero : lineWords line = 0 := by
        unfold lineWords
        split
        next => exact absurd rfl (h2 _ _)
        next => rfl
      rw [arrayWords, hzero, Nat.zero_add]
    · exact h1
    · exact h2

theorem arrayWords_append (pre post : List Line) :
    arrayWords (pre ++ post) = arrayWords pre + arrayWords post := by
  induction pre with
  | nil => simp [arrayWords]
  | cons line pre ih => simp [arrayWords, ih, Nat.add_assoc]

variable {lines : List Line} {temps : Nat} {t : Temp} {words : Nat}

/-- No two lines make room for the same temporary, if none is the result of
two lines. -/
theorem roomFor?_ne {pre post : List Line} {line : Line}
    (hresults : ((pre ++ line :: post).filterMap roomFor?).Nodup) (hline : roomFor? line = some t) :
    ∀ other ∈ post, roomFor? other ≠ some t := by
  intro other hother heq
  rw [filterMap_append, filterMap_cons_some hline] at hresults
  have hnot := (nodup_cons.1 (Nodup.of_append_right hresults)).1
  exact hnot (mem_filterMap.2 ⟨other, hother, heq⟩)

/-- A scalar variable stands for a scalar. -/
theorem tempKinds_alloca (hresults : (lines.filterMap roomFor?).Nodup) (ht : t < temps)
    (h : .instr ⟨some t, .alloca⟩ ∈ lines) :
    (tempKinds 0 (Array.replicate temps .value) lines)[t]? = some .scalar := by
  obtain ⟨pre, post, rfl⟩ := append_of_mem h
  rw [tempKinds_append, tempKinds, tempKinds_other (roomFor?_ne hresults rfl),
    Array.getElem?_setIfInBounds_self_of_lt (by simpa using ht)]

/-- An array stands for the words after those of the arrays before it. -/
theorem tempKinds_array (hresults : (lines.filterMap roomFor?).Nodup) (ht : t < temps) {n : Nat}
    (h : lines[n]? = some (.instr ⟨some t, .array words⟩)) :
    (tempKinds 0 (Array.replicate temps .value) lines)[t]?
      = some (.array (arrayWords (lines.take n))) := by
  obtain ⟨hlt, heq⟩ := List.getElem?_eq_some_iff.1 h
  have hsplit : lines = lines.take n ++ .instr ⟨some t, .array words⟩ :: lines.drop (n + 1) := by
    rw [← heq, ← drop_eq_getElem_cons hlt, take_append_drop]
  have hkinds : ∀ pre post, ((pre ++ .instr ⟨some t, .array words⟩ :: post).filterMap
      roomFor?).Nodup → (tempKinds 0 (Array.replicate temps .value)
        (pre ++ .instr ⟨some t, .array words⟩ :: post))[t]? = some (.array (arrayWords pre)) := by
    intro pre post hnodup
    rw [tempKinds_append, tempKinds, tempKinds_other (roomFor?_ne hnodup rfl),
      Array.getElem?_setIfInBounds_self_of_lt (by simpa using ht), Nat.zero_add]
  rw [hsplit] at hresults
  have hresult := hkinds _ _ hresults
  rwa [← hsplit] at hresult

/-- The words of an array come before those of later arrays and are counted. -/
theorem arrayWords_take_le {n n' : Nat} (h : lines[n]? = some (.instr ⟨some t, .array words⟩))
    (hn : n < n') : arrayWords (lines.take n) + words ≤ arrayWords (lines.take n') := by
  obtain ⟨hlt, heq⟩ := List.getElem?_eq_some_iff.1 h
  have htake : arrayWords (lines.take (n + 1)) = arrayWords (lines.take n) + words := by
    rw [← take_append_getElem hlt, arrayWords_append, heq]
    simp [arrayWords, lineWords]
  have hsplit : lines.take n' = lines.take (n + 1) ++ (lines.take n').drop (n + 1) := by
    have hcut := (take_append_drop (n + 1) (lines.take n')).symm
    rwa [take_take, Nat.min_eq_left hn] at hcut
  rw [hsplit, arrayWords_append, htake]
  exact Nat.le_add_right _ _

theorem arrayWords_take_le_all {n : Nat} (h : lines[n]? = some (.instr ⟨some t, .array words⟩)) :
    arrayWords (lines.take n) + words ≤ arrayWords lines := by
  have hlt := (List.getElem?_eq_some_iff.1 h).1
  have hle := arrayWords_take_le h hlt
  rwa [take_length] at hle

/-- The arrays of two temporaries are in different words of the frame. -/
theorem arrays_apart {u : Temp} {words' line line' : Nat}
    (h : lines[line]? = some (.instr ⟨some t, .array words⟩))
    (h' : lines[line']? = some (.instr ⟨some u, .array words'⟩)) (hne : u ≠ t) :
    arrayWords (lines.take line) + words ≤ arrayWords (lines.take line') ∨
      arrayWords (lines.take line') + words' ≤ arrayWords (lines.take line) := by
  rcases Nat.lt_trichotomy line line' with hlt | heq | hgt
  · exact .inl (arrayWords_take_le h hlt)
  · subst heq
    cases h.symm.trans h'
    exact absurd rfl hne
  · exact .inr (arrayWords_take_le h' hgt)

end SysY.Rv32
