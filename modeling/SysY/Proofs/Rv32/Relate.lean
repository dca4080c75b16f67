import SysY.Proofs.Live
import SysY.Proofs.Rv32.Call

/-!
# Relating a run to the machine

While a function runs, what its temporaries and its memory hold is found in
the registers and the memory of the machine. An integer is a word. An address
is one too, once it is said where objects are: an array of the function is in
its frame, and the objects it was given, those of its callers and the global
variables, are elsewhere.

A scalar variable has a word of memory of its own in a run, but on the machine
its contents are in the place of the variable's temporary. And an array that
is made again, in the next turn of a loop, is a new object in a run but takes
the same words of the frame. This is in order because no address of the old
object is left in use: what is known at a line (`Known`) says which temporaries
still count.

The relation has three parts: what the function has to preserve for its
caller (`Kept`), where its objects are (`Laid`), and where its temporaries
are (`Sits`).
-/

namespace SysY

open IR List

namespace Rv32

/-! ## Objects -/

/-- An object of memory. -/
structure Object where
  /-- The word with which it begins. -/
  base : Nat
  size : Nat

/-- A word of memory belongs to an object. -/
def Object.Has (o : Object) (a : Nat) : Prop := o.base ≤ a ∧ a < o.base + o.size

/-- An address of the machine belongs to an object, given where objects are. -/
def Object.Spans (loc : Nat → Nat) (o : Object) (x : Nat) : Prop :=
  loc o.base ≤ x ∧ x < loc o.base + 4 * o.size

/-- The object that an address points into. -/
def pointee (p : Pointer) : Object := ⟨p.base, p.size⟩

/-- **A word stands for a value**, given where the objects are that begin before
`bound`. -/
def IsWord (loc : Nat → Nat) (bound : Nat) : Val → Int32 → Prop
  | .int n, w => w = n
  | .addr p, w => p.base < bound ∧ w = Int32.ofInt (loc p.base + 4 * p.offset)

variable {loc loc' : Nat → Nat} {bound bound' a b x : Nat} {v : Val} {w : Int32} {p : Pointer}
  {o o' : Object} {mem mem' : Memory}

theorem IsWord.mono (h : IsWord loc bound v w) (hbound : bound ≤ bound')
    (hloc : ∀ a < bound, loc' a = loc a) : IsWord loc' bound' v w := by
  cases v with
  | int n => exact h
  | addr p => exact ⟨Nat.lt_of_lt_of_le h.1 hbound, by rw [hloc _ h.1, h.2]⟩

theorem IsWord.shift (h : IsWord loc bound (.addr p) w) (n : Int32) :
    IsWord loc bound (.addr (p.shift n)) (w + 4 * n) := by
  refine ⟨h.1, ?_⟩
  have hn : n = Int32.ofInt n.toInt := (Int32.ofInt_toInt n).symm
  have hfour : (4 : Int32) = Int32.ofInt 4 := rfl
  rw [h.2]
  conv_lhs => rw [hn, hfour]
  rw [← Int32.ofInt_mul, ← Int32.ofInt_add, Pointer.shift]
  congr 1
  dsimp only
  omega

theorem word?_eq_some (h : p.word? = some a) :
    (pointee p).Has a ∧ p.offset = (a - p.base : Nat) ∧ p.base ≤ a := by
  unfold Pointer.word? at h
  split at h
  next hin =>
    cases h
    refine ⟨⟨Nat.le_add_right _ _, ?_⟩, ?_, Nat.le_add_right _ _⟩
    · show p.base + p.offset.toNat < p.base + p.size
      omega
    · omega
  next => cases h

/-- An address inside of an object is the address of a word. -/
theorem IsWord.inside (h : IsWord loc bound (.addr p) w) (ha : p.word? = some a) :
    w = Int32.ofNat (loc p.base + 4 * (a - p.base)) := by
  obtain ⟨-, hoffset, -⟩ := word?_eq_some ha
  rw [h.2, hoffset, ← Int32.ofInt_eq_ofNat]
  push_cast
  rfl

/-- **Objects have their places**: they do not overlap, neither in the memory of
the run nor in that of the machine. -/
structure Placed (loc : Nat → Nat) (objs : Object → Prop) : Prop where
  /-- An object begins at a multiple of a word. -/
  aligned : ∀ ⦃o⦄, objs o → loc o.base % 4 = 0
  /-- It ends before memory does. -/
  fits : ∀ ⦃o⦄, objs o → loc o.base + 4 * o.size ≤ 0x100000000
  /-- Different objects have different words, -/
  words : ∀ ⦃o o'⦄, objs o → objs o' → o ≠ o' → ∀ ⦃a⦄, o.Has a → ¬ o'.Has a
  /-- and different addresses. -/
  spans : ∀ ⦃o o'⦄, objs o → objs o' → o ≠ o' → ∀ ⦃x⦄, o.Spans loc x → ¬ o'.Spans loc x

/-- **The words of objects are in memory**, as far as they were written. -/
def Holds (loc : Nat → Nat) (objs : Object → Prop) (mem : Memory) (words : Nat → Int32) : Prop :=
  ∀ ⦃o⦄, objs o → ∀ ⦃a⦄, o.Has a → ∀ v, mem[a]? = some (some v) →
    IsWord loc mem.length v (words (loc o.base + 4 * (a - o.base)))

theorem Object.Has.spans (h : o.Has a) (loc : Nat → Nat) :
    o.Spans loc (loc o.base + 4 * (a - o.base)) := by
  obtain ⟨h1, h2⟩ := h
  constructor <;> omega

theorem Placed.mono {objs objs' : Object → Prop} (h : Placed loc objs') (hsub : ∀ o, objs o → objs' o) :
    Placed loc objs :=
  ⟨fun _ ho => h.aligned (hsub _ ho), fun _ ho => h.fits (hsub _ ho),
    fun _ _ ho ho' => h.words (hsub _ ho) (hsub _ ho'),
    fun _ _ ho ho' => h.spans (hsub _ ho) (hsub _ ho')⟩

/-- The address of a word of an object. -/
theorem Placed.address {objs : Object → Prop} (h : Placed loc objs) (ho : objs o) (ha : o.Has a) :
    (loc o.base + 4 * (a - o.base)) % 4 = 0 ∧ loc o.base + 4 * (a - o.base) < 0x100000000 := by
  have haligned := h.aligned ho
  have hfits := h.fits ho
  obtain ⟨h1, h2⟩ := ha
  omega

/-- One more object, apart from those that stay. -/
theorem Placed.insert {loc loc' : Nat → Nat} {objs objs' : Object → Prop} (h : Placed loc objs)
    (hold : ∀ {o'}, objs' o' → o' ≠ o → objs o' ∧ loc' o'.base = loc o'.base)
    (haligned : loc' o.base % 4 = 0) (hfits : loc' o.base + 4 * o.size ≤ 0x100000000)
    (hwords : ∀ {o'}, objs' o' → o' ≠ o → ∀ {a}, o.Has a → ¬ o'.Has a)
    (hspans : ∀ {o'}, objs' o' → o' ≠ o → ∀ {x}, o.Spans loc' x → ¬ o'.Spans loc' x) :
    Placed loc' objs' := by
  refine ⟨fun o' ho' => ?_, fun o' ho' => ?_, fun o1 o2 h1 h2 hne a ha ha' => ?_,
    fun o1 o2 h1 h2 hne x hx hx' => ?_⟩
  · by_cases heq : o' = o
    · exact heq ▸ haligned
    · obtain ⟨ho, hloc⟩ := hold ho' heq
      exact hloc ▸ h.aligned ho
  · by_cases heq : o' = o
    · exact heq ▸ hfits
    · obtain ⟨ho, hloc⟩ := hold ho' heq
      exact hloc ▸ h.fits ho
  · by_cases heq1 : o1 = o
    · subst heq1
      exact hwords h2 hne.symm ha ha'
    · by_cases heq2 : o2 = o
      · subst heq2
        exact hwords h1 hne ha' ha
      · exact h.words (hold h1 heq1).1 (hold h2 heq2).1 hne ha ha'
  · by_cases heq1 : o1 = o
    · subst heq1
      exact hspans h2 hne.symm hx hx'
    · by_cases heq2 : o2 = o
      · subst heq2
        exact hspans h1 hne hx' hx
      · obtain ⟨ho1, hloc1⟩ := hold h1 heq1
        obtain ⟨ho2, hloc2⟩ := hold h2 heq2
        unfold Object.Spans at hx hx'
        rw [hloc1] at hx
        rw [hloc2] at hx'
        exact h.spans ho1 ho2 hne hx hx'

/-! ## Compiled functions -/

/-- **A compiled function**: what is known at its lines, and where its
temporaries are kept. -/
structure Compiled where
  /-- Which parameters are arrays. -/
  sig : Signatures
  /-- The number of its temporaries. -/
  temps : Nat
  flat : Flat
  /-- What is known at each line. -/
  known : Nat → Known
  /-- Where everything is. -/
  home : Home
  /-- The live intervals of its temporaries. -/
  intervals : Array (Option Interval)
  typed : flat.Typed sig temps known
  /-- Every block has a label of its own. -/
  labels : (flat.blocks.map (·.label)).Nodup
  /-- Control leaves a block with its last line only. -/
  ends : ∀ ⦃b⦄, b ∈ flat.blocks → ∃ init last, b.lines = init ++ [last] ∧
    ∀ line ∈ init, line.isTerminator = false
  kinds : home.kinds = tempKinds 0 (Array.replicate temps .value) flat.lines
  frame : home.frame.Fits flat.lines home.plan
  /-- Temporaries that are no arrays have intervals. -/
  sound : ∀ ⦃t n⦄, t ∉ Liveness.arrayTemps flat.lines → (t, n) ∈ Liveness.touches flat.lines →
    ∃ i, intervalAt intervals t = some i ∧ Liveness.Sound flat t i
  /-- What has an interval has a place. -/
  placed : ∀ ⦃t i⦄, intervalAt intervals t = some i → ∃ pl, placeAt home.plan.places t = some pl
  /-- What is live at one line is in different places. -/
  apart : ∀ ⦃t u i j line⦄, t ≠ u → intervalAt intervals t = some i →
    intervalAt intervals u = some j → i.covers line = true → j.covers line = true →
    placeAt home.plan.places t ≠ placeAt home.plan.places u
  register : ∀ {t r}, placeAt home.plan.places t = some (.register r) → r ∈ home.plan.used
  saved : ∀ {r}, r ∈ home.plan.used → ∃ i, r = .s i
  once : home.plan.used.Nodup
  slot : ∀ {t n}, placeAt home.plan.places t = some (.slot n) → n < home.plan.slots

theorem eq_of_filterMap_nodup {α β : Type} {f : α → Option β} {l : List α}
    (hnodup : (l.filterMap f).Nodup) {i j : Nat} {a b : α} {y : β} (hi : l[i]? = some a)
    (hj : l[j]? = some b) (ha : f a = some y) (hb : f b = some y) : i = j := by
  induction l generalizing i j with
  | nil => cases hi
  | cons c l ih =>
    have hrest : (l.filterMap f).Nodup := hnodup.sublist ((sublist_cons_self c l).filterMap f)
    have hhead : f c = some y → ∀ {k : Nat} {d : α}, l[k]? = some d → f d ≠ some y := by
      intro hc k d hd hfd
      rw [filterMap_cons_some hc, nodup_cons] at hnodup
      exact hnodup.1 (mem_filterMap.2 ⟨d, mem_of_getElem? hd, hfd⟩)
    cases i with
    | zero =>
      cases hi
      cases j with
      | zero => rfl
      | succ j => exact absurd hb (hhead ha hj)
    | succ i =>
      cases j with
      | zero =>
        cases hj
        exact absurd ha (hhead hb hi)
      | succ j => exact congrArg (· + 1) (ih hrest hi hj)

namespace Compiled

variable {F : Compiled} {t u : Temp} {n n' : Nat} {line line' : Line} {i : IR.Instr} {words : Nat}

theorem nodup_results (F : Compiled) : (F.flat.lines.filterMap (·.result?)).Nodup := by
  rw [F.typed.results]
  exact nodup_range

theorem result_lt (F : Compiled) (hline : F.flat.lines[n]? = some line) (ht : line.result? = some t) :
    t < F.temps := by
  have hmem : t ∈ F.flat.lines.filterMap (·.result?) :=
    mem_filterMap.2 ⟨line, mem_of_getElem? hline, ht⟩
  rw [F.typed.results] at hmem
  exact mem_range.1 hmem

theorem result?_of_roomFor? (h : roomFor? line = some t) : line.result? = some t := by
  unfold roomFor? at h
  split at h
  · exact h
  · exact h
  · cases h

theorem nodup_rooms (F : Compiled) : (F.flat.lines.filterMap roomFor?).Nodup := by
  refine F.nodup_results.sublist ?_
  induction F.flat.lines with
  | nil => exact .slnil
  | cons line lines ih =>
    cases hroom : roomFor? line with
    | none =>
      rw [filterMap_cons_none hroom]
      exact ih.trans ((sublist_cons_self line lines).filterMap _)
    | some t =>
      rw [filterMap_cons_some hroom, filterMap_cons_some (result?_of_roomFor? hroom)]
      exact ih.cons_cons t

theorem kind_alloca (F : Compiled) (hline : F.flat.lines[n]? = some (.instr ⟨some t, .alloca⟩)) :
    F.home.kinds[t]? = some .scalar := by
  rw [F.kinds]
  exact tempKinds_alloca F.nodup_rooms (F.result_lt hline rfl) (mem_of_getElem? hline)

theorem kind_array (F : Compiled)
    (hline : F.flat.lines[n]? = some (.instr ⟨some t, .array words⟩)) :
    F.home.kinds[t]? = some (.array (arrayWords (F.flat.lines.take n))) := by
  rw [F.kinds]
  exact tempKinds_array F.nodup_rooms (F.result_lt hline rfl) hline

/-- A temporary stands for an array only if a line makes room for it. -/
theorem exists_array (F : Compiled) {first : Nat} (hk : F.home.kinds[t]? = some (.array first)) :
    ∃ n words, F.flat.lines[n]? = some (.instr ⟨some t, .array words⟩) ∧
      first = arrayWords (F.flat.lines.take n) := by
  obtain ⟨line, hline, hroom⟩ : ∃ line ∈ F.flat.lines, roomFor? line = some t := by
    refine Classical.byContradiction fun hnone => ?_
    rw [F.kinds, tempKinds_other fun line hline hroom => hnone ⟨line, hline, hroom⟩] at hk
    simp [Array.getElem?_replicate] at hk
  obtain ⟨n, hn⟩ := getElem?_of_mem hline
  unfold roomFor? at hroom
  split at hroom
  · cases hroom
    cases hk.symm.trans (F.kind_alloca hn)
  · cases hroom
    have harray := F.kind_array hn
    rw [hk] at harray
    cases harray
    exact ⟨n, _, hn, rfl⟩
  · cases hroom

/-- The result of a line that makes no room is a value. -/
theorem kind_value (F : Compiled) (hline : F.flat.lines[n]? = some line) (ht : line.result? = some t)
    (hroom : roomFor? line = none) : F.home.kinds[t]? = some .value := by
  rw [F.kinds, tempKinds_other]
  · simp [F.result_lt hline ht]
  · intro other hother hsome
    obtain ⟨k, hk⟩ := getElem?_of_mem hother
    cases eq_of_filterMap_nodup F.nodup_results hline hk ht (result?_of_roomFor? hsome)
    cases hline.symm.trans hk
    rw [hroom] at hsome
    cases hsome

/-- A copy is made into a value. -/
theorem kind_copy (F : Compiled) {v : Value} (hline : F.flat.lines[n]? = some (.copy t v)) :
    F.home.kinds[t]? = some .value := by
  obtain ⟨φ, rfl, hφ⟩ := F.typed.copied (mem_of_getElem? hline)
  obtain ⟨k, hk⟩ := getElem?_of_mem hφ
  exact F.kind_value hk rfl rfl

/-- What is touched and is no array has an interval and a place. -/
theorem exists_place (F : Compiled) {k : TempKind} (hk : F.home.kinds[t]? = some k)
    (hne : ∀ first, k ≠ .array first) (ht : (t, n) ∈ Liveness.touches F.flat.lines) :
    ∃ i pl, intervalAt F.intervals t = some i ∧ Liveness.Sound F.flat t i ∧
      placeAt F.home.plan.places t = some pl := by
  have harray : t ∉ Liveness.arrayTemps F.flat.lines := by
    intro hmem
    obtain ⟨line, hline, hout⟩ := mem_filterMap.1 hmem
    obtain ⟨j, hj⟩ := getElem?_of_mem hline
    split at hout
    · cases hout
      cases hk.symm.trans (F.kind_array hj)
      exact hne _ rfl
    · cases hout
  obtain ⟨i, hi, hsound⟩ := F.sound harray ht
  obtain ⟨pl, hpl⟩ := F.placed hi
  exact ⟨i, pl, hi, hsound, hpl⟩

theorem stands (F : Compiled) {sp : Nat} (haligned : sp % 4 = 0)
    (htop : sp + F.home.frame.size ≤ 0x100000000) : F.home.Stands F.flat.lines sp :=
  ⟨F.frame, F.register, F.saved, F.once, F.slot, haligned, htop⟩

end Compiled

/-! ## Activations -/

/-- **An activation of a compiled function**: what is given when it begins and
does not change while it runs. -/
structure Activation (img : Image) (m : Module) where
  code : Compiled
  args : List Val
  /-- The stack pointer while it runs. -/
  sp : Nat
  /-- The lowest address of the stack that it may use. -/
  low : Nat
  /-- The objects of its callers, and the global variables. -/
  ext : Object → Prop
  /-- Where they are. -/
  loc : Nat → Nat
  /-- Memory when it begins. -/
  start : Memory
  /-- The machine when it begins. -/
  entry : Cpu
  aligned : sp % 4 = 0
  top : sp + code.home.frame.size ≤ 0x100000000
  low_le : low ≤ sp
  /-- The objects are in memory. -/
  inside : ∀ ⦃o⦄, ext o → 0 < o.size ∧ o.base + o.size ≤ start.length
  /-- They are not on the part of the stack that the function uses. -/
  away : ∀ ⦃o⦄, ext o → loc o.base + 4 * o.size ≤ low ∨ sp + code.home.frame.size ≤ loc o.base
  /-- Global variables are among them, and where the program has its data. -/
  globals : ∀ ⦃name p⦄, m.global? name = some p → ext (pointee p) ∧
    loc p.base = img.data + 4 * p.base ∧
    img.symbol? name = some (Int32.ofNat (img.data + 4 * p.base))

/-- What the machine does not see of a run. -/
structure Ghost where
  /-- Where objects are. -/
  loc : Nat → Nat
  /-- The arrays that the function has made, by their temporaries. -/
  made : Temp → Option Object
  /-- The temporary for which the function has taken a word of memory. -/
  owner : Nat → Temp

variable {img : Image} {m : Module}

namespace Activation

variable (A : Activation img m) (g : Ghost) (n : Nat) (temps : Temps) (mem : Memory) (c : Cpu)

/-- The objects that are in use. -/
def Live (o : Object) : Prop := A.ext o ∨ ∃ t, g.made t = some o

/-- **What a function preserves for its caller.** -/
structure Kept : Prop where
  /-- The stack pointer is where it should be. -/
  stack : c.get .sp = Int32.ofNat A.sp
  /-- Registers are saved in the frame. -/
  cells : ∀ x ∈ A.code.home.cells, c.mem (A.sp + x.2) = A.entry.get x.1
  /-- Saved registers that are not used keep their words. -/
  unused : ∀ i, .s i ∉ A.code.home.plan.used → c.get (.s i) = A.entry.get (.s i)
  /-- Memory does not change outside of the stack and of objects. -/
  outside : ∀ x, x < A.low ∨ A.sp + A.code.home.frame.size ≤ x →
    (∀ o, A.ext o → ¬ o.Spans A.loc x) → c.mem x = A.entry.mem x

/-- An array that the function has made: its words are in the frame. -/
structure Made (t : Temp) (o : Object) : Prop where
  /-- There is a line that makes it, which says where in the frame it is. -/
  line : ∃ n, A.code.flat.lines[n]? = some (.instr ⟨some t, .array o.size⟩) ∧
    g.loc o.base = A.sp + A.code.home.frame.arrayOffset (arrayWords (A.code.flat.lines.take n))
  /-- It is newer than the activation, -/
  new : A.start.length ≤ o.base
  /-- in memory, -/
  inside : 0 < o.size ∧ o.base + o.size ≤ mem.length
  /-- and taken for its temporary. -/
  owner : ∀ a, o.Has a → g.owner a = t

/-- **Where the objects of a function are.** -/
structure Laid : Prop where
  /-- Memory only grows. -/
  grown : A.start.length ≤ mem.length
  /-- Objects stay where they are. -/
  agrees : ∀ a < A.start.length, g.loc a = A.loc a
  /-- Objects have their places. -/
  placed : Placed g.loc (A.Live g)
  /-- Their words are there. -/
  holds : Holds g.loc (A.Live g) mem c.mem
  /-- The function's own arrays are in its frame. -/
  made : ∀ ⦃t o⦄, g.made t = some o → A.Made g mem t o
  /-- Memory of others does not change outside of objects. -/
  words : ∀ a < A.start.length, (∀ o, A.ext o → ¬ o.Has a) → mem[a]? = A.start[a]?

/-- The word of a value is in the place of a temporary, if the temporary is
live at a line. -/
def InPlace (t : Temp) (v : Val) : Prop :=
  ∀ ⦃pl i⦄, placeAt A.code.home.plan.places t = some pl → intervalAt A.code.intervals t = some i →
    n ≤ i.stop → IsWord g.loc mem.length v (A.code.home.placeWord A.sp c pl)

/-- A scalar variable: its contents are in its place. -/
structure IsCell (t : Temp) (k : Kind) : Prop where
  kind : A.code.home.kinds[t]? = some .scalar
  word : ∃ b, temps t = .addr (.first b 1) ∧ A.start.length ≤ b ∧ b < mem.length ∧ g.owner b = t ∧
    ∀ v, mem[b]? = some (some v) → A.InPlace g n mem c t v ∧
      (k = .pointerCell → ∀ p, v = .addr p → A.ext (pointee p))

/-- A value: it is in its place. -/
structure IsValue (t : Temp) (k : Kind) : Prop where
  kind : A.code.home.kinds[t]? = some .value
  place : A.InPlace g n mem c t (temps t)
  points : k = .pointer → ∀ p, temps t = .addr p → A.Live g (pointee p)

/-- **Where a temporary is**, by what it is known to stand for. -/
def Sits (t : Temp) (k : Kind) : Prop :=
  match k with
  | .cell | .pointerCell => A.IsCell g n temps mem c t k
  | .object words => ∃ o, g.made t = some o ∧ o.size = words ∧ temps t = .addr (.first o.base words)
  | .pointer | .data => A.IsValue g n temps mem c t k

/-- An argument is where the caller has put it. -/
def Passed : Prop :=
  ∀ ⦃i v⦄, A.args[i]? = some v → (A.code.sig.own[i]? = some true → ∀ p, v = .addr p →
      A.ext (pointee p)) ∧
    ∃ w, Home.Word img A.code.home A.sp c (.arg i) w ∧ IsWord g.loc mem.length v w

/-- The objects and the temporaries of a run are in their places on the machine,
at a line. -/
structure Standing : Prop where
  kept : A.Kept c
  laid : A.Laid g mem c
  sits : ∀ ⦃t k⦄, (A.code.known n).kinds t = some k → A.Sits g n temps mem c t k

/-- **A run is related to the machine** at a line. -/
structure Related : Prop extends A.Standing g n temps mem c where
  passed : (A.code.known n).args = true → A.Passed g mem c

end Activation

end Rv32

end SysY
