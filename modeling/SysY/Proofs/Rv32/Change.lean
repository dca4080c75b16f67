import SysY.Proofs.Rv32.Relate

/-!
# What keeps the relation

A line changes the machine in one of few ways: it puts a word into the place
of a temporary, stores one through an address, or calls a function. Each part
of the relation is kept by each of these, mostly because what is changed is
apart from what the part is about: a place is not the place of another
temporary that is live, a slot is no word of an array, and an object is not
in the frame unless it is one of the function's arrays.
-/

namespace SysY

open IR List

namespace Rv32

namespace Activation

variable {img : Image} {m : Module} {A : Activation img m} {g g' : Ghost} {mem mem' : Memory}
  {temps temps' : Temps} {c c' : Cpu} {o o' : Object} {t u : Temp} {k : Kind} {n n' a b x : Nat}
  {v : Val} {w : Int32} {pl : Place Reg}

theorem stands (A : Activation img m) : A.code.home.Stands A.code.flat.lines A.sp :=
  A.code.stands A.aligned A.top

/-! ## Regions -/

theorem ext_base_lt (ho : A.ext o) : o.base < A.start.length := by
  have := A.inside ho
  omega

/-- An array of the function is in the area of arrays of its frame. -/
theorem Made.region (h : A.Made g mem t o) :
    A.sp + A.code.home.frame.arrays ≤ g.loc o.base ∧
      g.loc o.base + 4 * o.size ≤ A.sp + A.code.home.frame.saved ∧ g.loc o.base % 4 = 0 := by
  obtain ⟨n, hline, hloc⟩ := h.line
  have harray := A.code.frame.array (arrayWords_take_le_all hline)
  have haligned := A.aligned
  omega

section

variable (h : A.Laid g mem c)

include h

/-- An object that is in use is outside of the stack, or one of the function's
arrays. -/
theorem Laid.region (ho : A.Live g o) :
    A.ext o ∧ g.loc o.base = A.loc o.base ∧
      (g.loc o.base + 4 * o.size ≤ A.low ∨ A.sp + A.code.home.frame.size ≤ g.loc o.base) ∨
    A.start.length ≤ o.base ∧ A.sp + A.code.home.frame.arrays ≤ g.loc o.base ∧
      g.loc o.base + 4 * o.size ≤ A.sp + A.code.home.frame.saved := by
  rcases ho with ho | ⟨t, ht⟩
  · have hloc := h.agrees _ (ext_base_lt ho)
    exact .inl ⟨ho, hloc, hloc ▸ A.away ho⟩
  · have hmade := h.made ht
    exact .inr ⟨hmade.new, hmade.region.1, hmade.region.2.1⟩

theorem Laid.live_inside (ho : A.Live g o) :
    0 < o.size ∧ o.base + o.size ≤ mem.length := by
  rcases ho with ho | ⟨t, ht⟩
  · have hin := A.inside ho
    have hgrown := h.grown
    omega
  · exact (h.made ht).inside

theorem Laid.live_base_lt (ho : A.Live g o) : o.base < mem.length := by
  have := h.live_inside ho
  omega

theorem Laid.live_word_lt (ho : A.Live g o) (ha : o.Has a) : a < mem.length := by
  have hin := h.live_inside ho
  obtain ⟨-, ha⟩ := ha
  omega

/-- A slot belongs to no object. -/
theorem Laid.slot_not_spanned {slot : Nat}
    (hpl : placeAt A.code.home.plan.places t = some (.slot slot)) (ho : A.Live g o) :
    ¬ o.Spans g.loc (A.sp + A.code.home.frame.slotOffset slot) := by
  have hslot := A.code.frame.slot (A.code.slot hpl)
  have hareas := A.code.frame.areas
  have hlow := A.low_le
  rintro ⟨h1, h2⟩
  rcases h.region ho with ⟨-, -, hout⟩ | ⟨-, hin, -⟩ <;> omega

/-- The word of a scalar variable belongs to no object. -/
theorem Laid.cell_not_has (hkind : A.code.home.kinds[t]? = some .scalar)
    (hb : A.start.length ≤ b) (howner : g.owner b = t) (ho : A.Live g o) : ¬ o.Has b := by
  intro hhas
  rcases ho with ho | ⟨u, hu⟩
  · have hin := A.inside ho
    obtain ⟨-, hlt⟩ := hhas
    omega
  · have hmade := h.made hu
    obtain ⟨j, hline, -⟩ := hmade.line
    have heq : u = t := (hmade.owner b hhas).symm.trans howner
    subst heq
    cases hkind.symm.trans (A.code.kind_array hline)

end

/-! ## What is kept for the caller -/

theorem Kept.like (h : A.Kept c) (hlike : c.Like c') : A.Kept c' where
  stack := (hlike.get rfl).trans h.stack
  cells := fun x hx => (congrFun hlike.mem _).trans (h.cells x hx)
  unused := fun i hi => (hlike.get rfl).trans (h.unused i hi)
  outside := fun x hx ho => (congrFun hlike.mem _).trans (h.outside x hx ho)

theorem Kept.put (h : A.Kept c) (hpl : placeAt A.code.home.plan.places t = some pl) (w : Int32) :
    A.Kept (A.code.home.put A.sp c w pl) := by
  cases pl with
  | register r =>
    have hused := A.code.register hpl
    obtain ⟨i, rfl⟩ := A.code.saved hused
    refine ⟨(Cpu.get_set_of_ne (q := .sp) (r := .s i) nofun).trans h.stack, h.cells, fun j hj => ?_, h.outside⟩
    refine (Cpu.get_set_of_ne ?_).trans (h.unused j hj)
    rintro heq
    exact hj (heq ▸ hused)
  | slot slot =>
    have hslot := A.code.frame.slot (A.code.slot hpl)
    have hareas := A.code.frame.areas
    have hlow := A.low_le
    refine ⟨h.stack, fun y hy => ?_, h.unused, fun y hy hext => ?_⟩
    · have hcell := A.stands.cell hy
      exact (Cpu.mem_poke_of_ne (by omega)).trans (h.cells y hy)
    · exact (Cpu.mem_poke_of_ne (by omega)).trans (h.outside y hy hext)

/-- A store into an object. -/
theorem Kept.poke (h : A.Kept c) (hlaid : A.Laid g mem c) (ho : A.Live g o) (hx : o.Spans g.loc x)
    (w : Int32) : A.Kept (c.poke x w) := by
  have hareas := A.code.frame.areas
  have hlow := A.low_le
  have hregion := hlaid.region ho
  obtain ⟨h1, h2⟩ := hx
  refine ⟨h.stack, fun y hy => ?_, h.unused, fun y hy hext => ?_⟩
  · have hcell := A.stands.cell hy
    exact (Cpu.mem_poke_of_ne (by omega)).trans (h.cells y hy)
  · refine (Cpu.mem_poke_of_ne ?_).trans (h.outside y hy hext)
    rintro rfl
    rcases hregion with ⟨hmem, hloc, -⟩ | ⟨-, hin, hin'⟩
    · exact hext o hmem ⟨hloc ▸ h1, hloc ▸ h2⟩
    · omega

/-! ## Where objects are -/

/-- Words outside of objects do not count. -/
theorem Laid.change (h : A.Laid g mem c)
    (hmem : ∀ o, A.Live g o → ∀ x, o.Spans g.loc x → c'.mem x = c.mem x) : A.Laid g mem c' :=
  ⟨h.grown, h.agrees, h.placed, fun o ho a ha v hv => by
    rw [hmem o ho _ (ha.spans g.loc)]
    exact h.holds ho ha v hv, h.made, h.words⟩

theorem Laid.like (h : A.Laid g mem c) (hlike : c.Like c') : A.Laid g mem c' :=
  h.change fun _ _ x _ => congrFun hlike.mem x

theorem Laid.put (h : A.Laid g mem c) (hpl : placeAt A.code.home.plan.places t = some pl)
    (w : Int32) : A.Laid g mem (A.code.home.put A.sp c w pl) := by
  refine h.change fun o ho x hx => ?_
  cases pl with
  | register r => rfl
  | slot slot =>
    refine Cpu.mem_poke_of_ne ?_
    rintro rfl
    exact h.slot_not_spanned hpl ho hx

end Activation

/-! ## New objects -/

theorem length_grow (mem : Memory) (words : Nat) : (mem.grow words).length = mem.length + words := by
  simp [Memory.grow]

theorem getElem?_grow_of_lt {mem : Memory} {a words : Nat} (h : a < mem.length) :
    (mem.grow words)[a]? = mem[a]? :=
  getElem?_append_left h

/-- New words were never written. -/
theorem getElem?_grow_ne {mem : Memory} {a words : Nat} {v : Val} (h : mem.length ≤ a) :
    (mem.grow words)[a]? ≠ some (some v) := by
  rw [Memory.grow, getElem?_append_right h, getElem?_replicate]
  split <;> simp

namespace Ghost

/-- Words from `first` on are taken for a temporary. -/
def take (g : Ghost) (t : Temp) (first : Nat) : Ghost :=
  { g with owner := fun a => if a < first then g.owner a else t }

/-- A temporary gets a new array at an address. -/
def make (g : Ghost) (t : Temp) (o : Object) (x : Nat) : Ghost where
  loc := fun b => if b = o.base then x else g.loc b
  made := fun u => if u = t then some o else g.made u
  owner := fun a => if a < o.base then g.owner a else t

variable {g : Ghost} {t u : Temp} {o : Object} {x a : Nat}

theorem loc_make_of_lt (h : a < o.base) : (g.make t o x).loc a = g.loc a := if_neg (Nat.ne_of_lt h)

theorem loc_make_self : (g.make t o x).loc o.base = x := if_pos rfl

theorem made_make_self : (g.make t o x).made t = some o := if_pos rfl

theorem made_make_of_ne (h : u ≠ t) : (g.make t o x).made u = g.made u := if_neg h

theorem owner_make_of_lt (h : a < o.base) : (g.make t o x).owner a = g.owner a := if_pos h

end Ghost

namespace Activation

variable {img : Image} {m : Module} {A : Activation img m} {g g' : Ghost} {mem mem' : Memory}
  {temps temps' : Temps} {c c' : Cpu} {o o' : Object} {t u : Temp} {k : Kind} {n n' a b x : Nat}
  {v : Val} {w : Int32} {pl : Place Reg}

/-- A new scalar variable. -/
theorem Laid.alloca (h : A.Laid g mem c) (t : Temp) :
    A.Laid (g.take t mem.length) (mem.grow 1) c where
  grown := by
    rw [length_grow]
    exact Nat.le_succ_of_le h.grown
  agrees := h.agrees
  placed := h.placed
  holds := by
    intro o ho a ha v hv
    rw [getElem?_grow_of_lt (h.live_word_lt ho ha)] at hv
    refine (h.holds ho ha v hv).mono ?_ fun _ _ => rfl
    rw [length_grow]
    exact Nat.le_succ _
  made := by
    intro u o hu
    obtain ⟨hline, hnew, hinside, howner⟩ := h.made hu
    refine ⟨hline, hnew, ?_, fun a ha => ?_⟩
    · rw [length_grow]
      omega
    · exact (if_pos (h.live_word_lt (.inr ⟨u, hu⟩) ha)).trans (howner a ha)
  words := by
    intro a ha hext
    rw [getElem?_grow_of_lt (Nat.lt_of_lt_of_le ha h.grown)]
    exact h.words a ha hext

/-- What is in use after an array has been made. -/
theorem live_make (h : A.Live (g.make t o x) o') : o' = o ∨ A.ext o' ∨ ∃ u, u ≠ t ∧ g.made u = some o' := by
  rcases h with h | ⟨u, hu⟩
  · exact .inr (.inl h)
  · by_cases heq : u = t
    · rw [heq, Ghost.made_make_self] at hu
      exact .inl (Option.some.inj hu).symm
    · rw [Ghost.made_make_of_ne heq] at hu
      exact .inr (.inr ⟨u, heq, hu⟩)

/-- **A new array** takes its words of the frame, in place of the one that its
line has made before. -/
theorem Laid.array (h : A.Laid g mem c) {words line : Nat}
    (hline : A.code.flat.lines[line]? = some (.instr ⟨some t, .array words⟩)) (hpos : 0 < words) :
    A.Laid (g.make t ⟨mem.length, words⟩
      (A.sp + A.code.home.frame.arrayOffset (arrayWords (A.code.flat.lines.take line))))
      (mem.grow words) c := by
  set x := A.sp + A.code.home.frame.arrayOffset (arrayWords (A.code.flat.lines.take line)) with hx
  set g' := g.make t ⟨mem.length, words⟩ x
  have hlen := length_grow mem words
  have hnew : A.Made g' (mem.grow words) t ⟨mem.length, words⟩ := by
    refine ⟨⟨line, hline, Ghost.loc_make_self⟩, h.grown, ⟨hpos, by rw [hlen]⟩, fun a ha => ?_⟩
    exact if_neg (Nat.not_lt.2 ha.1)
  have hloc : ∀ b < mem.length, g'.loc b = g.loc b := fun b hb =>
    Ghost.loc_make_of_lt (o := ⟨mem.length, words⟩) hb
  have hold : ∀ {o'}, A.Live g' o' → o' ≠ ⟨mem.length, words⟩ → A.Live g o' ∧
      g'.loc o'.base = g.loc o'.base := by
    intro o' ho' hne
    have hlive : A.Live g o' := by
      rcases live_make ho' with rfl | hext | ⟨u, -, hu⟩
      · exact absurd rfl hne
      · exact .inl hext
      · exact .inr ⟨u, hu⟩
    exact ⟨hlive, hloc _ (h.live_base_lt hlive)⟩
  have hmade : ∀ ⦃u o'⦄, g'.made u = some o' → A.Made g' (mem.grow words) u o' := by
    intro u o' hu
    by_cases heq : u = t
    · subst heq
      rw [show g'.made u = _ from Ghost.made_make_self] at hu
      cases hu
      exact hnew
    · rw [show g'.made u = _ from Ghost.made_make_of_ne heq] at hu
      obtain ⟨⟨j, hj, hjloc⟩, hfresh, hinside, howner⟩ := h.made hu
      have hlive : A.Live g o' := .inr ⟨u, hu⟩
      refine ⟨⟨j, hj, ?_⟩, hfresh, ⟨hinside.1, by omega⟩, fun a ha => ?_⟩
      · rw [hloc _ (h.live_base_lt hlive), hjloc]
      · exact (Ghost.owner_make_of_lt (o := ⟨mem.length, words⟩) (h.live_word_lt hlive ha)).trans
          (howner a ha)
  -- the words of the frame that an array takes are no other object's
  have hspans : ∀ {o'}, A.Live g' o' → o' ≠ ⟨mem.length, words⟩ → ∀ {y},
      Object.Spans g'.loc ⟨mem.length, words⟩ y → ¬ o'.Spans g'.loc y := by
    intro o' ho' hne y hy hy'
    have hregion := hnew.region
    have hareas := A.code.frame.areas
    have hlow := A.low_le
    obtain ⟨h1, h2⟩ := hy
    obtain ⟨h1', h2'⟩ := hy'
    rcases live_make ho' with rfl | hext | ⟨u, hut, hu⟩
    · exact hne rfl
    · have haway := A.away hext
      rw [(hold ho' hne).2, h.agrees _ (ext_base_lt hext)] at h1' h2'
      omega
    · obtain ⟨j, hj, hjloc⟩ := (h.made hu).line
      have hapart := arrays_apart hline hj hut
      have hself : g'.loc mem.length = x := Ghost.loc_make_self (o := ⟨mem.length, words⟩)
      rw [(hold ho' hne).2, hjloc] at h1' h2'
      simp only [hself, hx, Frame.arrayOffset, wordSize] at h1 h2 h1' h2' hapart
      omega
  have hwords : ∀ {o'}, A.Live g' o' → o' ≠ ⟨mem.length, words⟩ → ∀ {a},
      Object.Has ⟨mem.length, words⟩ a → ¬ o'.Has a := by
    intro o' ho' hne a ha ha'
    exact absurd (h.live_word_lt (hold ho' hne).1 ha') (Nat.not_lt.2 ha.1)
  have hregion := hnew.region
  have hareas := A.code.frame.areas
  have htop := A.top
  have hgrown := h.grown
  refine ⟨by omega, fun a ha => ?_, h.placed.insert hold hregion.2.2 (by omega) hwords hspans,
    fun o' ho' a ha v hv => ?_, hmade, fun a ha hext => ?_⟩
  · rw [hloc _ (Nat.lt_of_lt_of_le ha hgrown), h.agrees a ha]
  · by_cases heq : o' = ⟨mem.length, words⟩
    · rw [heq] at ha
      exact absurd hv (getElem?_grow_ne ha.1)
    · obtain ⟨hlive, hsame⟩ := hold ho' heq
      rw [getElem?_grow_of_lt (h.live_word_lt hlive ha)] at hv
      rw [hsame]
      exact (h.holds hlive ha v hv).mono (by omega) hloc
  · rw [getElem?_grow_of_lt (Nat.lt_of_lt_of_le ha h.grown)]
    exact h.words a ha hext

/-! ## Stores -/

/-- A store into a word that belongs to no object. -/
theorem Laid.setCell (h : A.Laid g mem c) (hnew : A.start.length ≤ b)
    (hb : ∀ o, A.Live g o → ¬ o.Has b) (v : Val) : A.Laid g (mem.set b (some v)) c where
  grown := by
    rw [length_set]
    exact h.grown
  agrees := h.agrees
  placed := h.placed
  holds := by
    intro o ho a ha v' hv'
    have hne : b ≠ a := fun heq => hb o ho (heq ▸ ha)
    rw [getElem?_set_ne hne] at hv'
    rw [length_set]
    exact h.holds ho ha v' hv'
  made := by
    intro u o hu
    obtain ⟨hline, hfresh, hinside, howner⟩ := h.made hu
    exact ⟨hline, hfresh, by rwa [length_set], howner⟩
  words := by
    intro a ha hext
    rw [getElem?_set_ne (by omega)]
    exact h.words a ha hext

/-- **A store into an object.** -/
theorem Laid.store (h : A.Laid g mem c) (ho : A.Live g o) (ha : o.Has a)
    (hw : IsWord g.loc mem.length v w) :
    A.Laid g (mem.set a (some v)) (c.poke (g.loc o.base + 4 * (a - o.base)) w) where
  grown := by
    rw [length_set]
    exact h.grown
  agrees := h.agrees
  placed := h.placed
  holds := by
    intro o' ho' a' ha' v' hv'
    rw [length_set]
    have hother : a' ≠ a → IsWord g.loc mem.length v'
        ((c.poke (g.loc o.base + 4 * (a - o.base)) w).mem (g.loc o'.base + 4 * (a' - o'.base))) := by
      intro hne
      rw [getElem?_set_ne hne.symm] at hv'
      rw [Cpu.mem_poke_of_ne fun hx => ?_]
      · exact h.holds ho' ha' v' hv'
      · by_cases heq : o' = o
        · subst heq
          obtain ⟨h1, -⟩ := ha
          obtain ⟨h1', -⟩ := ha'
          omega
        · exact h.placed.spans ho' ho heq (ha'.spans g.loc) (hx ▸ ha.spans g.loc)
    by_cases hne : a' = a
    · subst hne
      have heq : o' = o := by
        by_contra hne
        exact h.placed.words ho' ho hne ha' ha
      subst heq
      rw [getElem?_set_self (h.live_word_lt ho ha)] at hv'
      cases hv'
      rw [Cpu.mem_poke_self]
      exact hw
    · exact hother hne
  made := by
    intro u o' hu
    obtain ⟨hline, hfresh, hinside, howner⟩ := h.made hu
    exact ⟨hline, hfresh, by rwa [length_set], howner⟩
  words := by
    intro a' ha' hext
    rw [getElem?_set_ne ?_]
    · exact h.words a' ha' hext
    · rintro rfl
      rcases h.region ho with ⟨hmem, -⟩ | ⟨hnew, -⟩
      · exact hext o hmem ha
      · obtain ⟨h1, -⟩ := ha
        omega

/-! ## Calls -/

/-- **What a call does**, seen from the caller, to the objects in use and to the
registers and the memory that it has to preserve. -/
structure Called (A : Activation img m) (g : Ghost) (mem : Memory) (c : Cpu) (loc : Nat → Nat)
    (mem' : Memory) (c' : Cpu) : Prop where
  /-- Memory only grows. -/
  grown : mem.length ≤ mem'.length
  /-- Objects stay where they are. -/
  agrees : ∀ a < mem.length, loc a = g.loc a
  /-- Their words are there. -/
  holds : Holds loc (A.Live g) mem' c'.mem
  /-- The stack pointer and saved registers are the same. -/
  stack : c'.get .sp = c.get .sp
  saved : ∀ i, c'.get (.s i) = c.get (.s i)
  /-- Memory does not change outside of the stack below, of outgoing arguments
  and of objects. -/
  outside : ∀ x, x < A.low ∨ A.sp + A.code.home.frame.spills ≤ x →
    (∀ o, A.Live g o → ¬ o.Spans g.loc x) → c'.mem x = c.mem x
  words : ∀ a < mem.length, (∀ o, A.Live g o → ¬ o.Has a) → mem'[a]? = mem[a]?

theorem Laid.call (h : A.Laid g mem c) {loc : Nat → Nat} (hcall : A.Called g mem c loc mem' c') :
    A.Laid { g with loc } mem' c' := by
  have hloc : ∀ ⦃o⦄, A.Live g o → loc o.base = g.loc o.base :=
    fun o ho => hcall.agrees _ (h.live_base_lt ho)
  have hspans : ∀ ⦃o⦄, A.Live g o → ∀ ⦃x⦄, o.Spans loc x → o.Spans g.loc x := by
    intro o ho x hx
    unfold Object.Spans at hx
    rwa [hloc ho] at hx
  refine ⟨Nat.le_trans h.grown hcall.grown, fun a ha => ?_, ⟨fun o ho => ?_, fun o ho => ?_,
    h.placed.words, fun o o' ho ho' hne x hx hx' => ?_⟩, hcall.holds, fun u o hu => ?_,
    fun a ha hext => ?_⟩
  · exact (hcall.agrees a (Nat.lt_of_lt_of_le ha h.grown)).trans (h.agrees a ha)
  · exact (congrArg (· % 4) (hloc ho)).trans (h.placed.aligned ho)
  · have hfits := h.placed.fits ho
    rwa [← hloc ho] at hfits
  · exact h.placed.spans ho ho' hne (hspans ho hx) (hspans ho' hx')
  · obtain ⟨⟨j, hj, hjloc⟩, hfresh, hinside, howner⟩ := h.made hu
    have hgrown := hcall.grown
    exact ⟨⟨j, hj, (hloc (.inr ⟨u, hu⟩)).trans hjloc⟩, hfresh, ⟨hinside.1, by omega⟩, howner⟩
  · rw [hcall.words a (Nat.lt_of_lt_of_le ha h.grown), h.words a ha hext]
    intro o ho hhas
    rcases h.region ho with ⟨hmem, -⟩ | ⟨hnew, -⟩
    · exact hext o hmem hhas
    · obtain ⟨h1, -⟩ := hhas
      omega

theorem Kept.call (h : A.Kept c) (hlaid : A.Laid g mem c) {loc : Nat → Nat}
    (hcall : A.Called g mem c loc mem' c') : A.Kept c' := by
  have hareas := A.code.frame.areas
  have hlow := A.low_le
  refine ⟨hcall.stack.trans h.stack, fun y hy => ?_, fun i hi => (hcall.saved i).trans (h.unused i hi),
    fun y hy hext => ?_⟩
  · have hcell := A.stands.cell hy
    rw [hcall.outside _ (by omega), h.cells y hy]
    rintro o ho ⟨h1, h2⟩
    rcases hlaid.region ho with ⟨-, -, haway⟩ | ⟨-, hin, hin'⟩ <;> omega
  · rw [hcall.outside y (by omega), h.outside y hy hext]
    rintro o ho ⟨h1, h2⟩
    rcases hlaid.region ho with ⟨hmem, hloc, -⟩ | ⟨-, hin, hin'⟩
    · exact hext o hmem ⟨hloc ▸ h1, hloc ▸ h2⟩
    · omega

/-! ## Where temporaries are -/

/-- **A temporary that is not assigned stays where it is.** -/
theorem Sits.keep (h : A.Sits g n temps mem c t k) (htemps : temps' t = temps t)
    (hlen : mem.length ≤ mem'.length) (hloc : ∀ a < mem.length, g'.loc a = g.loc a)
    (howner : ∀ a < mem.length, g'.owner a = g.owner a) (hmade : g'.made t = g.made t)
    (hlive : k = .pointer → ∀ o, A.Live g o → A.Live g' o)
    (hcell : A.code.home.kinds[t]? = some .scalar → ∀ b, temps t = .addr (.first b 1) →
      A.start.length ≤ b → b < mem.length → g.owner b = t → mem'[b]? = mem[b]?)
    (hplace : ∀ kind, A.code.home.kinds[t]? = some kind → (∀ first, kind ≠ .array first) →
      ∀ pl i, placeAt A.code.home.plan.places t = some pl → intervalAt A.code.intervals t = some i →
        n' ≤ i.stop → n ≤ i.stop ∧
          A.code.home.placeWord A.sp c' pl = A.code.home.placeWord A.sp c pl) :
    A.Sits g' n' temps' mem' c' t k := by
  have hinPlace : ∀ {kind v}, A.code.home.kinds[t]? = some kind → (∀ first, kind ≠ .array first) →
      A.InPlace g n mem c t v → A.InPlace g' n' mem' c' t v := by
    intro kind v hkind hne hin pl i hpl hi hn
    obtain ⟨hn', hword⟩ := hplace kind hkind hne pl i hpl hi hn
    rw [hword]
    exact (hin hpl hi hn').mono hlen hloc
  have hcells : A.IsCell g n temps mem c t k → A.IsCell g' n' temps' mem' c' t k := by
    rintro ⟨hkind, b, haddr, hnew, hb, hown, hcontents⟩
    refine ⟨hkind, b, htemps.trans haddr, hnew, Nat.lt_of_lt_of_le hb hlen,
      (howner b hb).trans hown, fun v hv => ?_⟩
    rw [hcell hkind b haddr hnew hb hown] at hv
    exact ⟨hinPlace hkind nofun (hcontents v hv).1, (hcontents v hv).2⟩
  have hvalues : A.IsValue g n temps mem c t k → A.IsValue g' n' temps' mem' c' t k := by
    rintro ⟨hkind, hin, hpoints⟩
    refine ⟨hkind, htemps ▸ hinPlace hkind nofun hin, fun hk p hp => ?_⟩
    exact hlive hk _ (hpoints hk p (htemps ▸ hp))
  cases k with
  | cell | pointerCell => exact hcells h
  | pointer | data => exact hvalues h
  | object words =>
    obtain ⟨o, ho, hsize, haddr⟩ := h
    exact ⟨o, hmade.trans ho, hsize, htemps.trans haddr⟩

end Activation

end Rv32

end SysY
