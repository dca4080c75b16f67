import SysY.Proofs.Scan

/-!
# Scanning from a boundary

A scanner at a token boundary has nothing pending, so what it finds from there
on depends on the text that is left and on where that stands, and on nothing
that it has read before (`State.run_eq_scanFrom`). The fields of its state may be
stale: they are read only in the modes that have set them. And if the text that
is left stands so many lines further down, so does all that is found in it
(`scanFrom_down`).

Between two boundaries, what a character does is said by one equation for each
reaction (`State.run_shift` and the equations after it).
-/

namespace SysY

/-! ## Positions -/

namespace Position

/-- Where the character after `cs` stands, when these stand from `p` on. -/
def afterAll (p : Position) (cs : List Char) : Position := cs.foldl after p

@[simp] theorem afterAll_nil (p : Position) : p.afterAll [] = p := rfl

@[simp] theorem afterAll_cons (p : Position) (c : Char) (cs : List Char) :
    p.afterAll (c :: cs) = (p.after c).afterAll cs := rfl

@[simp] theorem afterAll_append (p : Position) (cs ds : List Char) :
    p.afterAll (cs ++ ds) = (p.afterAll cs).afterAll ds := List.foldl_append

/-- A character that is no newline takes one column. -/
theorem after_of_ne {c : Char} (p : Position) (h : c ≠ '\n') : p.after c = p.next := if_neg h

/-- Every newline begins a line. -/
theorem line_afterAll (p : Position) (cs : List Char) :
    (p.afterAll cs).line = p.line + cs.count '\n' := by
  induction cs generalizing p with
  | nil => rfl
  | cons c cs ih =>
    rw [afterAll_cons, ih, List.count_cons]
    unfold after
    by_cases hc : c = '\n'
    · rw [if_pos hc, if_pos (beq_iff_eq.2 hc), nextLine_line]
      omega
    · rw [if_neg hc, if_neg (mt beq_iff_eq.1 hc), next_line]
      omega

/-- The same column so many lines further down. -/
def down (k : Nat) (p : Position) : Position := ⟨p.line + k, p.column⟩

theorem after_down (k : Nat) (p : Position) (c : Char) : (p.down k).after c = (p.after c).down k := by
  unfold after
  split
  · exact congrArg (fun line => Position.mk line 1) (Nat.add_right_comm ..)
  · rfl

end Position

def Span.down (k : Nat) (s : Span) : Span := ⟨s.start.down k, s.stop.down k⟩

def Located.down {α : Type} (k : Nat) (x : Located α) : Located α := ⟨x.value, x.span.down k⟩

theorem Input.place_append (p : Position) (cs ds : List Char) :
    place p (cs ++ ds) = place p cs ++ place (p.afterAll cs) ds := by
  induction cs generalizing p with
  | nil => rfl
  | cons c cs ih => exact congrArg (Item.char c p :: ·) (ih (p.after c))

namespace Scan

open Input (place)

def Found.down (k : Nat) : Found → Found
  | .ok t => .ok (t.down k)
  | .error e => .error (e.down k)

/-- **What is found in a text from a boundary on**, when the text stands from
`p` on. -/
def scanFrom (p : Position) (cs : List Char) : List Found := State.run ⟨.boundary, p, p⟩ (place p cs)

theorem items_ofString (text : String) :
    items (Input.ofString text) = scanFrom Position.origin text.toList := rfl

namespace State

variable {s s' : State} {c : Char} {cs : List Char} {p : Position} {t : Token} {e : Error} {m : Mode}

theorem run_char (s : State) (c : Char) (p : Position) (cs : List Char) :
    s.run (place p (c :: cs))
      = (s.feed (.char c p)).2 ++ (s.feed (.char c p)).1.run (place (p.after c) cs) := rfl

theorem feed_take {step : Step} (h : s.mode.react c = .take step) :
    s.feed (.char c p)
      = take ⟨s.mode, if s.mode = .boundary then p else s.start, s.last⟩ c p step := by
  rw [feed, h]

theorem feed_endBefore (h : s.mode.react c = .endBefore t) :
    s.feed (.char c p) = ((take ⟨s.mode, p, s.last⟩ c p (begin c)).1,
      s.token t :: (take ⟨s.mode, p, s.last⟩ c p (begin c)).2) := by
  rw [feed, h]

/-! ## Stale fields -/

/-- Two states from which the same is found: they are the same, or in a mode in
which nothing is pending, or in a comment that began at the same place. -/
def Alike (s s' : State) : Prop :=
  s = s' ∨ s.mode = s'.mode ∧
    (s.mode = .boundary ∨ s.mode = .skip ∨ s.start = s'.start ∧ ∃ star, s.mode = .blockComment star)

theorem take_alike {start : Position} (step : Step) (last last' : Position) (m m' : Mode) :
    (take ⟨m, start, last⟩ c p step).2 = (take ⟨m', start, last'⟩ c p step).2 ∧
      Alike (take ⟨m, start, last⟩ c p step).1 (take ⟨m', start, last'⟩ c p step).1 := by
  cases step with
  | shift | complete => exact ⟨rfl, .inl rfl⟩
  | fail =>
    refine ⟨rfl, .inr ⟨rfl, ?_⟩⟩
    by_cases hc : (c == '\n') = true
    · exact .inl (if_pos hc)
    · exact .inr (.inl (if_neg hc))

/-- **A character takes states that are alike to states that are alike.** -/
theorem feed_alike (h : Alike s s') (c : Char) (p : Position) :
    (s.feed (.char c p)).2 = (s'.feed (.char c p)).2 ∧
      Alike (s.feed (.char c p)).1 (s'.feed (.char c p)).1 := by
  obtain rfl | ⟨hmode, hfree⟩ := h
  · exact ⟨rfl, .inl rfl⟩
  obtain ⟨m, start, last⟩ := s
  obtain ⟨m', start', last'⟩ := s'
  obtain rfl : m = m' := hmode
  obtain rfl | rfl | ⟨rfl, star, rfl⟩ := hfree
  · exact take_alike (begin c) last last' _ _
  · refine ⟨rfl, .inr ⟨rfl, ?_⟩⟩
    by_cases hc : (c == '\n') = true
    · exact .inl (if_pos hc)
    · exact .inr (.inl (if_neg hc))
  · exact ⟨rfl, .inl rfl⟩

/-- **From states that are alike the same is found.** -/
theorem run_alike (h : Alike s s') (p : Position) (cs : List Char) :
    s.run (place p cs) = s'.run (place p cs) := by
  induction cs generalizing s s' p with
  | nil =>
    obtain rfl | ⟨hmode, hfree⟩ := h
    · rfl
    · show s.finish = s'.finish
      unfold finish
      obtain hfree | hfree | ⟨hstart, star, hfree⟩ := hfree
      · rw [← hmode, hfree]
        rfl
      · rw [← hmode, hfree]
        rfl
      · rw [← hmode, hfree]
        show [s.error .unterminatedComment] = [s'.error .unterminatedComment]
        rw [error, error, hstart]
  | cons c cs ih =>
    obtain ⟨hfound, hnext⟩ := feed_alike h c p
    rw [run_char, run_char, hfound, ih hnext]

/-- **At a boundary nothing is left of what was read before.** -/
theorem run_eq_scanFrom (h : s.mode = .boundary) (p : Position) (cs : List Char) :
    s.run (place p cs) = scanFrom p cs :=
  run_alike (.inr ⟨h, .inl h⟩) p cs

/-! ## One character -/

/-- A character that continues what is pending. -/
theorem run_shift (hmode : s.mode ≠ .boundary) (h : s.mode.react c = .take (.shift m)) :
    s.run (place p (c :: cs)) = State.run ⟨m, s.start, p⟩ (place (p.after c) cs) := by
  rw [run_char, feed_take h, if_neg hmode]
  rfl

/-- A character that completes a token. -/
theorem run_complete (hmode : s.mode ≠ .boundary) (h : s.mode.react c = .take (.complete t)) :
    s.run (place p (c :: cs)) = .ok ⟨t, ⟨s.start, p.next⟩⟩ :: scanFrom (p.after c) cs := by
  rw [run_char, feed_take h, if_neg hmode]
  exact congrArg (_ :: ·) (run_eq_scanFrom rfl _ _)

/-- A character before which a token ends, and which is then at a boundary. -/
theorem run_endBefore (h : s.mode.react c = .endBefore t) :
    s.run (place p (c :: cs)) = s.token t :: scanFrom p (c :: cs) := by
  rw [run_char, feed_endBefore h]
  exact congrArg (s.token t :: ·) (run_eq_scanFrom (s := { s with mode := .boundary }) rfl p (c :: cs))

/-- A character with which an error is found. -/
theorem run_fail (hmode : s.mode ≠ .boundary) (h : s.mode.react c = .take (.fail e)) :
    s.run (place p (c :: cs)) = s.error e ::
      State.run ⟨if c == '\n' then .boundary else .skip, s.start, s.last⟩ (place (p.after c) cs) := by
  rw [run_char, feed_take h, if_neg hmode]
  rfl

end State

variable {c : Char} {cs : List Char} {p : Position} {t : Token} {e : Error} {m : Mode}

/-! ## One character at a boundary -/

theorem scanFrom_shift (h : begin c = .shift m) :
    scanFrom p (c :: cs) = State.run ⟨m, p, p⟩ (place (p.after c) cs) := by
  rw [scanFrom, State.run_char, State.feed_take (s := ⟨.boundary, p, p⟩) (congrArg Reaction.take h)]
  rfl

theorem scanFrom_complete (h : begin c = .complete t) :
    scanFrom p (c :: cs) = .ok ⟨t, ⟨p, p.next⟩⟩ :: scanFrom (p.after c) cs := by
  rw [scanFrom, State.run_char, State.feed_take (s := ⟨.boundary, p, p⟩) (congrArg Reaction.take h)]
  exact congrArg (_ :: ·) (State.run_eq_scanFrom rfl _ _)

theorem scanFrom_fail (h : begin c = .fail e) :
    scanFrom p (c :: cs) = .error ⟨e, Span.single p⟩ ::
      State.run ⟨if c == '\n' then .boundary else .skip, p, p⟩ (place (p.after c) cs) := by
  rw [scanFrom, State.run_char, State.feed_take (s := ⟨.boundary, p, p⟩) (congrArg Reaction.take h)]
  rfl

/-- Blanks are passed over. -/
theorem scanFrom_boundary (h : begin c = .shift .boundary) :
    scanFrom p (c :: cs) = scanFrom (p.after c) cs :=
  (scanFrom_shift h).trans (State.run_eq_scanFrom rfl _ _)

/-! ## Lines further down -/

namespace State

def down (k : Nat) (s : State) : State := ⟨s.mode, s.start.down k, s.last.down k⟩

theorem take_down (k : Nat) (s : State) (c : Char) (p : Position) (step : Step) :
    (s.down k).take c (p.down k) step
      = ((s.take c p step).1.down k, (s.take c p step).2.map (Found.down k)) := by
  cases step <;> rfl

theorem feed_down (k : Nat) (s : State) (c : Char) (p : Position) :
    (s.down k).feed (.char c (p.down k))
      = ((s.feed (.char c p)).1.down k, (s.feed (.char c p)).2.map (Found.down k)) := by
  cases h : s.mode.react c with
  | take step =>
    rw [feed_take h, feed_take (s := s.down k) h, ← take_down]
    by_cases hmode : s.mode = .boundary
    · rw [if_pos hmode, if_pos (show (s.down k).mode = _ from hmode)]
      rfl
    · rw [if_neg hmode, if_neg (show (s.down k).mode ≠ _ from hmode)]
  | endBefore t =>
    have htake : take ⟨(s.down k).mode, p.down k, (s.down k).last⟩ c (p.down k) (begin c) = _ :=
      take_down k ⟨s.mode, p, s.last⟩ c p (begin c)
    rw [feed_endBefore h, feed_endBefore (s := s.down k) h, htake]
    exact rfl

theorem run_down (k : Nat) (s : State) (p : Position) (cs : List Char) :
    (s.down k).run (place (p.down k) cs) = (s.run (place p cs)).map (Found.down k) := by
  induction cs generalizing s p with
  | nil =>
    show (s.down k).finish = s.finish.map (Found.down k)
    unfold finish
    rw [show (s.down k).mode = s.mode from rfl]
    split <;> rfl
  | cons c cs ih =>
    rw [run_char, run_char, feed_down, List.map_append, Position.after_down, ih]

end State

/-- **What is found in a text that stands further down** is found further down. -/
theorem scanFrom_down (k : Nat) (p : Position) (cs : List Char) :
    scanFrom (p.down k) cs = (scanFrom p cs).map (Found.down k) :=
  State.run_down k ⟨.boundary, p, p⟩ p cs

end Scan

end SysY
