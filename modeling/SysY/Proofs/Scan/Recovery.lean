import SysY.Proofs.Scan.Fresh

/-!
# Errors cost the rest of their line

An error is found with a character of the line on which the pending token began,
because a token never goes on after a newline, or at the end of the text. Then
the rest of that line is skipped, so that scanning goes on as if the text began
with the line after it. The only error that is not found on the line where it is
reported is a comment that is never closed, and after that there is nothing left
to be read.

What one character does is `State.feed_error`; a run that finds an error is cut
there (`State.resumes_of_error`).
-/

namespace SysY.Scan

open Input (place)
open List

/-! ## Modes inside a token -/

/-- Whether a token is pending. It then began on the line on which the scanner
is. -/
def Mode.inToken : Mode → Bool
  | relational .. | doubled .. | slash | number _ | word _ => true
  | boundary | skip | lineComment | blockComment _ => false

variable {m : Mode}

/-- What is pending after a blank or a newline is no token. -/
theorem begin_shift_inToken {c : Char} (h : begin c = .shift m) (hm : m.inToken = true) :
    c ≠ '\n' := by
  rintro rfl
  have hblank : begin '\n' = .shift .boundary := by decide
  cases hblank.symm.trans h
  cases hm

/-- **A token is pending after a character only if the character is no newline**
and the token has begun with it or before it. -/
theorem react_shift_inToken {c : Char} {m' : Mode} (h : m.react c = .take (.shift m'))
    (hm : m'.inToken = true) : c ≠ '\n' ∧ (m = .boundary ∨ m.inToken = true) := by
  cases m with
  | boundary => exact ⟨begin_shift_inToken (Reaction.take.inj h) hm, .inl rfl⟩
  | skip | lineComment | blockComment star =>
    cases h
    split at hm <;> cases hm
  | relational short long | doubled d mark =>
    simp only [Mode.react] at h
    split at h <;> cases h
  | slash =>
    simp only [Mode.react] at h
    split at h
    · cases h
      cases hm
    · split at h
      · cases h
        cases hm
      · cases h
  | number text =>
    refine ⟨?_, .inr rfl⟩
    rintro rfl
    rw [Mode.react, if_neg (by decide)] at h
    split at h <;> cases h
  | word text =>
    refine ⟨?_, .inr rfl⟩
    rintro rfl
    rw [Mode.react, if_neg (by decide)] at h
    cases h

/-- A character with which an error is found begins a token, or one is
pending. -/
theorem react_fail {c : Char} {e : Error} (h : m.react c = .take (.fail e)) :
    m = .boundary ∨ m.inToken = true := by
  cases m with
  | boundary => exact .inl rfl
  | skip | lineComment | blockComment => cases h
  | relational | doubled | slash | number | word => exact .inr rfl

namespace State

variable {s : State} {c : Char} {cs : List Char} {p : Position} {before after : List Found}
  {e : Located Error}

/-- A token that is pending began on the line of `p`. -/
def OnLine (s : State) (p : Position) : Prop := s.mode.inToken = true → s.start.line = p.line

/-- Where a token begins that is pending after a character that is taken. -/
theorem OnLine.start (h : s.OnLine p) (hmode : s.mode = .boundary ∨ s.mode.inToken = true) :
    (if s.mode = .boundary then p else s.start).line = p.line := by
  split
  next => rfl
  next hne => exact h (hmode.resolve_left hne)

/-- What a step takes up is on the line of `p`, and an error is the last that is
found. -/
theorem take_error (m : Mode) {start : Position} (last : Position) {step : Step}
    (hshift : ∀ m', step = .shift m' → m'.inToken = true → c ≠ '\n' ∧ start.line = p.line)
    (hfail : ∀ e, step = .fail e → start.line = p.line) :
    (take ⟨m, start, last⟩ c p step).1.OnLine (p.after c) ∧
      ∀ before e after, (take ⟨m, start, last⟩ c p step).2 = before ++ .error e :: after →
        after = [] ∧ e.line = p.line ∧
          (take ⟨m, start, last⟩ c p step).1.mode = if c == '\n' then .boundary else .skip := by
  cases step with
  | shift m' =>
    refine ⟨fun hm => ?_, fun before e after h => ?_⟩
    · obtain ⟨hc, hline⟩ := hshift m' rfl hm
      rw [p.after_of_ne hc]
      exact hline
    · cases append_eq_nil_iff.1 h.symm |>.2
  | complete t =>
    refine ⟨(fun hm => by cases hm), fun before e after h => ?_⟩
    cases before with
    | nil => cases h
    | cons f before => cases append_eq_nil_iff.1 (List.cons.inj h).2.symm |>.2
  | fail e' =>
    refine ⟨fun hm => ?_, fun before e after h => ?_⟩
    · by_cases hc : (c == '\n') = true
      · rw [show (take ⟨m, start, last⟩ c p (.fail e')).1.mode = _ from if_pos hc] at hm
        cases hm
      · rw [show (take ⟨m, start, last⟩ c p (.fail e')).1.mode = _ from if_neg hc] at hm
        cases hm
    · cases before with
      | nil =>
        cases h
        exact ⟨rfl, hfail e' rfl, rfl⟩
      | cons f before => cases append_eq_nil_iff.1 (List.cons.inj h).2.symm |>.2

/-- **What a character does**: a token that is then pending is on the line, and so
is an error that is found, after which the line is given up. -/
theorem feed_error (h : s.OnLine p) (c : Char) :
    (s.feed (.char c p)).1.OnLine (p.after c) ∧
      ∀ before e after, (s.feed (.char c p)).2 = before ++ .error e :: after →
        after = [] ∧ e.line = p.line ∧
          (s.feed (.char c p)).1.mode = if c == '\n' then .boundary else .skip := by
  cases hreact : s.mode.react c with
  | take step =>
    rw [feed_take hreact]
    refine take_error s.mode s.last (fun m' hstep hm => ?_) fun e hstep => ?_
    · subst hstep
      obtain ⟨hc, hmode⟩ := react_shift_inToken hreact hm
      exact ⟨hc, h.start hmode⟩
    · subst hstep
      exact h.start (react_fail hreact)
  | endBefore t =>
    rw [feed_endBefore hreact]
    obtain ⟨hon, herror⟩ := take_error s.mode s.last (p := p)
      (fun m' (hstep : begin c = .shift m') hm => ⟨begin_shift_inToken hstep hm, rfl⟩) fun _ _ => rfl
    refine ⟨hon, fun before e after hfound => ?_⟩
    cases before with
    | nil => cases hfound
    | cons f before => exact herror before e after (List.cons.inj hfound).2

/-- At the end of a text an error is found on the last line, unless a comment is
open. -/
theorem finish_error (h : s.OnLine p) (hfound : s.finish = before ++ .error e :: after) :
    after = [] ∧ (e.value = .unterminatedComment ∨ e.line = p.line) := by
  unfold finish at hfound
  split at hfound
  next => cases append_eq_nil_iff.1 hfound.symm |>.2
  next =>
    cases before with
    | nil => cases hfound
    | cons f before => cases append_eq_nil_iff.1 (List.cons.inj hfound).2.symm |>.2
  next e' hclose =>
    cases before with
    | cons f before => cases append_eq_nil_iff.1 (List.cons.inj hfound).2.symm |>.2
    | nil =>
      cases hfound
      refine ⟨rfl, ?_⟩
      cases hmode : s.mode with
      | blockComment star =>
        rw [hmode] at hclose
        cases hclose
        exact .inl rfl
      | doubled | number => exact .inr (h (by rw [hmode]; rfl))
      | boundary | skip | lineComment | relational | slash | word =>
        rw [hmode] at hclose
        cases hclose

end State

/-! ## Skipping a line -/

/-- **Scanning goes on with the next line**: what is found from there on is what
is found in the text after the first newline of `cs`, from a boundary, and
nothing if there is none. -/
structure Resumes (p : Position) (cs : List Char) (found : List Found) : Prop where
  next : ∀ ⦃pre post : List Char⦄, cs = pre ++ '\n' :: post → '\n' ∉ pre →
    found = scanFrom p.nextLine post
  rest : '\n' ∉ cs → found = []

theorem Resumes.newline (p : Position) (cs : List Char) :
    Resumes p ('\n' :: cs) (scanFrom p.nextLine cs) where
  next := by
    intro pre post heq hpre
    cases pre with
    | nil => rw [(List.cons.inj heq).2]
    | cons c pre => exact absurd (mem_cons.2 (.inl (List.cons.inj heq).1)) hpre
  rest := fun h => absurd mem_cons_self h

variable {found : List Found}

theorem Resumes.cons {p : Position} {c : Char} {cs : List Char} (h : Resumes p.next cs found)
    (hc : c ≠ '\n') : Resumes p (c :: cs) found where
  next := by
    intro pre post heq hpre
    cases pre with
    | nil => exact absurd (List.cons.inj heq).1 hc
    | cons d pre =>
      exact h.next (List.cons.inj heq).2 fun hmem => hpre (mem_cons_of_mem _ hmem)
  rest := fun hcs => h.rest fun hmem => hcs (mem_cons_of_mem _ hmem)

namespace State

variable {s : State} {c : Char} {cs : List Char} {p : Position} {before after : List Found}
  {e : Located Error}

/-- **A line that is skipped** is skipped with its newline. -/
theorem resumes_of_skip (h : s.mode = .skip) (p : Position) (cs : List Char) :
    Resumes p cs (s.run (place p cs)) := by
  induction cs generalizing s p with
  | nil =>
    have hrun : s.run (place p []) = [] := by
      show s.finish = []
      rw [finish, h]
      rfl
    exact ⟨fun pre post heq _ => by simp at heq, fun _ => hrun⟩
  | cons c cs ih =>
    have hne : s.mode ≠ .boundary := by
      rw [h]
      exact Mode.noConfusion
    by_cases hc : c = '\n'
    · subst hc
      have hreact : s.mode.react '\n' = .take (.shift .boundary) := by
        rw [h]
        rfl
      rw [run_shift hne hreact, run_eq_scanFrom rfl]
      exact .newline p cs
    · have hreact : s.mode.react c = .take (.shift .skip) := by
        rw [h, Mode.react, if_neg (mt beq_iff_eq.1 hc)]
      rw [run_shift hne hreact, p.after_of_ne hc]
      exact (ih rfl p.next).cons hc

/-- After an error that was found with `c`. -/
theorem resumes_of_mode (h : s.mode = if c == '\n' then .boundary else .skip) (p : Position)
    (cs : List Char) : Resumes p (c :: cs) (s.run (place (p.after c) cs)) := by
  by_cases hc : c = '\n'
  · subst hc
    rw [run_eq_scanFrom (s := s) h]
    exact .newline p cs
  · rw [if_neg (mt beq_iff_eq.1 hc)] at h
    rw [p.after_of_ne hc]
    exact (resumes_of_skip h p.next cs).cons hc

/-- **A run in which an error is found** goes on with the line after it, unless
the error is that a comment is still open: then there is nothing left. -/
theorem resumes_of_error (hon : s.OnLine p)
    (h : s.run (place p cs) = before ++ .error e :: after) :
    e.value = .unterminatedComment ∧ after = [] ∨
      ∃ done rest, cs = done ++ rest ∧ e.line = (p.afterAll done).line ∧
        Resumes (p.afterAll done) rest after := by
  induction cs generalizing s p before with
  | nil =>
    obtain ⟨rfl, hopen | hline⟩ := finish_error hon h
    · exact .inl ⟨hopen, rfl⟩
    · exact .inr ⟨[], [], rfl, hline, fun pre post heq _ => by simp at heq, fun _ => rfl⟩
  | cons c cs ih =>
    obtain ⟨hnext, herror⟩ := feed_error hon c
    rw [run_char] at h
    -- the error is found with this character, or later
    obtain ⟨more, hbefore, hlater⟩ | ⟨more, hfound, hmore⟩ := append_eq_append_iff.1 h
    · obtain hopen | ⟨done, rest, rfl, hline, hresumes⟩ := ih hnext hlater
      · exact .inl hopen
      · exact .inr ⟨c :: done, rest, rfl, hline, hresumes⟩
    · cases more with
      | nil =>
        obtain hopen | ⟨done, rest, rfl, hline, hresumes⟩ := ih hnext (show _ = [] ++ _ from hmore.symm)
        · exact .inl hopen
        · exact .inr ⟨c :: done, rest, rfl, hline, hresumes⟩
      | cons f more =>
        obtain ⟨rfl, hafter⟩ := List.cons.inj hmore
        obtain ⟨rfl, hline, hmode⟩ := herror before e more hfound
        subst hafter
        exact .inr ⟨[], c :: cs, rfl, hline, resumes_of_mode hmode p cs⟩

end State

/-! ## Errors of a text -/

variable {p : Position} {cs : List Char} {f : Found}

theorem onLine_boundary (p : Position) : State.OnLine ⟨.boundary, p, p⟩ p := fun _ => rfl

/-- All that is found in a text is on its lines. -/
theorem le_line_of_mem_scanFrom (h : f ∈ scanFrom p cs) : p.line ≤ f.line := by
  have hchain := State.isChain_run (s := ⟨.boundary, p, p⟩) (isChain_place p cs)
  exact (pairwise_cons.1 (isChain_iff_pairwise.1 hchain)).1 _ (mem_map_of_mem h)

/-- What is found after an error is on later lines. -/
theorem lt_line_of_mem_after {before after : List Found} {e : Located Error}
    (h : scanFrom p cs = before ++ .error e :: after) (hf : f ∈ after) : e.line < f.line := by
  obtain ⟨-, rfl⟩ | ⟨done, rest, -, hline, hresumes⟩ :=
    State.resumes_of_error (onLine_boundary p) h
  · cases hf
  · by_cases hmem : '\n' ∈ rest
    · obtain ⟨pre, post, hpre, heq⟩ := eq_append_cons_of_mem hmem
      rw [hresumes.next hpre heq] at hf
      have hle := le_line_of_mem_scanFrom hf
      rw [Position.nextLine_line] at hle
      omega
    · rw [hresumes.rest hmem] at hf
      cases hf

/-- Lines increase from error to error, if they increase after every error. -/
theorem pairwise_errors
    (h : ∀ before e after, found = before ++ .error e :: after → ∀ f ∈ after, e.line < f.line) :
    ((errors found).map Located.line).Pairwise (· < ·) := by
  induction found with
  | nil => exact .nil
  | cons f found ih =>
    have hrest := ih fun before e after heq => h (f :: before) e after (congrArg (f :: ·) heq)
    cases f with
    | ok t => exact hrest
    | error e =>
      refine .cons (fun line hmem => ?_) hrest
      obtain ⟨e', he', rfl⟩ := mem_map.1 hmem
      obtain ⟨f, hf, hsome⟩ := mem_filterMap.1 he'
      cases f with
      | ok => cases hsome
      | error e'' =>
        cases hsome
        exact h [] e found rfl (.error e') hf

/-- The newline that ends a line is the first one after any place on the
line. -/
theorem exists_of_count_eq {done rest pre post : List Char}
    (h : done ++ rest = pre ++ '\n' :: post) (hcount : done.count '\n' = pre.count '\n') :
    ∃ mid, rest = mid ++ '\n' :: post ∧ '\n' ∉ mid := by
  obtain ⟨mid, rfl, hrest⟩ | ⟨mid, rfl, hrest⟩ := append_eq_append_iff.1 h
  · rw [count_append] at hcount
    exact ⟨mid, hrest, count_eq_zero.1 (by omega)⟩
  · cases mid with
    | nil => exact ⟨[], hrest.symm, not_mem_nil⟩
    | cons c mid =>
      obtain ⟨rfl, -⟩ := List.cons.inj hrest
      rw [count_append, count_cons_self] at hcount
      omega

/-- **Lexical errors cost one line each.** The errors of a text are on different
lines, in order. After an error on line `k`, other than a comment that is still
open at the end, the scanner yields what it yields for the text after the `k`-th
newline alone, `k` lines further down, and nothing if there is no such
newline. -/
theorem items_after_error (text : String) :
    ((errors (items (Input.ofString text))).map Located.line).Pairwise (· < ·) ∧
      ∀ before e after, items (Input.ofString text) = before ++ .error e :: after →
        e.value ≠ .unterminatedComment →
        (∀ pre post, text.toList = pre ++ '\n' :: post → pre.count '\n' + 1 = e.line →
          after = (items (Input.ofString (String.ofList post))).map (Found.down e.line)) ∧
        (text.toList.count '\n' < e.line → after = []) := by
  rw [items_ofString]
  refine ⟨pairwise_errors fun before e after h f hf => lt_line_of_mem_after h hf,
    fun before e after h hvalue => ?_⟩
  obtain ⟨hopen, -⟩ | ⟨done, rest, heq, hline, hresumes⟩ :=
    State.resumes_of_error (onLine_boundary _) h
  · exact absurd hopen hvalue
  have hcount : e.line = 1 + done.count '\n' := hline.trans (Position.line_afterAll ..)
  refine ⟨fun pre post htext hpre => ?_, fun hlt => hresumes.rest fun hmem => ?_⟩
  · obtain ⟨mid, hrest, hmid⟩ := exists_of_count_eq (heq.symm.trans htext) (by omega)
    have hnext : (Position.origin.afterAll done).nextLine = Position.origin.down e.line :=
      congrArg (fun line => Position.mk line 1) (by rw [← hline, Nat.add_comm]; rfl)
    rw [hresumes.next hrest hmid, hnext, scanFrom_down, items_ofString, String.toList_ofList]
  · rw [heq, List.count_append] at hlt
    have hpos := List.count_pos_iff.2 hmem
    omega

/-- Two errors on two lines: what comes after the first is what is found in the
second and the third line alone. -/
theorem items_after_error_two_lines :
    items (Input.ofString "a @ &\n& c\nd") = [.ok ⟨.ident "a", ⟨⟨1, 1⟩, ⟨1, 2⟩⟩⟩] ++
        .error ⟨.badChar '@', ⟨⟨1, 3⟩, ⟨1, 4⟩⟩⟩ ::
        [.error ⟨.expected '&', ⟨⟨2, 1⟩, ⟨2, 2⟩⟩⟩, .ok ⟨.ident "d", ⟨⟨3, 1⟩, ⟨3, 2⟩⟩⟩] ∧
      [.error ⟨.expected '&', ⟨⟨2, 1⟩, ⟨2, 2⟩⟩⟩, .ok ⟨.ident "d", ⟨⟨3, 1⟩, ⟨3, 2⟩⟩⟩]
        = (items (Input.ofString (String.ofList ['&', ' ', 'c', '\n', 'd']))).map (Found.down 1) :=
  have hitems := by decide
  ⟨hitems, ((items_after_error "a @ &\n& c\nd").2 _ _ _ hitems (by decide)).1
    ['a', ' ', '@', ' ', '&'] _ (by decide) (by decide)⟩

end SysY.Scan
