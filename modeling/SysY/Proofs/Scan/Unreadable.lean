import SysY.Proofs.Scan.Reader

/-!
# Lines that cannot be read

A line whose bytes are no text gives one error, but no newline. So the scanner
gives up the line after it, as it gives up the rest of a line after any error,
and forgets the comment that may have been open; and it reports the error where
the latest token or blank began, which is on a line before, unless there is none.

All else that is found is what is found in a file that can be read: in place of
every line that cannot be read it has the line `//*/`, which closes a comment that
is open and is a comment if none is, and in place of the line after such lines it
has an empty one (`Input.mend`).
-/

namespace SysY

open List

/-! ## The lines of a file -/

namespace Input

variable {line : List UInt8 × Bool}

/-- Whether the bytes of a line are a text. -/
def readable (line : List UInt8 × Bool) : Bool :=
  (String.fromUTF8? ⟨(stripReturn line).toArray⟩).isSome

/-- **A file that can be read**, in which the same is found; `lost` says whether
the line before could not be read. -/
def mend : Bool → List (List UInt8 × Bool) → List (List UInt8 × Bool)
  | _, [] => []
  | lost, line :: rest =>
    if readable line then (if lost then ([], true) else line) :: mend false rest
    else (encode "//*/".toList, true) :: mend true rest

/-- Which lines cannot be read, if they are numbered from `n` on. -/
def unreadable (n : Nat) : List (List UInt8 × Bool) → List Nat
  | [] => []
  | line :: rest => if readable line then unreadable (n + 1) rest else n :: unreadable (n + 1) rest

/-- There is no newline in a line. -/
theorem newline_not_mem_of_mem_lines {bytes : List UInt8} (h : line ∈ lines bytes) :
    10 ∉ line.1 := by
  induction bytes generalizing line with
  | nil => cases h
  | cons b bytes ih =>
    have h : line ∈ consByte b (lines bytes) := h
    simp only [consByte] at h
    split at h
    next =>
      obtain rfl | h := mem_cons.1 h
      · exact not_mem_nil
      · exact ih h
    next hb =>
      split at h
      next =>
        obtain rfl := mem_singleton.1 h
        exact mt mem_singleton.1 (Ne.symm hb)
      next first ended rest hlines =>
        rw [hlines] at ih
        obtain rfl | h := mem_cons.1 h
        · exact not_mem_cons_of_ne_of_not_mem (Ne.symm hb) (ih mem_cons_self)
        · exact ih (mem_cons_of_mem _ h)

theorem stripReturn_subset (line : List UInt8 × Bool) : stripReturn line ⊆ line.1 := by
  unfold stripReturn
  split
  · split
    · exact dropLast_subset _
    · exact Subset.refl _
  · exact Subset.refl _

/-- The items of a line that can be read. -/
theorem exists_text (h : readable line = true) (hline : 10 ∉ line.1) :
    ∃ cs, '\n' ∉ cs ∧ ∀ n, ofLine n (stripReturn line) = place ⟨n, 1⟩ (cs ++ ['\n']) := by
  obtain ⟨text, htext⟩ := Option.isSome_iff_exists.1 h
  have hbytes : encode text.toList = stripReturn line := by
    rw [← toUTF8_eq_encode]
    unfold String.fromUTF8? at htext
    split at htext <;> cases htext
    rfl
  refine ⟨text.toList, fun hmem => hline (stripReturn_subset line ?_), fun n => ?_⟩
  · rw [← hbytes]
    exact mem_flatMap.2 ⟨'\n', hmem, by decide⟩
  · rw [ofLine, htext]

theorem ofLine_unreadable (h : readable line = false) (n : Nat) :
    ofLine n (stripReturn line) = [.unreadable] := by
  rw [ofLine, Option.isSome_eq_false_iff.1 h |> Option.isNone_iff_eq_none.1]

end Input

namespace Scan

open Input (place Item)

/-- Whether the error is that a line could not be read. -/
def Found.isInput : Found → Bool
  | .error ⟨.input, _⟩ => true
  | _ => false

theorem begin_ne_input (c : Char) : begin c ≠ .fail .input := by
  unfold begin
  repeat' split
  all_goals exact fun h => by cases h

theorem number_ne_input (text : String) : number text ≠ .error .input := by
  unfold number
  split <;> exact fun h => by cases h

theorem react_ne_input (c : Char) (m : Mode) : m.react c ≠ .take (.fail .input) := by
  intro h
  cases m with
  | boundary => exact begin_ne_input c (Reaction.take.inj h)
  | skip | lineComment | blockComment => cases h
  | relational | doubled | slash | word =>
    simp only [Mode.react] at h
    repeat' split at h
    all_goals cases h
  | number text =>
    simp only [Mode.react] at h
    repeat' split at h
    all_goals cases h
    next hnumber => exact number_ne_input text hnumber

namespace State

variable {s s' : State} {c : Char} {cs : List Char} {p : Position} {n : Nat}

theorem isInput_take {step : Step} (h : step ≠ .fail .input) :
    ∀ f ∈ (s.take c p step).2, f.isInput = false := by
  cases step with
  | shift => exact fun _ hf => absurd hf not_mem_nil
  | complete => exact forall_mem_singleton.2 rfl
  | fail e =>
    refine forall_mem_singleton.2 ?_
    cases e with
    | input => exact absurd rfl h
    | badChar | expected | literal | unterminatedComment => rfl

/-- **What a character does on its line**: no error is that the line could not be
read, and what is pending then began no later than there. -/
theorem feed_char (s : State) (c : Char) (p : Position) :
    (∀ f ∈ (s.feed (.char c p)).2, f.isInput = false) ∧
      (s.start.line ≤ p.line → (s.feed (.char c p)).1.start.line ≤ p.line) := by
  cases h : s.mode.react c with
  | take step =>
    rw [feed_take h, (take_cases _ c p step).1]
    refine ⟨isInput_take fun hfail => react_ne_input c s.mode (hfail ▸ h), fun hle => ?_⟩
    show (if _ then p else s.start).line ≤ _
    split
    · exact Nat.le_refl _
    · exact hle
  | endBefore t =>
    rw [feed_endBefore h, (take_cases _ c p _).1]
    exact ⟨forall_mem_cons.2 ⟨rfl, isInput_take (begin_ne_input c)⟩, fun _ => Nat.le_refl _⟩

/-- Where the scanner is when a line begins. -/
def Fresh (s : State) : Prop := s.mode = .boundary ∨ s.mode = .blockComment false

/-- A newline ends all but a block comment. -/
theorem feed_newline_fresh (h : s.mode.Usual) (p : Position) : (s.feed (.char '\n' p)).1.Fresh := by
  by_cases hm : s.mode.inToken = true
  · exact .inl (feed_newline_inToken h hm p).2
  · obtain ⟨m, start, last⟩ := s
    cases m with
    | boundary | skip | lineComment => exact .inl rfl
    | blockComment star =>
      rw [feed_blockComment (c := '\n') rfl rfl]
      exact .inr rfl
    | relational | doubled | slash | number | word => exact absurd rfl hm

/-- **A line that is read** from two states that are alike. -/
theorem run_line (h : Alike s s') (husual : s.mode.Usual) (hstart : s.start.line ≤ p.line)
    (hcs : '\n' ∉ cs) : ∃ found t t',
    (∀ f ∈ found, f.isInput = false) ∧ Alike t t' ∧ t.Fresh ∧ t.start.line ≤ p.line ∧
      (∀ rest, s.run (place p (cs ++ ['\n']) ++ rest) = found ++ t.run rest) ∧
      ∀ rest, s'.run (place p (cs ++ ['\n']) ++ rest) = found ++ t'.run rest := by
  induction cs generalizing s s' p with
  | nil =>
    obtain ⟨hfound, halike⟩ := feed_alike h '\n' p
    refine ⟨_, _, _, (feed_char s '\n' p).1, halike, feed_newline_fresh husual p,
      (feed_char s '\n' p).2 hstart, fun _ => rfl, fun _ => ?_⟩
    rw [hfound]
    rfl
  | cons c cs ih =>
    obtain ⟨hc, hcs⟩ := not_or.1 (mt mem_cons.2 hcs)
    obtain ⟨hinput, hle⟩ := feed_char s c p
    obtain ⟨hfound, halike⟩ := feed_alike h c p
    obtain ⟨found, t, t', hinput', hend, hfresh, hline, hs, hs'⟩ :=
      ih (p := p.next) halike (feed_usual s _) (hle hstart) hcs
    rw [← p.after_of_ne (Ne.symm hc)] at hs hs'
    refine ⟨_, t, t', forall_mem_append.2 ⟨hinput, hinput'⟩, hend, hfresh, hline,
      fun rest => ?_, fun rest => ?_⟩
    · rw [append_assoc, ← hs]
      rfl
    · rw [append_assoc, ← hs', hfound]
      rfl

/-- A line that is given up. -/
theorem run_skipped (h : s.mode = .skip) (hcs : '\n' ∉ cs) (p : Position) :
    ∃ last, ∀ rest, s.run (place p (cs ++ ['\n']) ++ rest) = run ⟨.boundary, s.start, last⟩ rest := by
  obtain ⟨m, start, last⟩ := s
  obtain rfl : m = .skip := h
  induction cs generalizing p last with
  | nil => exact ⟨p, fun _ => rfl⟩
  | cons c cs ih =>
    obtain ⟨hc, hcs⟩ := not_or.1 (mt mem_cons.2 hcs)
    have hfeed : feed ⟨.skip, start, last⟩ (.char c p) = (⟨.skip, start, p⟩, []) := by
      have hreact : Mode.skip.react c = .take (.shift .skip) := by
        rw [Mode.react, if_neg (mt beq_iff_eq.1 (Ne.symm hc))]
      rw [feed_take hreact]
      rfl
    refine (ih hcs (p.after c) p).imp fun _ hrun rest => ?_
    rw [← hrun, cons_append, place, cons_append, run, hfeed]
    rfl

/-- The lines that stand in a mended file: the one closes what is open, the other
one is empty. -/
theorem run_closing (h : s.Fresh) (n : Nat) : ∃ t : State, t.mode = .boundary ∧
    ∀ rest, s.run (place ⟨n, 1⟩ ("//*/".toList ++ ['\n']) ++ rest) = t.run rest := by
  obtain ⟨m, start, last⟩ := s
  obtain rfl | rfl := h <;> exact ⟨_, rfl, fun _ => rfl⟩

theorem run_empty (h : s.mode = .boundary) (n : Nat) : ∃ t : State, t.mode = .boundary ∧
    ∀ rest, s.run (place ⟨n, 1⟩ ([] ++ ['\n']) ++ rest) = t.run rest := by
  obtain ⟨m, start, last⟩ := s
  obtain rfl : m = _ := h
  exact ⟨_, rfl, fun _ => rfl⟩

theorem Alike.mode (h : Alike s s') : s.mode = s'.mode := by
  obtain rfl | ⟨hmode, -⟩ := h
  · rfl
  · exact hmode

end State

/-- How two scanners stand at a line, one of which reads a file and the other one
the file that is mended. -/
def Abreast : Bool → State → State → Prop
  | false, s, s' => s.Alike s' ∧ s.Fresh
  | true, s, s' => s.mode = .skip ∧ s'.mode = .boundary

/-- **A file and the one that is mended**, from a line on. -/
theorem run_mend {lost : Bool} {s s' : State} {n : Nat} {ls : List (List UInt8 × Bool)}
    (hls : ∀ line ∈ ls, 10 ∉ line.1) (h : Abreast lost s s')
    (hn : s.start.line = n ∧ n = 1 ∨ s.start.line < n ∧ 1 < n) :
    (s.run (Input.ofLines n ls)).filter (!·.isInput)
        = s'.run (Input.ofLines n (Input.mend lost ls)) ∧
      Forall₂ (fun f k => f.line = k ↔ k = 1) ((s.run (Input.ofLines n ls)).filter (·.isInput))
        (Input.unreadable n ls) := by
  induction ls generalizing lost s s' n with
  | nil =>
    show s.finish.filter _ = s'.finish ∧ Forall₂ _ (s.finish.filter _) []
    cases lost with
    | false =>
      have hfinish : s.finish = s'.finish := State.run_alike h.1 ⟨1, 1⟩ []
      rw [← hfinish, State.finish]
      obtain hmode | hmode := h.2 <;> rw [hmode] <;> exact ⟨rfl, .nil⟩
    | true =>
      rw [State.finish, State.finish, h.1, h.2]
      exact ⟨rfl, .nil⟩
  | cons line ls ih =>
    rw [forall_mem_cons] at hls
    have hle : s.start.line ≤ n := by omega
    have hnext : 1 < n + 1 := by omega
    rw [Input.ofLines_cons, Input.mend, Input.unreadable]
    cases hread : Input.readable line with
    | true =>
      obtain ⟨cs, hcs, htext⟩ := Input.exists_text hread hls.1
      rw [if_pos rfl, if_pos rfl, Input.ofLines_cons, htext]
      cases lost with
      | false =>
        have husual : s.mode.Usual := by
          obtain hmode | hmode := h.2 <;> rw [hmode] <;> trivial
        obtain ⟨found, t, t', hfound, halike, hfresh, hline, hs, hs'⟩ :=
          State.run_line (p := ⟨n, 1⟩) h.1 husual hle hcs
        obtain ⟨hkept, hlost⟩ := ih hls.2 (show Abreast false t t' from ⟨halike, hfresh⟩)
          (.inr ⟨Nat.lt_succ_of_le hline, hnext⟩)
        rw [if_neg Bool.false_ne_true, htext, hs, hs', filter_append, filter_append, hkept,
          filter_eq_self.2 fun f hf => by rw [hfound f hf]; rfl,
          filter_eq_nil_iff.2 fun f hf => by rw [hfound f hf]; exact Bool.false_ne_true]
        exact ⟨rfl, hlost⟩
      | true =>
        -- the line is given up by the one scanner and empty for the other
        obtain ⟨last, hs⟩ := State.run_skipped h.1 hcs ⟨n, 1⟩
        obtain ⟨t', ht', hs'⟩ := State.run_empty h.2 n
        have habreast : Abreast false ⟨.boundary, s.start, last⟩ t' :=
          ⟨.inr ⟨ht'.symm, .inl rfl⟩, .inl rfl⟩
        obtain ⟨hkept, hlost⟩ := ih hls.2 habreast (.inr ⟨Nat.lt_succ_of_le hle, hnext⟩)
        rw [if_pos rfl, show Input.stripReturn ([], true) = Input.encode [] from rfl,
          Input.ofLine_encode, hs, hs']
        exact ⟨hkept, hlost⟩
    | false =>
      have hfresh : s'.Fresh := by
        cases lost with
        | false =>
          rw [State.Fresh, ← h.1.mode]
          exact h.2
        | true => exact .inl h.2
      -- a comment that was open is forgotten by the one and closed for the other
      obtain ⟨t', ht', hs'⟩ := State.run_closing hfresh n
      have habreast : Abreast true { s with mode := .skip } t' := ⟨rfl, ht'⟩
      obtain ⟨hkept, hlost⟩ := ih hls.2 habreast (.inr ⟨Nat.lt_succ_of_le hle, hnext⟩)
      rw [if_neg Bool.false_ne_true, if_neg Bool.false_ne_true, Input.ofLines_cons,
        show Input.stripReturn (Input.encode _, true) = Input.encode "//*/".toList from rfl,
        Input.ofLine_encode, hs', Input.ofLine_unreadable hread]
      refine ⟨hkept, .cons ?_ hlost⟩
      show s.start.line = n ↔ n = 1
      omega

/-- **What a line costs that cannot be read.** In every file, what is found besides
the errors that a line could not be read is what is found in the file that is
mended, and each line that cannot be read gives one such error, which is reported
on that line only if it is the first one. -/
theorem items_unreadable (bytes : List UInt8) :
    (items (Input.ofBytes bytes)).filter (!·.isInput)
        = items (Input.ofLines 1 (Input.mend false (Input.lines bytes))) ∧
      Forall₂ (fun f n => f.line = n ↔ n = 1) ((items (Input.ofBytes bytes)).filter (·.isInput))
        (Input.unreadable 1 (Input.lines bytes)) :=
  run_mend (fun _ hline => Input.newline_not_mem_of_mem_lines hline) ⟨.inl rfl, .inl rfl⟩
    (.inl ⟨rfl, rfl⟩)

/-- A line that cannot be read costs the next one, which holds a word here, and
the error is not reported on its line. -/
theorem exists_unreadable_costs_next :
    let bytes : List UInt8 := [97, 10, 255, 10, 98, 10]
    (items (Input.ofBytes bytes)).filter (!·.isInput) ≠ items (Input.ofBytes [97, 10, 10, 98, 10]) ∧
      Input.unreadable 1 (Input.lines bytes) = [2] ∧
      ((items (Input.ofBytes bytes)).filter (·.isInput)).map Found.line = [1] := by
  decide +kernel

end Scan

end SysY
