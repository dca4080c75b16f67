import SysY.Proofs.Scan.Layout
import SysY.Proofs.Scan.Recovery

/-!
# Texts and files

A text held in memory and the file that holds its bytes are scanned alike,
although the scanner does not read the same characters: a reader of files drops
the carriage return of a line end, so that the newline stands one column further
to the left, and ends the last line with a newline if it has none.

A newline in UTF-8 is a byte that is part of no other character, so the lines of
the bytes are the lines of the text. The scanner cannot tell the two inputs apart
because a carriage return does in every mode what the newline after it does
(`State.feed_return`), because a newline is to it what the end of the input is
(`State.finish_newline`), and because the column of a newline is part of nothing
that is found: no token goes on after it.
-/

namespace SysY

open List

/-! ## Bytes of a text -/

variable {line cs : List Char} {bytes : List UInt8}

namespace Input

/-- The bytes of characters. -/
def encode (cs : List Char) : List UInt8 := cs.flatMap String.utf8EncodeChar

theorem encode_append (cs ds : List Char) : encode (cs ++ ds) = encode cs ++ encode ds :=
  flatMap_append

theorem encode_cons (c : Char) (cs : List Char) :
    encode (c :: cs) = String.utf8EncodeChar c ++ encode cs := flatMap_cons

theorem encode_ne_nil (h : cs ≠ []) : encode cs ≠ [] := by
  obtain ⟨c, cs, rfl⟩ := exists_cons_of_ne_nil h
  rw [encode_cons]
  exact append_ne_nil_of_left_ne_nil String.utf8EncodeChar_ne_nil _

theorem toUTF8_eq_encode (text : String) : text.toUTF8.data.toList = encode text.toList := by
  rw [String.toUTF8_eq_toByteArray, ← String.utf8Encode_toList, utf8Encode,
    toList_data_toByteArray]
  rfl

/-- The bytes of characters are read as these characters. -/
theorem fromUTF8?_encode (cs : List Char) :
    String.fromUTF8? ⟨(encode cs).toArray⟩ = some (String.ofList cs) := by
  have hbytes : (⟨(encode cs).toArray⟩ : ByteArray) = cs.utf8Encode := by
    apply ByteArray.ext
    rw [utf8Encode, data_toByteArray]
    rfl
  rw [String.fromUTF8?, dif_pos (hbytes ▸ ByteArray.isValidUTF8_utf8Encode)]
  exact congrArg some (String.toByteArray_inj.1 (hbytes.trans String.toByteArray_ofList.symm))

variable {c : Char}

theorem utf8EncodeChar_of_le (h : c.toNat ≤ 0x7f) :
    String.utf8EncodeChar c = [UInt8.ofNat c.toNat] := by
  rw [String.utf8EncodeChar]
  exact if_pos h

/-- The bytes of a character that has several of them are large. -/
theorem lt_of_mem_utf8EncodeChar {c : Char} (h : 0x7f < c.toNat) {b : UInt8}
    (hb : b ∈ String.utf8EncodeChar c) : 0x7f < b.toNat := by
  rw [String.utf8EncodeChar, if_neg (show ¬ c.val.toNat ≤ 0x7f from Nat.not_le.2 h)] at hb
  split at hb
  · simp only [mem_cons, not_mem_nil, or_false] at hb
    rcases hb with rfl | rfl <;> rw [UInt8.toNat_ofNat'] <;> omega
  · split at hb
    · simp only [mem_cons, not_mem_nil, or_false] at hb
      rcases hb with rfl | rfl | rfl <;> rw [UInt8.toNat_ofNat'] <;> omega
    · simp only [mem_cons, not_mem_nil, or_false] at hb
      rcases hb with rfl | rfl | rfl | rfl <;> rw [UInt8.toNat_ofNat'] <;> omega

/-- **A character of one byte is found in no other one.** -/
theorem eq_of_mem_utf8EncodeChar {d : Char} (hd : d.toNat ≤ 0x7f)
    (h : UInt8.ofNat d.toNat ∈ String.utf8EncodeChar c) : c = d := by
  have hbyte : (UInt8.ofNat d.toNat).toNat = d.toNat := by
    rw [UInt8.toNat_ofNat']
    omega
  by_cases hc : c.toNat ≤ 0x7f
  · rw [utf8EncodeChar_of_le hc, mem_singleton] at h
    have heq := congrArg UInt8.toNat h
    rw [hbyte, UInt8.toNat_ofNat'] at heq
    exact Char.toNat_inj.1 (by omega)
  · have hlt := lt_of_mem_utf8EncodeChar (Nat.not_le.1 hc) h
    omega

theorem mem_of_mem_encode {d : Char} (hd : d.toNat ≤ 0x7f) (h : UInt8.ofNat d.toNat ∈ encode cs) :
    d ∈ cs := by
  obtain ⟨c, hc, hmem⟩ := mem_flatMap.1 h
  exact eq_of_mem_utf8EncodeChar hd hmem ▸ hc

/-- A line ends with a carriage return if its bytes do. -/
theorem getLast?_encode (h : (encode cs).getLast? = some 13) : ∃ line, cs = line ++ ['\r'] := by
  obtain rfl | ⟨line, c, rfl⟩ := eq_nil_or_concat' cs
  · cases h
  · have hlast : encode [c] = String.utf8EncodeChar c := flatMap_singleton ..
    rw [encode_append, hlast, getLast?_append_of_ne_nil _ String.utf8EncodeChar_ne_nil] at h
    have hc := eq_of_mem_utf8EncodeChar (d := '\r') (by decide) (mem_of_getLast? h)
    exact ⟨line, congrArg (line ++ [·]) hc⟩

/-! ## Lines of a text -/

theorem lines_of_not_mem (hne : bytes ≠ []) (h : 10 ∉ bytes) : lines bytes = [(bytes, false)] := by
  induction bytes with
  | nil => exact absurd rfl hne
  | cons b bytes ih =>
    obtain ⟨hb, hbytes⟩ := not_or.1 (mt mem_cons.2 h)
    show consByte b (lines bytes) = _
    unfold consByte
    rw [if_neg (Ne.symm hb)]
    cases bytes with
    | nil => rfl
    | cons b' bytes => rw [ih (cons_ne_nil _ _) hbytes]

theorem lines_newline (h : 10 ∉ bytes) (rest : List UInt8) :
    lines (bytes ++ 10 :: rest) = (bytes, true) :: lines rest := by
  induction bytes with
  | nil => rfl
  | cons b bytes ih =>
    obtain ⟨hb, hbytes⟩ := not_or.1 (mt mem_cons.2 h)
    show consByte b (lines (bytes ++ 10 :: rest)) = _
    unfold consByte
    rw [if_neg (Ne.symm hb), ih hbytes]

/-- The items of lines that are numbered from `n` on. -/
def ofLines (n : Nat) (ls : List (List UInt8 × Bool)) : List Item :=
  (ls.zipIdx n).flatMap fun (line, number) => ofLine number (stripReturn line)

theorem ofLines_cons (n : Nat) (line : List UInt8 × Bool) (ls : List (List UInt8 × Bool)) :
    ofLines n (line :: ls) = ofLine n (stripReturn line) ++ ofLines (n + 1) ls := by
  rw [ofLines, zipIdx_cons, flatMap_cons]
  rfl

theorem ofLine_encode (n : Nat) (cs : List Char) :
    ofLine n (encode cs) = place ⟨n, 1⟩ (cs ++ ['\n']) := by
  rw [ofLine, fromUTF8?_encode]
  show place ⟨n, 1⟩ ((String.ofList cs).toList ++ ['\n']) = _
  rw [String.toList_ofList]

/-- The last line of a text, if it has no newline, is given one. -/
theorem ofLines_last (n : Nat) (hne : line ≠ []) (h : '\n' ∉ line) :
    ofLines n (lines (encode line)) = place ⟨n, 1⟩ (line ++ ['\n']) := by
  have hbyte : 10 ∉ encode line := mt (mem_of_mem_encode (d := '\n') (by decide)) h
  rw [lines_of_not_mem (encode_ne_nil hne) hbyte, ofLines_cons]
  show ofLine n (encode line) ++ [] = _
  rw [append_nil, ofLine_encode]

/-- A line that ends with a newline, and with a carriage return before it or
not. -/
theorem ofLines_newline (n : Nat) (h : '\n' ∉ line) (rest : List Char) :
    (∃ front, line = front ++ ['\r'] ∧ ofLines n (lines (encode (line ++ '\n' :: rest)))
        = place ⟨n, 1⟩ (front ++ ['\n']) ++ ofLines (n + 1) (lines (encode rest))) ∨
      ofLines n (lines (encode (line ++ '\n' :: rest)))
        = place ⟨n, 1⟩ (line ++ ['\n']) ++ ofLines (n + 1) (lines (encode rest)) := by
  have hbyte : 10 ∉ encode line := mt (mem_of_mem_encode (d := '\n') (by decide)) h
  have hlines : lines (encode (line ++ '\n' :: rest))
      = (encode line, true) :: lines (encode rest) := by
    rw [encode_append]
    exact lines_newline hbyte (encode rest)
  rw [hlines, ofLines_cons, stripReturn]
  by_cases hlast : (encode line).getLast? = some 13
  · obtain ⟨front, rfl⟩ := getLast?_encode hlast
    refine .inl ⟨front, rfl, ?_⟩
    rw [if_pos hlast, encode_append, show encode ['\r'] = [13] from rfl, dropLast_concat,
      ofLine_encode]
  · rw [if_neg hlast, ofLine_encode]
    exact .inr rfl

/-- Texts are lists of lines, of which the last may have no newline. -/
theorem line_induction {P : List Char → Prop} (nil : P [])
    (last : ∀ line, line ≠ [] → '\n' ∉ line → P line)
    (newline : ∀ line rest, '\n' ∉ line → P rest → P (line ++ '\n' :: rest)) (cs : List Char) :
    P cs := by
  by_cases h : '\n' ∈ cs
  · obtain ⟨line, rest, hcs, hline⟩ := eq_append_cons_of_mem h
    rw [hcs]
    exact newline line rest hline (line_induction nil last newline rest)
  · by_cases hnil : cs = []
    · exact hnil ▸ nil
    · exact last cs hnil h
termination_by cs.length
decreasing_by
  rw [hcs, length_append, length_cons]
  omega

end Input

/-! ## What the scanner cannot tell apart -/

namespace Scan

open Input (place Item)

variable {m : Mode}

/-- A mark that has to be doubled is no blank. This is so in every mode that the
scanner comes to. -/
def Mode.Usual : Mode → Prop
  | doubled d _ => isBlank d = false
  | _ => True

theorem begin_usual {c : Char} (h : begin c = .shift m) : m.Usual := by
  by_cases hblank : isBlank c = true
  · rw [begin_blank hblank] at h
    cases h
    trivial
  · cases m with
    | doubled d mark =>
      unfold begin at h
      repeat' split at h
      all_goals cases h
      exact Bool.eq_false_iff.2 hblank
    | boundary | skip | relational | slash | lineComment | blockComment | number | word => trivial

/-- **A character takes usual modes to usual modes.** -/
theorem react_usual {c : Char} {m' : Mode} (h : m.react c = .take (.shift m')) : m'.Usual := by
  cases m with
  | boundary => exact begin_usual (Reaction.take.inj h)
  | skip | lineComment | blockComment =>
    cases h
    split <;> trivial
  | relational | doubled =>
    simp only [Mode.react] at h
    split at h <;> cases h
  | slash | number | word =>
    simp only [Mode.react] at h
    repeat' split at h
    all_goals cases h
    all_goals trivial

/-- A blank is part of no word and no literal. -/
theorem isWordChar_of_isBlank {c : Char} (h : isBlank c = true) : isWordChar c = false := by
  simp only [isBlank, Bool.or_eq_true, beq_iff_eq] at h
  obtain (((rfl | rfl) | rfl) | rfl) | rfl := h <;> rfl

/-- **A blank does to a pending token what the end of the input does**: the token
ends before it, or is found to be none. -/
theorem react_blank {c : Char} (husual : m.Usual) (hm : m.inToken = true) (hc : isBlank c = true) :
    (∃ t, m.close = some (.ok t) ∧ m.react c = .endBefore t) ∨
      ∃ e, m.close = some (.error e) ∧ m.react c = .take (.fail e) := by
  have hne {d : Char} (hd : isBlank d = false) : ¬ (c == d) = true := by
    intro heq
    rw [← beq_iff_eq.1 heq, hc] at hd
    cases hd
  have hword : ¬ isWordChar c = true := Bool.eq_false_iff.1 (isWordChar_of_isBlank hc)
  cases m with
  | boundary | skip | lineComment | blockComment => cases hm
  | relational short long => exact .inl ⟨_, rfl, if_neg (hne rfl)⟩
  | doubled d mark => exact .inr ⟨_, rfl, congrArg Reaction.take (if_neg (hne husual))⟩
  | slash => exact .inl ⟨_, rfl, (if_neg (hne rfl)).trans (if_neg (hne rfl))⟩
  | number text =>
    rw [Mode.react, if_neg (mt isWordChar_of_isAlphanum hword), Mode.close]
    cases number text with
    | ok t => exact .inl ⟨t, rfl, rfl⟩
    | error e => exact .inr ⟨e, rfl, rfl⟩
  | word text => exact .inl ⟨_, rfl, if_neg hword⟩

namespace State

variable {s : State} {c : Char}

theorem take_usual {step : Step} (h : ∀ m, step = .shift m → m.Usual) (p : Position) :
    (s.take c p step).1.mode.Usual := by
  cases step with
  | shift m => exact h m rfl
  | complete t => trivial
  | fail e =>
    show (if c == '\n' then Mode.boundary else .skip).Usual
    split <;> trivial

theorem feed_usual (s : State) (i : Item) : (s.feed i).1.mode.Usual := by
  cases i with
  | unreadable => trivial
  | char c p =>
    cases h : s.mode.react c with
    | take step =>
      rw [feed_take h]
      exact take_usual (fun m hm => react_usual (hm ▸ h)) p
    | endBefore t =>
      rw [feed_endBefore h]
      exact take_usual (fun m hm => begin_usual hm) p

/-- A blank finds of a pending token what the end of the input finds, and leaves
nothing pending; a newline leaves nothing to be skipped either. -/
theorem feed_blank (husual : s.mode.Usual) (hm : s.mode.inToken = true) (hc : isBlank c = true)
    (p : Position) :
    (s.feed (.char c p)).2 = s.finish ∧
      ((s.feed (.char c p)).1.mode = .boundary ∨
        c ≠ '\n' ∧ (s.feed (.char c p)).1.mode = .skip) := by
  obtain ⟨t, hclose, hreact⟩ | ⟨e, hclose, hreact⟩ := react_blank husual hm hc
  · rw [feed_endBefore hreact, begin_blank hc, finish, hclose]
    exact ⟨rfl, .inl rfl⟩
  · have hne : s.mode ≠ .boundary := by
      intro hboundary
      rw [hboundary] at hm
      cases hm
    rw [feed_take hreact, if_neg hne, finish, hclose]
    refine ⟨rfl, ?_⟩
    by_cases hnewline : c = '\n'
    · exact .inl (if_pos (beq_iff_eq.2 hnewline))
    · exact .inr ⟨hnewline, if_neg (mt beq_iff_eq.1 hnewline)⟩

/-- If nothing is pending, a newline finds nothing and ends what is skipped. -/
theorem feed_newline (h : s.mode = .boundary ∨ s.mode = .skip) (p : Position) :
    (s.feed (.char '\n' p)).2 = [] ∧ (s.feed (.char '\n' p)).1.mode = .boundary := by
  obtain ⟨m, start, last⟩ := s
  obtain rfl | rfl := h <;> exact ⟨rfl, rfl⟩

/-- A newline ends a pending token and leaves nothing. -/
theorem feed_newline_inToken (husual : s.mode.Usual) (hm : s.mode.inToken = true) (p : Position) :
    (s.feed (.char '\n' p)).2 = s.finish ∧ (s.feed (.char '\n' p)).1.mode = .boundary :=
  (feed_blank husual hm rfl p).imp_right fun h => h.resolve_right fun hne => hne.1 rfl

/-- In a comment a carriage return and a newline are like any other character. -/
theorem feed_blockComment (hslash : (c == '/') = false) (hstar : (c == '*') = false) (star : Bool)
    (start last p : Position) :
    feed ⟨.blockComment star, start, last⟩ (.char c p) = (⟨.blockComment false, start, p⟩, []) := by
  have hreact : (Mode.blockComment star).react c = .take (.shift (.blockComment false)) := by
    rw [Mode.react, hslash, hstar, Bool.and_false]
    rfl
  rw [feed_take hreact]
  rfl

/-- **A carriage return before a newline changes nothing**: what the two find, the
newline finds alone, wherever on the line it stands. -/
theorem feed_return (h : s.mode.Usual) (p q : Position) :
    (s.feed (.char '\r' p)).2 ++ ((s.feed (.char '\r' p)).1.feed (.char '\n' q)).2
        = (s.feed (.char '\n' p)).2 ∧
      Alike ((s.feed (.char '\r' p)).1.feed (.char '\n' q)).1 (s.feed (.char '\n' p)).1 := by
  by_cases hm : s.mode.inToken = true
  · obtain ⟨hreturn, hmode⟩ := feed_blank (c := '\r') h hm rfl p
    obtain ⟨hnothing, hboundary⟩ := feed_newline (hmode.imp_right And.right) q
    obtain ⟨hnewline, hboundary'⟩ := feed_newline_inToken h hm p
    rw [hreturn, hnothing, hnewline, append_nil]
    exact ⟨rfl, .inr ⟨hboundary.trans hboundary'.symm, .inl hboundary⟩⟩
  · obtain ⟨m, start, last⟩ := s
    cases m with
    | boundary | skip | lineComment => exact ⟨rfl, .inr ⟨rfl, .inl rfl⟩⟩
    | blockComment star =>
      rw [feed_blockComment (c := '\r') rfl rfl, feed_blockComment (c := '\n') rfl rfl,
        feed_blockComment (c := '\n') rfl rfl]
      exact ⟨rfl, .inr ⟨rfl, .inr (.inr ⟨rfl, false, rfl⟩)⟩⟩
    | relational | doubled | slash | number | word => exact absurd rfl hm

/-- **A newline at the end of the input changes nothing.** -/
theorem finish_newline (h : s.mode.Usual) (p : Position) :
    (s.feed (.char '\n' p)).2 ++ (s.feed (.char '\n' p)).1.finish = s.finish := by
  by_cases hm : s.mode.inToken = true
  · obtain ⟨hnewline, hboundary⟩ := feed_newline_inToken h hm p
    have hnothing : (s.feed (.char '\n' p)).1.finish = [] := by rw [finish, hboundary]; rfl
    rw [hnewline, hnothing, append_nil]
  · obtain ⟨m, start, last⟩ := s
    cases m with
    | boundary | skip | lineComment => rfl
    | blockComment star =>
      rw [feed_blockComment (c := '\n') rfl rfl]
      rfl
    | relational | doubled | slash | number | word => exact absurd rfl hm

end State

/-! ## Interchangeable inputs -/

/-- Two inputs of which the scanner finds the same, from every usual mode. -/
def Interchangeable (is js : List Item) : Prop :=
  ∀ s : State, s.mode.Usual → s.run is = s.run js

namespace Interchangeable

variable {is js : List Item}

theorem cons (h : Interchangeable is js) (i : Item) : Interchangeable (i :: is) (i :: js) := by
  intro s hs
  show (s.feed i).2 ++ (s.feed i).1.run is = (s.feed i).2 ++ (s.feed i).1.run js
  rw [h _ (s.feed_usual i)]

theorem append (h : Interchangeable is js) (front : List Item) :
    Interchangeable (front ++ is) (front ++ js) := by
  induction front with
  | nil => exact h
  | cons i front ih => exact ih.cons i

theorem trans {ks : List Item} (h : Interchangeable is js) (h' : Interchangeable js ks) :
    Interchangeable is ks :=
  fun s hs => (h s hs).trans (h' s hs)

/-- A carriage return before a newline. -/
theorem return_newline (p q r : Position) (cs : List Char) :
    Interchangeable (.char '\n' p :: place r cs) (.char '\r' p :: .char '\n' q :: place r cs) := by
  intro s hs
  obtain ⟨hfound, halike⟩ := State.feed_return hs p q
  show (s.feed (.char '\n' p)).2 ++ (s.feed (.char '\n' p)).1.run (place r cs)
    = (s.feed (.char '\r' p)).2 ++ (((s.feed (.char '\r' p)).1.feed (.char '\n' q)).2
        ++ ((s.feed (.char '\r' p)).1.feed (.char '\n' q)).1.run (place r cs))
  rw [← append_assoc, hfound, State.run_alike halike]

/-- A newline at the end. -/
theorem final_newline (p : Position) : Interchangeable [.char '\n' p] [] :=
  fun _ hs => State.finish_newline hs p

end Interchangeable

/-- The newline of line `n` is followed by line `n + 1`. -/
theorem after_newline (n : Nat) (h : '\n' ∉ line) :
    (Position.afterAll ⟨n, 1⟩ line).after '\n' = ⟨n + 1, 1⟩ := by
  have hline := Position.line_afterAll ⟨n, 1⟩ line
  rw [count_eq_zero.2 h] at hline
  show Position.mk ((Position.afterAll ⟨n, 1⟩ line).line + 1) 1 = _
  rw [hline]

/-- **The lines that a reader gives and the text** are interchangeable. -/
theorem interchangeable_ofLines (n : Nat) (cs : List Char) :
    Interchangeable (Input.ofLines n (Input.lines (Input.encode cs))) (place ⟨n, 1⟩ cs) := by
  induction cs using Input.line_induction generalizing n with
  | nil => exact fun _ _ => rfl
  | last line hne hline =>
    rw [Input.ofLines_last n hne hline, Input.place_append]
    have hend := (Interchangeable.final_newline (Position.afterAll ⟨n, 1⟩ line)).append
      (place ⟨n, 1⟩ line)
    rwa [append_nil] at hend
  | newline line rest hline ih =>
    obtain ⟨front, rfl, hlines⟩ | hlines := Input.ofLines_newline n hline rest
    · have hnext := after_newline n hline
      rw [Position.afterAll_append, Position.afterAll_cons, Position.afterAll_nil] at hnext
      rw [hlines, Input.place_append, append_assoc, append_assoc front,
        Input.place_append]
      refine Interchangeable.append (((ih (n + 1)).cons _).trans ?_) _
      show Interchangeable _ (.char '\r' _ :: .char '\n' _ :: place (Position.after _ '\n') rest)
      rw [hnext]
      exact .return_newline _ _ _ _
    · rw [hlines, Input.place_append, append_assoc, Input.place_append]
      refine Interchangeable.append ?_ _
      show Interchangeable _ (.char '\n' _ :: place (Position.after _ '\n') rest)
      rw [after_newline n hline]
      exact (ih (n + 1)).cons _

/-- **A text is scanned like the file that holds it**: the same tokens and errors
are found, at the same places, in the characters of a text and in its bytes as they
are read line by line. -/
theorem items_ofBytes (text : String) :
    items (Input.ofBytes text.toUTF8.data.toList) = items (Input.ofString text) := by
  rw [Input.toUTF8_eq_encode]
  exact interchangeable_ofLines 1 text.toList {} trivial

end Scan

end SysY
