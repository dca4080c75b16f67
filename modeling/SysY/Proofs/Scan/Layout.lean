import Mathlib.Data.List.Infix
import SysY.Proofs.Scan.Fresh

/-!
# Texts laid out as tokens

A text without lexical errors is a sequence of lexemes and of what may stand
between them: blanks, comments that end with their line, and comments between
`/*` and `*/`. `Laid` says so, and where each token then stands. A lexeme goes on
as far as it can, so that the character after it is none that it would take
(`Token.takes`); this is what makes the layout of a text the only one.

Here a text that is laid out so is scanned to just these tokens
(`scanFrom_of_laid`): each filler and each lexeme takes the scanner from one
boundary to the next (`scanFrom_filler`, `scanFrom_lexeme`).
-/

namespace SysY

open List

/-! ## Fillers -/

/-- **What may stand between two tokens.** -/
inductive Filler where
  | blank (c : Char) (h : Scan.isBlank c = true)
  /-- A comment that ends with its line. -/
  | line (body : List Char) (h : '\n' ∉ body)
  /-- A comment that ends with the first `*/`. -/
  | block (body : List Char) (h : ¬ ['*', '/'] <:+: body)

def Filler.text : Filler → List Char
  | blank c _ => [c]
  | line body _ => '/' :: '/' :: (body ++ ['\n'])
  | block body _ => '/' :: '*' :: (body ++ ['*', '/'])

/-! ## Lexemes -/

/-- Whether a text is not empty, begins with a character of one class, and goes
on with characters of another. -/
def headed (first more : Char → Bool) : List Char → Bool
  | [] => false
  | c :: cs => first c && cs.all more

theorem exists_of_headed {first more : Char → Bool} {cs : List Char}
    (h : headed first more cs = true) :
    ∃ c w, cs = c :: w ∧ first c = true ∧ ∀ d ∈ w, more d = true := by
  cases cs with
  | nil => cases h
  | cons c w =>
    obtain ⟨hfirst, hmore⟩ := Bool.and_eq_true_iff.1 h
    exact ⟨c, w, rfl, hfirst, all_eq_true.1 hmore⟩

namespace Token

/-- **The tokens that can be written down**: identifiers are words other than the
keywords, and literals are words of digits and letters that can be decoded. -/
def Lexeme : Token → Prop
  | ident name =>
    headed Scan.isWordStart Scan.isWordChar name.toList = true ∧ ∀ k : Keyword, name ≠ k.spelling
  | number text =>
    headed Char.isDigit Char.isAlphanum text.toList = true ∧ ∃ n, Literal.decode text = .ok n
  | keyword _ | mark _ => True

/-- Whether a character directly after a token would be taken for a part of it:
words and literals go on as long as they can, an `=` extends a mark, and a slash
may begin a comment. -/
def takes (c : Char) : Token → Bool
  | ident _ | keyword _ => Scan.isWordChar c
  | number _ => c.isAlphanum
  | mark .assign | mark .not | mark .less | mark .greater => c == '='
  | mark .slash => c == '/' || c == '*'
  | mark _ => false

end Token

/-! ## Layouts -/

/-- **A text is laid out as a list of tokens**, from `p` on: it is a sequence of
fillers and lexemes, and no lexeme is followed by a character that it takes. The
text may end in the middle of a comment that its line would end. -/
inductive Laid : Position → List Char → List (Located Token) → Prop
  | nil (p : Position) : Laid p [] []
  | comment (p : Position) {body : List Char} (h : '\n' ∉ body) : Laid p ('/' :: '/' :: body) []
  | filler (f : Filler) {p : Position} {cs : List Char} {ts : List (Located Token)}
      (rest : Laid (p.afterAll f.text) cs ts) : Laid p (f.text ++ cs) ts
  | token {t : Token} (ht : t.Lexeme) {p : Position} {cs : List Char} {ts : List (Located Token)}
      (next : ∀ c ∈ cs.head?, t.takes c = false)
      (rest : Laid (p.afterAll t.spelling.toList) cs ts) :
      Laid p (t.spelling.toList ++ cs) (⟨t, ⟨p, p.afterAll t.spelling.toList⟩⟩ :: ts)

variable {m : Mark} {ts : List (Located Token)} {text : String} {t : Token} {n : Int32}
  {body : List Char}

namespace Scan

open Input (place)

variable {p start last : Position} {c : Char} {cs rest : List Char}

/-! ## What a character begins -/

theorem begin_shortMark (h : shortMark? c = some m) : begin c = .complete (.mark m) := by
  rw [begin, h]

theorem begin_relational {short long : Mark} (h : relational? c = some (short, long)) :
    begin c = .shift (.relational short long) := by
  have hshort : shortMark? c = none := by
    unfold relational? at h
    split at h <;> first | rfl | cases h
  rw [begin, hshort, h]

theorem begin_doubled (h : doubled? c = some m) : begin c = .shift (.doubled c m) := by
  have hother : shortMark? c = none ∧ relational? c = none := by
    unfold doubled? at h
    split at h <;> first | exact ⟨rfl, rfl⟩ | cases h
  rw [begin, hother.1, hother.2, h]

/-- The characters of words and literals, and blanks, begin no mark. -/
theorem not_mark (h : isWordChar c = true ∨ isBlank c = true) :
    shortMark? c = none ∧ relational? c = none ∧ doubled? c = none ∧ (c == '/') = false := by
  refine ⟨?_, ?_, ?_, ?_⟩
  · unfold shortMark?
    split <;> first | rfl | exact absurd h (by decide)
  · unfold relational?
    split <;> first | rfl | exact absurd h (by decide)
  · unfold doubled?
    split <;> first | rfl | exact absurd h (by decide)
  · refine beq_eq_false_iff_ne.2 ?_
    rintro rfl
    exact absurd h (by decide)

theorem isWordChar_of_isWordStart (h : isWordStart c = true) : isWordChar c = true := by
  unfold isWordStart at h
  unfold isWordChar Char.isAlphanum
  rw [Bool.or_right_comm, h]
  rfl

theorem isWordChar_of_isAlphanum (h : c.isAlphanum = true) : isWordChar c = true := by
  rw [isWordChar, h]
  rfl

theorem isAlphanum_of_isDigit (h : c.isDigit = true) : c.isAlphanum = true := by
  rw [Char.isAlphanum, h, Bool.or_true]

/-- A digit begins no word. -/
theorem isWordStart_of_isDigit (h : c.isDigit = true) : isWordStart c = false := by
  have hle : c.val ≤ '9'.val := of_decide_eq_true (Bool.and_eq_true_iff.1 h).2
  refine Bool.eq_false_iff.2 fun hstart => ?_
  obtain halpha | hunderscore := Bool.or_eq_true_iff.1 hstart
  · obtain hupper | hlower := Bool.or_eq_true_iff.1 halpha
    · have hge : 'A'.val ≤ c.val := (of_decide_eq_true hupper).1
      exact absurd (UInt32.le_trans hge hle) (by decide)
    · have hge : 'a'.val ≤ c.val := of_decide_eq_true (Bool.and_eq_true_iff.1 hlower).1
      exact absurd (UInt32.le_trans hge hle) (by decide)
  · cases eq_of_beq hunderscore
    exact absurd hle (by decide)

theorem begin_word (h : isWordStart c = true) : begin c = .shift (.word (String.singleton c)) := by
  obtain ⟨hshort, hrelational, hdoubled, hslash⟩ := not_mark (.inl (isWordChar_of_isWordStart h))
  rw [begin, hshort, hrelational, hdoubled, hslash, h]
  rfl

theorem begin_digit (h : c.isDigit = true) : begin c = .shift (.number (String.singleton c)) := by
  obtain ⟨hshort, hrelational, hdoubled, hslash⟩ :=
    not_mark (.inl (isWordChar_of_isAlphanum (isAlphanum_of_isDigit h)))
  rw [begin, hshort, hrelational, hdoubled, hslash, isWordStart_of_isDigit h, h]
  rfl

theorem begin_blank (h : isBlank c = true) : begin c = .shift .boundary := by
  simp only [isBlank, Bool.or_eq_true, beq_iff_eq] at h
  obtain (((rfl | rfl) | rfl) | rfl) | rfl := h <;> rfl

/-! ## Fillers -/

namespace State

/-- The characters of a line pass in a comment that the line ends. -/
theorem run_lineComment (h : '\n' ∉ body) (p last : Position) (rest : List Char) :
    ∃ last', State.run ⟨.lineComment, start, last⟩ (place p (body ++ rest))
      = State.run ⟨.lineComment, start, last'⟩ (place (p.afterAll body) rest) := by
  induction body generalizing p last with
  | nil => exact ⟨last, rfl⟩
  | cons c body ih =>
    obtain ⟨hc, hbody⟩ := ne_and_not_mem_of_not_mem_cons h
    obtain ⟨last', hrun⟩ := ih hbody (p.after c) p
    refine ⟨last', .trans (run_shift (m := .lineComment) Mode.noConfusion ?_) hrun⟩
    rw [Mode.react, if_neg (mt beq_iff_eq.1 hc.symm)]

/-- A text without `*/` passes in a comment that this ends; an asterisk before it
counts. -/
theorem run_blockComment (star : Bool) (h : ¬ ['*', '/'] <:+: (if star then '*' :: body else body))
    (p last : Position) (rest : List Char) :
    ∃ star' last', State.run ⟨.blockComment star, start, last⟩ (place p (body ++ rest))
      = State.run ⟨.blockComment star', start, last'⟩ (place (p.afterAll body) rest) := by
  induction body generalizing p last star with
  | nil => exact ⟨star, last, rfl⟩
  | cons c body ih =>
    have hopen : (star && c == '/') = false := by
      refine Bool.eq_false_iff.2 fun hclose => h ?_
      obtain ⟨rfl, hc⟩ := Bool.and_eq_true_iff.1 hclose
      obtain rfl := beq_iff_eq.1 hc
      exact ⟨[], body, rfl⟩
    have hbody : ¬ ['*', '/'] <:+: (if c == '*' then '*' :: body else body) := by
      have htail : ¬ ['*', '/'] <:+: c :: body := by
        cases star with
        | false => exact h
        | true => exact fun hclose => h (hclose.trans (suffix_cons '*' (c :: body)).isInfix)
      by_cases hc : c = '*'
      · rw [hc] at htail ⊢
        exact htail
      · rw [if_neg (mt beq_iff_eq.1 hc)]
        exact fun hclose => htail (hclose.trans (suffix_cons c body).isInfix)
    obtain ⟨star', last', hrun⟩ := ih (c == '*') hbody (p.after c) p
    refine ⟨star', last', .trans (run_shift (m := .blockComment (c == '*')) Mode.noConfusion ?_) hrun⟩
    rw [Mode.react, hopen]
    rfl

end State

/-- After `//` the scanner is in a comment that the line ends. -/
theorem scanFrom_lineComment (p : Position) (cs : List Char) :
    scanFrom p ('/' :: '/' :: cs)
      = State.run ⟨.lineComment, p, p.next⟩ (place (p.afterAll ['/', '/']) cs) :=
  (scanFrom_shift (m := .slash) rfl).trans (State.run_shift Mode.noConfusion rfl)

/-- After `/*` the scanner is in a comment that `*/` ends. -/
theorem scanFrom_blockComment (p : Position) (cs : List Char) :
    scanFrom p ('/' :: '*' :: cs)
      = State.run ⟨.blockComment false, p, p.next⟩ (place (p.afterAll ['/', '*']) cs) :=
  (scanFrom_shift (m := .slash) rfl).trans (State.run_shift Mode.noConfusion rfl)

/-- **A filler takes the scanner from a boundary to a boundary.** -/
theorem scanFrom_filler (f : Filler) (p : Position) (cs : List Char) :
    scanFrom p (f.text ++ cs) = scanFrom (p.afterAll f.text) cs := by
  cases f with
  | blank c h => exact scanFrom_boundary (begin_blank h)
  | line body h =>
    have htext : (Filler.line body h).text ++ cs = '/' :: '/' :: (body ++ '\n' :: cs) :=
      congrArg (['/', '/'] ++ ·) (append_assoc body ['\n'] cs)
    obtain ⟨last, hbody⟩ := State.run_lineComment h (p.afterAll ['/', '/']) p.next ('\n' :: cs)
    rw [htext, scanFrom_lineComment, hbody, State.run_shift (m := .boundary) Mode.noConfusion rfl,
      State.run_eq_scanFrom rfl]
    simp only [Filler.text, Position.afterAll_cons, Position.afterAll_append, Position.afterAll_nil]
  | block body h =>
    have htext : (Filler.block body h).text ++ cs = '/' :: '*' :: (body ++ '*' :: '/' :: cs) :=
      congrArg (['/', '*'] ++ ·) (append_assoc body ['*', '/'] cs)
    obtain ⟨star, last, hbody⟩ := State.run_blockComment false h (p.afterAll ['/', '*']) p.next
      ('*' :: '/' :: cs)
    have hstar : (Mode.blockComment star).react '*' = .take (.shift (.blockComment true)) := by
      cases star <;> rfl
    rw [htext, scanFrom_blockComment, hbody, State.run_shift Mode.noConfusion hstar,
      State.run_shift (m := .boundary) Mode.noConfusion rfl, State.run_eq_scanFrom rfl]
    simp only [Filler.text, Position.afterAll_cons, Position.afterAll_append, Position.afterAll_nil]

/-! ## Lexemes -/

namespace State

/-- A token ends before a character that it does not take, or at the end of the
text. -/
theorem run_ends {s : State} (hclose : s.mode.close = some (.ok t))
    (hnext : ∀ c ∈ cs.head?, s.mode.react c = .endBefore t) :
    s.run (place p cs) = s.token t :: scanFrom p cs := by
  cases cs with
  | nil =>
    show s.finish = _
    rw [finish, hclose]
    rfl
  | cons c cs => exact run_endBefore (hnext c rfl)

/-- The characters of a class pass in a mode that collects them. -/
theorem run_while {m : String → Mode} {more : Char → Bool} (hmode : ∀ text, m text ≠ .boundary)
    (hreact : ∀ text c, more c = true → (m text).react c = .take (.shift (m (text.push c))))
    (hline : more '\n' = false) {w : List Char} (hw : ∀ c ∈ w, more c = true) (hlast : last.next = p)
    (start : Position) (text : String) (rest : List Char) :
    ∃ last', last'.next = p.afterAll w ∧
      State.run ⟨m text, start, last⟩ (place p (w ++ rest))
        = State.run ⟨m (String.ofList (text.toList ++ w)), start, last'⟩
            (place (p.afterAll w) rest) := by
  induction w generalizing p last text with
  | nil =>
    refine ⟨last, hlast, ?_⟩
    rw [append_nil, String.ofList_toList]
    rfl
  | cons c w ih =>
    obtain ⟨hc, hw⟩ := forall_mem_cons.1 hw
    have hne : c ≠ '\n' := by
      rintro rfl
      exact Bool.noConfusion (hline.symm.trans hc)
    obtain ⟨last', hnext, hrun⟩ := ih hw (p.after_of_ne hne).symm (text.push c)
    refine ⟨last', hnext, (run_shift (hmode text) (hreact text c hc)).trans (hrun.trans ?_)⟩
    rw [String.toList_push, append_assoc]
    rfl

end State

variable {word : String}

/-- A word is collected in a mode, from the character that begins it. -/
theorem scanFrom_while {m : String → Mode} {first more : Char → Bool}
    (hbegin : ∀ c, first c = true → begin c = .shift (m (String.singleton c)))
    (hmode : ∀ text, m text ≠ .boundary)
    (hreact : ∀ text c, more c = true → (m text).react c = .take (.shift (m (text.push c))))
    (hfirst : first '\n' = false) (hmore : more '\n' = false)
    (hword : headed first more word.toList = true) (p : Position) (rest : List Char) :
    ∃ last, last.next = p.afterAll word.toList ∧
      scanFrom p (word.toList ++ rest)
        = State.run ⟨m word, p, last⟩ (place (p.afterAll word.toList) rest) := by
  obtain ⟨c, w, htext, hc, hw⟩ := exists_of_headed hword
  have hne : c ≠ '\n' := by
    rintro rfl
    exact Bool.noConfusion (hfirst.symm.trans hc)
  obtain ⟨last, hlast, hrun⟩ := State.run_while hmode hreact hmore hw (p.after_of_ne hne).symm p
    (String.singleton c) rest
  rw [String.toList_singleton, singleton_append, ← htext, String.ofList_toList] at hrun
  rw [htext]
  exact ⟨last, hlast, (scanFrom_shift (hbegin c hc)).trans hrun⟩

/-- **A word** ends before a character that is none of a word. -/
theorem scanFrom_word (hword : headed isWordStart isWordChar word.toList = true)
    (hrest : ∀ c ∈ rest.head?, isWordChar c = false) (p : Position) :
    scanFrom p (word.toList ++ rest)
      = .ok ⟨Token.ofWord word, ⟨p, p.afterAll word.toList⟩⟩ ::
          scanFrom (p.afterAll word.toList) rest := by
  obtain ⟨last, hlast, hrun⟩ := scanFrom_while (m := .word) (fun _ => begin_word)
    (fun _ => Mode.noConfusion) (fun _ _ h => if_pos h) rfl rfl hword p rest
  have hends := State.run_ends (s := ⟨.word word, p, last⟩) (p := p.afterAll word.toList) rfl
    fun c hc => if_neg (Bool.eq_false_iff.1 (hrest c hc))
  rw [hrun, hends, State.token, ← hlast]
  rfl

/-- A word of digits and letters is collected. -/
theorem scanFrom_digits (hword : headed Char.isDigit Char.isAlphanum word.toList = true)
    (p : Position) (rest : List Char) :
    ∃ last, last.next = p.afterAll word.toList ∧
      scanFrom p (word.toList ++ rest)
        = State.run ⟨.number word, p, last⟩ (place (p.afterAll word.toList) rest) :=
  scanFrom_while (m := .number) (fun _ => begin_digit) (fun _ => Mode.noConfusion)
    (fun _ _ h => if_pos h) rfl rfl hword p rest

/-- **A literal** ends before a character that is neither a digit nor a letter. -/
theorem scanFrom_number (hword : headed Char.isDigit Char.isAlphanum word.toList = true)
    (hrest : ∀ c ∈ rest.head?, c.isAlphanum = false) (hvalue : Literal.value word.toList = .ok n)
    (p : Position) :
    scanFrom p (word.toList ++ rest)
      = .ok ⟨.number word, ⟨p, p.afterAll word.toList⟩⟩ ::
          scanFrom (p.afterAll word.toList) rest := by
  obtain ⟨last, hlast, hrun⟩ := scanFrom_digits hword p rest
  have hnumber : number word = .ok (.number word) := by
    rw [number, hvalue]
  have hends := State.run_ends (s := ⟨.number word, p, last⟩) (p := p.afterAll word.toList)
    (congrArg some hnumber) fun c hc => by
      rw [Mode.react, if_neg (Bool.eq_false_iff.1 (hrest c hc)), hnumber]
  rw [hrun, hends, State.token, ← hlast]
  rfl

/-! ## Marks -/

/-- The marks of one character that nothing extends. -/
theorem spelling_shortMark (h : shortMark? c = some m) :
    m.spelling.toList = [c] ∧ ∀ d, (Token.mark m).takes d = false := by
  unfold shortMark? at h
  split at h <;> cases h <;> exact ⟨rfl, fun _ => rfl⟩

/-- The marks that an `=` extends. -/
theorem spelling_relational {short long : Mark} (h : relational? c = some (short, long)) :
    short.spelling.toList = [c] ∧ long.spelling.toList = [c, '='] ∧
      ∀ d, (Token.mark short).takes d = (d == '=') ∧ (Token.mark long).takes d = false := by
  unfold relational? at h
  split at h <;> cases h <;> exact ⟨rfl, rfl, fun _ => ⟨rfl, rfl⟩⟩

/-- The marks of one character twice. -/
theorem spelling_doubled (h : doubled? c = some m) :
    m.spelling.toList = [c, c] ∧ ∀ d, (Token.mark m).takes d = false := by
  unfold doubled? at h
  split at h <;> cases h <;> exact ⟨rfl, fun _ => rfl⟩

/-- **Every mark is of one of five kinds.** -/
theorem mark_cases (m : Mark) :
    (∃ c, shortMark? c = some m) ∨ (∃ c long, relational? c = some (m, long)) ∨
      (∃ c short, relational? c = some (short, m)) ∨ (∃ c, doubled? c = some m) ∨ m = .slash := by
  cases m with
  | comma => exact .inl ⟨',', rfl⟩
  | semicolon => exact .inl ⟨';', rfl⟩
  | plus => exact .inl ⟨'+', rfl⟩
  | minus => exact .inl ⟨'-', rfl⟩
  | times => exact .inl ⟨'*', rfl⟩
  | percent => exact .inl ⟨'%', rfl⟩
  | openParen => exact .inl ⟨'(', rfl⟩
  | closeParen => exact .inl ⟨')', rfl⟩
  | openBrace => exact .inl ⟨'\x7b', rfl⟩
  | closeBrace => exact .inl ⟨'\x7d', rfl⟩
  | openBracket => exact .inl ⟨'[', rfl⟩
  | closeBracket => exact .inl ⟨']', rfl⟩
  | assign => exact .inr (.inl ⟨'=', .equal, rfl⟩)
  | not => exact .inr (.inl ⟨'!', .notEqual, rfl⟩)
  | less => exact .inr (.inl ⟨'<', .lessEqual, rfl⟩)
  | greater => exact .inr (.inl ⟨'>', .greaterEqual, rfl⟩)
  | equal => exact .inr (.inr (.inl ⟨'=', .assign, rfl⟩))
  | notEqual => exact .inr (.inr (.inl ⟨'!', .not, rfl⟩))
  | lessEqual => exact .inr (.inr (.inl ⟨'<', .less, rfl⟩))
  | greaterEqual => exact .inr (.inr (.inl ⟨'>', .greater, rfl⟩))
  | and => exact .inr (.inr (.inr (.inl ⟨'&', rfl⟩)))
  | or => exact .inr (.inr (.inr (.inl ⟨'|', rfl⟩)))
  | slash => exact .inr (.inr (.inr (.inr rfl)))

/-- No mark begins with a newline, or goes on with one. -/
theorem newline_not_mem_mark (m : Mark) : '\n' ∉ m.spelling.toList := by
  cases m <;> decide

/-- **A mark** ends before a character that does not extend it. -/
theorem scanFrom_mark (m : Mark) (hnext : ∀ d ∈ cs.head?, (Token.mark m).takes d = false)
    (p : Position) :
    scanFrom p (m.spelling.toList ++ cs)
      = .ok ⟨.mark m, ⟨p, p.afterAll m.spelling.toList⟩⟩ ::
          scanFrom (p.afterAll m.spelling.toList) cs := by
  have hline := newline_not_mem_mark m
  obtain ⟨c, h⟩ | ⟨c, long, h⟩ | ⟨c, short, h⟩ | ⟨c, h⟩ | rfl := mark_cases m
  · rw [(spelling_shortMark h).1] at hline ⊢
    have hc : p.after c = p.next := p.after_of_ne (ne_of_not_mem_cons hline).symm
    rw [singleton_append, scanFrom_complete (begin_shortMark h), Position.afterAll_cons,
      Position.afterAll_nil, hc]
  · obtain ⟨hspelling, -, htakes⟩ := spelling_relational h
    rw [hspelling] at hline ⊢
    have hc : p.after c = p.next := p.after_of_ne (ne_of_not_mem_cons hline).symm
    rw [singleton_append, scanFrom_shift (begin_relational h), State.run_ends (t := .mark m) rfl,
      Position.afterAll_cons, Position.afterAll_nil, hc]
    · rfl
    · intro d hd
      have heq : (d == '=') = false := (htakes d).1.symm.trans (hnext d hd)
      rw [Mode.react, heq]
      rfl
  · obtain ⟨-, hspelling, -⟩ := spelling_relational h
    rw [hspelling] at hline ⊢
    have hc : p.after c = p.next := p.after_of_ne (ne_of_not_mem_cons hline).symm
    show scanFrom p (c :: '=' :: cs) = _
    rw [scanFrom_shift (begin_relational h), State.run_complete (t := .mark m) Mode.noConfusion rfl,
      Position.afterAll_cons, Position.afterAll_cons, Position.afterAll_nil, hc]
    rfl
  · rw [(spelling_doubled h).1] at hline ⊢
    have hc (q : Position) : q.after c = q.next :=
      q.after_of_ne (ne_of_not_mem_cons hline).symm
    have hreact : (Mode.doubled c m).react c = .take (.complete (.mark m)) := by
      rw [Mode.react, if_pos (beq_self_eq_true c)]
    show scanFrom p (c :: c :: cs) = _
    rw [scanFrom_shift (begin_doubled h), State.run_complete Mode.noConfusion hreact,
      Position.afterAll_cons, Position.afterAll_cons, Position.afterAll_nil, hc, hc]
  · show scanFrom p ('/' :: cs) = _
    rw [scanFrom_shift (m := .slash) rfl, State.run_ends (t := .mark .slash) rfl]
    · rfl
    · intro d hd
      obtain ⟨hslash, hstar⟩ := Bool.or_eq_false_iff.1 (hnext d hd)
      rw [Mode.react, hslash, hstar]
      rfl

/-! ## Tokens -/

theorem ofSpelling?_eq_none {name : String} (h : ∀ k : Keyword, name ≠ k.spelling) :
    Keyword.ofSpelling? name = none :=
  find?_eq_none.2 fun k _ => mt beq_iff_eq.1 (h k).symm

/-- Keywords are words. -/
theorem headed_keyword (k : Keyword) : headed isWordStart isWordChar k.spelling.toList = true := by
  cases k <;> rfl

theorem value_of_decode (h : Literal.decode text = .ok n) : Literal.value text.toList = .ok n := by
  unfold Literal.decode at h
  split at h
  · split at h
    next m hvalue => rwa [← Except.ok.inj h]
    next => cases h
  · cases h

/-- **A lexeme takes the scanner from a boundary to a boundary**, and the token is
found that it spells. -/
theorem scanFrom_lexeme (ht : t.Lexeme) (hnext : ∀ d ∈ cs.head?, t.takes d = false) (p : Position) :
    scanFrom p (t.spelling.toList ++ cs)
      = .ok ⟨t, ⟨p, p.afterAll t.spelling.toList⟩⟩ :: scanFrom (p.afterAll t.spelling.toList) cs := by
  cases t with
  | ident name =>
    have hword : Token.ofWord name = .ident name := by
      rw [Token.ofWord, ofSpelling?_eq_none ht.2]
    exact (scanFrom_word ht.1 hnext p).trans (by rw [hword]; rfl)
  | keyword k =>
    have hword : Token.ofWord k.spelling = .keyword k := by
      rw [Token.ofWord, Keyword.ofSpelling?_spelling]
    exact (scanFrom_word (headed_keyword k) hnext p).trans (by rw [hword]; rfl)
  | number text =>
    obtain ⟨hword, n, hn⟩ := ht
    exact scanFrom_number hword hnext (value_of_decode hn) p
  | mark m => exact scanFrom_mark m hnext p

/-- **A text that is laid out as a list of tokens is scanned to these tokens.** -/
theorem scanFrom_of_laid (h : Laid p cs ts) : scanFrom p cs = ts.map .ok := by
  induction h with
  | nil p => rfl
  | @comment p body h =>
    obtain ⟨last, hbody⟩ := State.run_lineComment h (p.afterAll ['/', '/']) p.next []
    rw [append_nil] at hbody
    rw [scanFrom_lineComment, hbody]
    rfl
  | @filler f p cs ts rest ih => rw [scanFrom_filler, ih]
  | @token t ht p cs ts next rest ih =>
    rw [scanFrom_lexeme ht next, ih]
    rfl

theorem tokens_of_map_ok {input : List Input.Item} (h : items input = ts.map .ok) :
    tokens input = .ok ts := by
  have hnone : errors (ts.map .ok) = [] := by
    rw [errors, filterMap_map]
    exact filterMap_eq_nil_iff.2 fun t _ => rfl
  rw [tokens, h, hnone]
  dsimp only
  rw [filterMap_map]
  exact congrArg Except.ok (filterMap_some ..)

/-- The tokens of a text that is laid out as a list of tokens. -/
theorem tokens_of_laid (h : Laid Position.origin text.toList ts) :
    tokens (Input.ofString text) = .ok ts :=
  tokens_of_map_ok (scanFrom_of_laid h)

end Scan

end SysY
