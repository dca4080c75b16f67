import SysY.Proofs.Scan.Layout

/-!
# Scanning loses nothing

A text in which no error is found is laid out as the tokens that are found in it
(`laid_of_tokens`): every text begins with a filler, with a lexeme, with a comment
that is open at its end, or with something that is an error (`front`), so that a
text without errors is cut into fillers and lexemes from its beginning on.

From the layout one reads where the tokens stand: one after the other, each on a
line, and in its span there is what it spells.
-/

namespace SysY

open List

variable {m : Mark} {first : Char → Bool}

namespace Scan

open Input (place)

variable {p : Position} {c : Char} {cs rest : List Char} {ts : List (Located Token)}

/-! ## What a text begins with -/

/-- What a text that is not empty begins with. -/
inductive Front : List Char → Prop
  | filler (f : Filler) (rest : List Char) : Front (f.text ++ rest)
  /-- A lexeme that goes on as far as it can. -/
  | lexeme {t : Token} (ht : t.Lexeme) {rest : List Char}
      (next : ∀ c ∈ rest.head?, t.takes c = false) : Front (t.spelling.toList ++ rest)
  /-- A comment that is open at the end of the text. -/
  | comment {body : List Char} (h : '\n' ∉ body) : Front ('/' :: '/' :: body)
  | error {cs : List Char} (h : ∀ p, ∃ e found, scanFrom p cs = .error e :: found) : Front cs

theorem Front.mark {text : List Char} (hspelling : m.spelling.toList = text)
    (hnext : ∀ c ∈ rest.head?, (Token.mark m).takes c = false) : Front (text ++ rest) :=
  hspelling ▸ lexeme (t := .mark m) trivial hnext

/-- A text with a `*/` in it begins with a text without one and a `*/`. -/
theorem exists_close (h : ['*', '/'] <:+: cs) :
    ∃ body rest, cs = body ++ '*' :: '/' :: rest ∧ ¬ ['*', '/'] <:+: body := by
  induction cs with
  | nil => exact absurd (infix_nil.1 h) (cons_ne_nil _ _)
  | cons c cs ih =>
    by_cases hhere : ['*', '/'] <+: c :: cs
    · obtain ⟨rest, hrest⟩ := hhere
      exact ⟨[], rest, hrest.symm, fun h => absurd (infix_nil.1 h) (cons_ne_nil _ _)⟩
    · obtain ⟨body, rest, rfl, hbody⟩ := ih ((infix_cons_iff.1 h).resolve_left hhere)
      refine ⟨c :: body, rest, rfl, fun hbad => ?_⟩
      obtain hstart | hinside := infix_cons_iff.1 hbad
      · exact hhere (hstart.trans (prefix_append (c :: body) ('*' :: '/' :: rest)))
      · exact hbody hinside

theorem front_slash (cs : List Char) : Front ('/' :: cs) := by
  have hmark (h : ∀ c ∈ cs.head?, (Token.mark .slash).takes c = false) : Front ('/' :: cs) :=
    Front.mark (show Mark.slash.spelling.toList = ['/'] from rfl) h
  cases cs with
  | nil => exact hmark fun c hc => by cases hc
  | cons c cs =>
    by_cases hslash : c = '/'
    · subst hslash
      by_cases hmem : '\n' ∈ cs
      · obtain ⟨body, rest, rfl, hbody⟩ := eq_append_cons_of_mem hmem
        have hfront := Front.filler (.line body hbody) rest
        rwa [Filler.text, cons_append, cons_append, append_assoc] at hfront
      · exact .comment hmem
    by_cases hstar : c = '*'
    · subst hstar
      by_cases hclose : ['*', '/'] <:+: cs
      · obtain ⟨body, rest, rfl, hbody⟩ := exists_close hclose
        have hfront := Front.filler (.block body hbody) rest
        rwa [Filler.text, cons_append, cons_append, append_assoc] at hfront
      · refine .error fun p => ?_
        obtain ⟨star, last, hrun⟩ := State.run_blockComment false hclose (p.afterAll ['/', '*'])
          p.next []
        rw [append_nil] at hrun
        exact ⟨_, _, (scanFrom_blockComment p cs).trans hrun⟩
    · refine hmark fun d hd => ?_
      cases hd
      exact Bool.or_eq_false_iff.2 ⟨beq_eq_false_iff_ne.2 hslash, beq_eq_false_iff_ne.2 hstar⟩

theorem front_relational {short long : Mark} (h : relational? c = some (short, long))
    (cs : List Char) : Front (c :: cs) := by
  obtain ⟨hshort, hlong, htakes⟩ := spelling_relational h
  by_cases heq : cs.head? = some '='
  · obtain ⟨rest, rfl⟩ := head?_eq_some_iff.1 heq
    exact Front.mark hlong fun d _ => (htakes d).2
  · refine Front.mark hshort fun d hd => ?_
    rw [(htakes d).1]
    refine beq_eq_false_iff_ne.2 ?_
    rintro rfl
    exact heq hd

theorem front_doubled (h : doubled? c = some m) (cs : List Char) : Front (c :: cs) := by
  obtain ⟨hspelling, htakes⟩ := spelling_doubled h
  cases cs with
  | nil => exact .error fun p => ⟨_, _, scanFrom_shift (begin_doubled h)⟩
  | cons d cs =>
    by_cases hd : d = c
    · subst hd
      exact Front.mark hspelling fun d _ => htakes d
    · refine .error fun p => ⟨_, _, (scanFrom_shift (begin_doubled h)).trans
        (State.run_fail (e := .expected c) Mode.noConfusion ?_)⟩
      rw [Mode.react, if_neg (mt beq_iff_eq.1 hd)]

/-- A text that begins with a character of a class is a word and what comes after
it. -/
theorem exists_headed (more : Char → Bool) (hc : first c = true) (cs : List Char) :
    ∃ word : String, ∃ rest, c :: cs = word.toList ++ rest ∧ headed first more word.toList = true ∧
      ∀ d ∈ rest.head?, more d = false := by
  refine ⟨String.ofList (c :: cs.takeWhile more), cs.dropWhile more, ?_, ?_, fun d hd => ?_⟩
  · rw [String.toList_ofList, cons_append, takeWhile_append_dropWhile]
  · rw [String.toList_ofList, headed, hc, all_takeWhile]
    rfl
  · have hstop := head?_dropWhile_not more cs
    rwa [Option.mem_def.1 hd] at hstop

theorem spelling_ofWord (word : String) : (Token.ofWord word).spelling = word := by
  unfold Token.ofWord
  split
  next k hk =>
    have hspelling : (k.spelling == word) = true :=
      find?_some (p := fun k : Keyword => k.spelling == word) hk
    exact beq_iff_eq.1 hspelling
  next => rfl

/-- A word is a lexeme. -/
theorem lexeme_ofWord {word : String} (h : headed isWordStart isWordChar word.toList = true) :
    (Token.ofWord word).Lexeme ∧ ∀ d, (Token.ofWord word).takes d = isWordChar d := by
  unfold Token.ofWord
  split
  next => exact ⟨trivial, fun _ => rfl⟩
  next hnone =>
    refine ⟨⟨h, fun k hk => ?_⟩, fun _ => rfl⟩
    rw [hk, Keyword.ofSpelling?_spelling] at hnone
    cases hnone

theorem front_word (h : isWordStart c = true) (cs : List Char) : Front (c :: cs) := by
  obtain ⟨word, rest, htext, hword, hrest⟩ := exists_headed isWordChar h cs
  obtain ⟨hlexeme, htakes⟩ := lexeme_ofWord hword
  have hfront := Front.lexeme hlexeme fun d hd => (htakes d).trans (hrest d hd)
  rwa [spelling_ofWord, ← htext] at hfront

theorem decode_of_value {text : String} {n : Int32} (h : Literal.value text.toList = .ok n) :
    Literal.decode text = .ok n := by
  rw [Literal.decode, boundary_of_value h, h]
  rfl

theorem front_digit (h : c.isDigit = true) (cs : List Char) : Front (c :: cs) := by
  obtain ⟨word, rest, htext, hword, hrest⟩ := exists_headed Char.isAlphanum h cs
  rw [htext]
  cases hvalue : Literal.value word.toList with
  | ok n => exact .lexeme (t := .number word) ⟨hword, n, decode_of_value hvalue⟩ hrest
  | error e =>
    have hnumber : number word = .error (.literal e) := by
      rw [number, hvalue]
    refine .error fun p => ?_
    obtain ⟨last, -, hrun⟩ := scanFrom_digits hword p rest
    rw [hrun]
    cases rest with
    | nil =>
      refine ⟨⟨.literal e, Span.single p⟩, [], ?_⟩
      have hclose : (Mode.number word).close = some (.error (.literal e)) := congrArg some hnumber
      show State.finish ⟨.number word, p, last⟩ = _
      rw [State.finish, hclose]
      rfl
    | cons d rest =>
      refine ⟨_, _, State.run_fail (e := .literal e) Mode.noConfusion ?_⟩
      rw [Mode.react, if_neg (Bool.eq_false_iff.1 (hrest d rfl)), hnumber]

/-- **Every text begins with a filler, a lexeme, an open comment or an error.** -/
theorem front (c : Char) (cs : List Char) : Front (c :: cs) := by
  cases hshort : shortMark? c with
  | some m =>
    obtain ⟨hspelling, htakes⟩ := spelling_shortMark hshort
    exact Front.mark hspelling fun d _ => htakes d
  | none =>
    cases hrelational : relational? c with
    | some marks => exact front_relational hrelational cs
    | none =>
      cases hdoubled : doubled? c with
      | some m => exact front_doubled hdoubled cs
      | none =>
        by_cases hslash : c = '/'
        · exact hslash ▸ front_slash cs
        by_cases hword : isWordStart c = true
        · exact front_word hword cs
        by_cases hdigit : c.isDigit = true
        · exact front_digit hdigit cs
        by_cases hblank : isBlank c = true
        · exact .filler (.blank c hblank) cs
        · have hbegin : begin c = .fail (.badChar c) := by
            rw [begin, hshort, hrelational, hdoubled]
            dsimp only
            rw [if_neg (mt beq_iff_eq.1 hslash), if_neg hword, if_neg hdigit, if_neg hblank]
          exact .error fun p => ⟨_, _, scanFrom_fail hbegin⟩

end Scan

/-! ## Lexemes -/

open Scan

theorem Filler.text_ne_nil (f : Filler) : f.text ≠ [] := by
  cases f <;> exact cons_ne_nil _ _

/-- A mark has no character of a word. -/
theorem Mark.chars (m : Mark) :
    m.spelling.toList ≠ [] ∧ ∀ c ∈ m.spelling.toList, isWordChar c = false := by
  have hall : m.spelling.toList.all (!isWordChar ·) = true := by cases m <;> decide
  refine ⟨by cases m <;> decide, fun c hc => ?_⟩
  rw [← Bool.not_eq_true']
  exact all_eq_true.1 hall c hc

/-- The marks of one character that an `=` extends. -/
theorem Mark.takes_of_relational {c : Char} {short long : Mark} (hm : m.spelling.toList = [c])
    (h : relational? c = some (short, long)) : (Token.mark m).takes '=' = true := by
  unfold relational? at h
  split at h <;> cases h <;> cases m <;> first | rfl | exact absurd hm (by decide)

/-- The first of two equal characters is no mark. -/
theorem Mark.spelling_ne_of_doubled {c : Char} (h : doubled? c = some m) (m' : Mark) :
    m'.spelling.toList ≠ [c] := by
  unfold doubled? at h
  split at h <;> cases h <;> cases m' <;> decide

theorem headed_cons {more : Char → Bool} {c : Char} {cs : List Char}
    (h : headed first more (c :: cs) = true) : first c = true ∧ ∀ d ∈ cs, more d = true :=
  ⟨(Bool.and_eq_true_iff.1 h).1, all_eq_true.1 (Bool.and_eq_true_iff.1 h).2⟩

theorem ne_nil_of_headed {more : Char → Bool} {cs : List Char} (h : headed first more cs = true) :
    cs ≠ [] := by
  rintro rfl
  cases h

theorem not_mem_of_headed {more : Char → Bool} {c : Char} {cs : List Char}
    (hfirst : first c = false) (hmore : more c = false) (h : headed first more cs = true) :
    c ∉ cs := by
  obtain ⟨d, w, rfl, hd, hw⟩ := exists_of_headed h
  intro hmem
  obtain rfl | hmem := mem_cons.1 hmem
  · exact Bool.noConfusion (hfirst.symm.trans hd)
  · exact Bool.noConfusion (hmore.symm.trans (hw c hmem))

namespace Token

variable {t u : Token} {c : Char} {cs : List Char}

/-- A lexeme is a word, a literal or a mark, and takes what these take. -/
theorem Lexeme.kinds (h : t.Lexeme) :
    (headed isWordStart isWordChar t.spelling.toList = true ∧ ∀ c, t.takes c = isWordChar c) ∨
      (headed Char.isDigit Char.isAlphanum t.spelling.toList = true ∧
        ∀ c, t.takes c = c.isAlphanum) ∨
      ∃ m, t = .mark m := by
  cases t with
  | ident name => exact .inl ⟨h.1, fun _ => rfl⟩
  | keyword k => exact .inl ⟨headed_keyword k, fun _ => rfl⟩
  | number text => exact .inr (.inl ⟨h.1, fun _ => rfl⟩)
  | mark m => exact .inr (.inr ⟨m, rfl⟩)

theorem Lexeme.spelling_ne_nil (h : t.Lexeme) : t.spelling.toList ≠ [] := by
  obtain ⟨hword, -⟩ | ⟨hdigits, -⟩ | ⟨m, rfl⟩ := h.kinds
  · exact ne_nil_of_headed hword
  · exact ne_nil_of_headed hdigits
  · exact m.chars.1

/-- A lexeme stays on its line. -/
theorem Lexeme.newline_not_mem (h : t.Lexeme) : '\n' ∉ t.spelling.toList := by
  obtain ⟨hword, -⟩ | ⟨hdigits, -⟩ | ⟨m, rfl⟩ := h.kinds
  · exact not_mem_of_headed rfl rfl hword
  · exact not_mem_of_headed rfl rfl hdigits
  · exact newline_not_mem_mark m

/-- A mark that goes on after another one has an `=` there, and the other takes
it. -/
theorem takes_of_mark {m' : Mark} (h : m'.spelling.toList = m.spelling.toList ++ c :: cs) :
    (mark m).takes c = true := by
  obtain ⟨a, w, hm⟩ := exists_cons_of_ne_nil m.chars.1
  rw [hm] at h
  have hone {d : Char} : m'.spelling.toList ≠ [d] := by
    rw [h]
    simp
  have htwo {d e : Char} (heq : m'.spelling.toList = [d, e]) : m.spelling.toList = [d] ∧ c = e := by
    rw [h] at heq
    cases w with
    | nil =>
      obtain ⟨rfl, hrest⟩ := List.cons.inj heq
      exact ⟨hm, (List.cons.inj hrest).1⟩
    | cons b w => simp at heq
  obtain ⟨d, hd⟩ | ⟨d, long, hd⟩ | ⟨d, short, hd⟩ | ⟨d, hd⟩ | rfl := mark_cases m'
  · exact absurd (spelling_shortMark hd).1 hone
  · exact absurd (spelling_relational hd).1 hone
  · obtain ⟨hspelling, rfl⟩ := htwo (spelling_relational hd).2.1
    exact Mark.takes_of_relational hspelling hd
  · exact absurd (htwo (spelling_doubled hd).1).1 (Mark.spelling_ne_of_doubled hd m)
  · exact absurd rfl (hone (d := '/'))

/-- **A lexeme that goes on after another one** does so with a character that the
other takes: the first character tells what kind both are of. -/
theorem Lexeme.takes_of_longer (ht : t.Lexeme) (hu : u.Lexeme)
    (h : u.spelling.toList = t.spelling.toList ++ c :: cs) : t.takes c = true := by
  obtain ⟨a, w, hspelling⟩ := exists_cons_of_ne_nil ht.spelling_ne_nil
  have ha : a ∈ t.spelling.toList := hspelling ▸ mem_cons_self
  have hlonger : u.spelling.toList = a :: (w ++ c :: cs) := by
    rw [h, hspelling, cons_append]
  have hc : c ∈ w ++ c :: cs := mem_append_right _ mem_cons_self
  obtain ⟨huWord, -⟩ | ⟨huDigits, -⟩ | ⟨m', rfl⟩ := hu.kinds
  · rw [hlonger] at huWord
    obtain ⟨hfirst, hmore⟩ := headed_cons huWord
    obtain ⟨-, htakes⟩ | ⟨htDigits, -⟩ | ⟨m, rfl⟩ := ht.kinds
    · exact (htakes c).trans (hmore c hc)
    · rw [hspelling] at htDigits
      exact absurd hfirst (Bool.eq_false_iff.1 (isWordStart_of_isDigit (headed_cons htDigits).1))
    · exact absurd (isWordChar_of_isWordStart hfirst) (Bool.eq_false_iff.1 (m.chars.2 a ha))
  · rw [hlonger] at huDigits
    obtain ⟨hfirst, hmore⟩ := headed_cons huDigits
    obtain ⟨htWord, -⟩ | ⟨-, htakes⟩ | ⟨m, rfl⟩ := ht.kinds
    · rw [hspelling] at htWord
      exact absurd (headed_cons htWord).1 (Bool.eq_false_iff.1 (isWordStart_of_isDigit hfirst))
    · exact (htakes c).trans (hmore c hc)
    · exact absurd (isWordChar_of_isAlphanum (isAlphanum_of_isDigit hfirst))
        (Bool.eq_false_iff.1 (m.chars.2 a ha))
  · have hmark : isWordChar a = false :=
      m'.chars.2 a (show a ∈ (mark m').spelling.toList from hlonger ▸ mem_cons_self)
    obtain ⟨htWord, -⟩ | ⟨htDigits, -⟩ | ⟨m, rfl⟩ := ht.kinds
    · rw [hspelling] at htWord
      exact absurd (isWordChar_of_isWordStart (headed_cons htWord).1) (Bool.eq_false_iff.1 hmark)
    · rw [hspelling] at htDigits
      exact absurd (isWordChar_of_isAlphanum (isAlphanum_of_isDigit (headed_cons htDigits).1))
        (Bool.eq_false_iff.1 hmark)
    · exact takes_of_mark h

/-- **A lexeme that is not followed by a character that it takes** is the longest
one at its place. -/
theorem Lexeme.length_le (ht : t.Lexeme) (hnext : ∀ c ∈ cs.head?, t.takes c = false)
    (hu : u.Lexeme) (h : u.spelling.toList <+: t.spelling.toList ++ cs) :
    u.spelling.toList.length ≤ t.spelling.toList.length := by
  obtain hle | ⟨more, hmore⟩ := prefix_or_prefix_of_prefix h (prefix_append _ cs)
  · exact hle.length_le
  · cases more with
    | nil => exact Nat.le_of_eq (by rw [← hmore, append_nil])
    | cons c more =>
      rw [← hmore] at h
      obtain ⟨rest, hrest⟩ := (prefix_append_right_inj _).1 h
      rw [cons_append] at hrest
      have hc := hnext c (by rw [← hrest]; rfl)
      exact Bool.noConfusion (hc.symm.trans (ht.takes_of_longer hu hmore.symm))

end Token

namespace Scan

open Input (place)

variable {p : Position} {c : Char} {cs rest : List Char} {ts : List (Located Token)}

/-! ## The layout of a text without errors -/

/-- **A text in which only tokens are found is laid out as these.** -/
theorem laid_of_scanFrom (h : scanFrom p cs = ts.map .ok) : Laid p cs ts := by
  induction hn : cs.length using Nat.strongRecOn generalizing p cs ts with
  | ind n ih =>
    subst hn
    cases cs with
    | nil =>
      obtain rfl := map_eq_nil_iff.1 h.symm
      exact .nil p
    | cons c cs =>
      have hfront := front c cs
      generalize c :: cs = text at h ih hfront
      cases hfront with
      | filler f rest =>
        rw [scanFrom_filler] at h
        refine .filler f (ih rest.length ?_ h rfl)
        have := length_pos_iff.2 f.text_ne_nil
        rw [length_append]
        omega
      | @lexeme t ht rest next =>
        rw [scanFrom_lexeme ht next] at h
        cases ts with
        | nil => cases h
        | cons t' ts =>
          obtain ⟨hhead, hrest⟩ := List.cons.inj h
          rw [← Except.ok.inj hhead]
          refine .token ht next (ih rest.length ?_ hrest rfl)
          have := length_pos_iff.2 ht.spelling_ne_nil
          rw [length_append]
          omega
      | comment hbody =>
        obtain rfl : ts = [] :=
          map_eq_nil_iff.1 (h.symm.trans (scanFrom_of_laid (.comment p hbody)))
        exact .comment p hbody
      | error herror =>
        obtain ⟨e, found, herror⟩ := herror p
        rw [herror] at h
        cases ts <;> cases h

end Scan

/-! ## Places of a text -/

namespace Position

/-- Whether a position comes before another one in a text. -/
def before (p q : Position) : Bool := p.line < q.line || p.line == q.line && p.column < q.column

theorem before_iff {p q : Position} :
    p.before q = true ↔ p.line < q.line ∨ p.line = q.line ∧ p.column < q.column := by
  simp only [before, Bool.or_eq_true, Bool.and_eq_true, decide_eq_true_eq, beq_iff_eq]

theorem before_self (p : Position) : p.before p = false := by
  refine Bool.eq_false_iff.2 fun h => ?_
  rw [before_iff] at h
  omega

theorem before_trans {p q r : Position} (hpq : p.before q = true) (hqr : q.before r = true) :
    p.before r = true := by
  rw [before_iff] at hpq hqr ⊢
  omega

/-- Between a position and a later one. -/
theorem before_of_not_before {p q r : Position} (hpq : p.before q = true)
    (hrq : r.before q = false) : r.before p = false := by
  refine Bool.eq_false_iff.2 fun h => ?_
  exact Bool.noConfusion (hrq.symm.trans (before_trans h hpq))

theorem before_after (p : Position) (c : Char) : p.before (p.after c) = true := by
  rw [before_iff, after]
  split
  · exact .inl (Nat.lt_succ_self _)
  · exact .inr ⟨rfl, Nat.lt_succ_self _⟩

theorem afterAll_not_before (p : Position) (cs : List Char) : (p.afterAll cs).before p = false := by
  induction cs generalizing p with
  | nil => exact before_self p
  | cons c cs ih => exact before_of_not_before (before_after p c) (ih (p.after c))

theorem before_afterAll (p : Position) {cs : List Char} (h : cs ≠ []) :
    p.before (p.afterAll cs) = true := by
  induction cs generalizing p with
  | nil => exact absurd rfl h
  | cons c cs ih =>
    cases cs with
    | nil => exact before_after p c
    | cons d cs => exact before_trans (before_after p c) (ih (p.after c) (cons_ne_nil d cs))

end Position

/-- Whether a position lies in a span. -/
def Span.holds (s : Span) (p : Position) : Bool := !p.before s.start && p.before s.stop

namespace Input

/-- The characters of an input at the positions of a set. -/
def charsAt (inside : Position → Bool) (input : List Item) : List Char :=
  input.flatMap fun
    | .char c p => if inside p then [c] else []
    | .unreadable => []

variable {inside : Position → Bool} {p : Position}

theorem charsAt_append (inside : Position → Bool) (is js : List Item) :
    charsAt inside (is ++ js) = charsAt inside is ++ charsAt inside js := flatMap_append

/-- **The characters of a text stand between its beginning and its end**: all of
them are in a set that all positions there are in, and none in a set that none
is in. -/
theorem charsAt_place {cs : List Char} {b : Bool}
    (h : ∀ q, q.before p = false → q.before (p.afterAll cs) = true → inside q = b) :
    charsAt inside (place p cs) = if b then cs else [] := by
  induction cs generalizing p with
  | nil => cases b <;> rfl
  | cons c cs ih =>
    have hhead : inside p = b := h p p.before_self (p.before_afterAll (cons_ne_nil c cs))
    have htail := ih (p := p.after c) fun q hq hstop =>
      h q (Position.before_of_not_before (p.before_after c) hq) hstop
    show (if inside p then [c] else []) ++ charsAt inside (place (p.after c) cs) = _
    rw [hhead, htail]
    cases b <;> rfl

/-- The characters from a place of a text on. -/
theorem charsAt_after (p : Position) (pre post : List Char) :
    charsAt (fun q => !q.before (p.afterAll pre)) (place p (pre ++ post)) = post := by
  have hpre : charsAt (fun q => !q.before (p.afterAll pre)) (place p pre) = [] :=
    charsAt_place (b := false) fun q _ hq => by rw [hq]; rfl
  have hpost : charsAt (fun q => !q.before (p.afterAll pre)) (place (p.afterAll pre) post) = post :=
    charsAt_place (b := true) fun q hq _ => by rw [hq]; rfl
  rw [place_append, charsAt_append, hpre, hpost, nil_append]

/-- **The characters in a span.** -/
theorem charsAt_span (p : Position) (pre mid post : List Char) :
    charsAt (Span.holds ⟨p.afterAll pre, p.afterAll (pre ++ mid)⟩) (place p (pre ++ (mid ++ post)))
      = mid := by
  have hpre : charsAt (Span.holds ⟨p.afterAll pre, p.afterAll (pre ++ mid)⟩) (place p pre) = [] :=
    charsAt_place (b := false) fun q _ hq => by rw [Span.holds, hq]; rfl
  have hmid : charsAt (Span.holds ⟨p.afterAll pre, p.afterAll (pre ++ mid)⟩)
      (place (p.afterAll pre) mid) = mid :=
    charsAt_place (b := true) fun q hq hstop => by
      rw [Span.holds, hq, Position.afterAll_append, hstop]
      rfl
  have hpost : charsAt (Span.holds ⟨p.afterAll pre, p.afterAll (pre ++ mid)⟩)
      (place (p.afterAll (pre ++ mid)) post) = [] :=
    charsAt_place (b := false) fun q hq _ => by rw [Span.holds, hq, Bool.and_false]
  rw [place_append, charsAt_append, hpre, place_append, charsAt_append, hmid,
    ← Position.afterAll_append, hpost, nil_append, append_nil]

end Input

/-! ## Tokens of a text -/

namespace Laid

variable {p : Position} {cs : List Char} {ts : List (Located Token)}

/-- A token of a layout, with what comes before it and after it. -/
theorem exists_of_mem (h : Laid p cs ts) {t : Located Token} (ht : t ∈ ts) :
    ∃ pre post, cs = pre ++ (t.value.spelling.toList ++ post) ∧ t.value.Lexeme ∧
      (∀ c ∈ post.head?, t.value.takes c = false) ∧
      t.span = ⟨p.afterAll pre, p.afterAll (pre ++ t.value.spelling.toList)⟩ := by
  induction h with
  | nil | comment => cases ht
  | @filler f p cs ts rest ih =>
    obtain ⟨pre, post, rfl, hlexeme, hnext, hspan⟩ := ih ht
    refine ⟨f.text ++ pre, post, (append_assoc ..).symm, hlexeme, hnext, ?_⟩
    rw [append_assoc, Position.afterAll_append p, Position.afterAll_append p]
    exact hspan
  | @token u hu p cs ts next rest ih =>
    obtain rfl | ht := mem_cons.1 ht
    · exact ⟨[], cs, rfl, hu, next, rfl⟩
    · obtain ⟨pre, post, rfl, hlexeme, hnext, hspan⟩ := ih ht
      refine ⟨u.spelling.toList ++ pre, post, (append_assoc ..).symm, hlexeme, hnext, ?_⟩
      rw [append_assoc, Position.afterAll_append p, Position.afterAll_append p]
      exact hspan

/-- The tokens of a layout come one after the other. -/
theorem pairwise (h : Laid p cs ts) :
    ts.Pairwise fun t u => u.span.start.before t.span.stop = false := by
  induction h with
  | nil | comment => exact .nil
  | filler f rest ih => exact ih
  | token ht next rest ih =>
    refine .cons (fun u hu => ?_) ih
    obtain ⟨pre, post, -, -, -, hspan⟩ := rest.exists_of_mem hu
    rw [hspan]
    exact Position.afterAll_not_before _ pre

end Laid

namespace Scan

/-- **Scanning loses nothing.** A text in which no error is found is laid out as
the tokens that are found: between them there are only blanks and comments. Each
token is on one line, one comes after the other, the characters in a token's span
spell the token, and no longer lexeme begins where it begins. -/
theorem tokens_lossless {text : String} {ts : List (Located Token)}
    (h : tokens (Input.ofString text) = .ok ts) :
    Laid Position.origin text.toList ts ∧
      (ts.Pairwise fun t u => u.span.start.before t.span.stop = false) ∧
      ∀ t ∈ ts, t.span.start.line = t.span.stop.line ∧ t.span.start.before t.span.stop = true ∧
        Input.charsAt t.span.holds (Input.ofString text) = t.value.spelling.toList ∧
        ∀ u : Token, u.Lexeme →
          u.spelling.toList
            <+: Input.charsAt (fun q => !q.before t.span.start) (Input.ofString text) →
          u.spelling.toList.length ≤ t.value.spelling.toList.length := by
  have hlaid : Laid Position.origin text.toList ts := laid_of_scanFrom (map_ok_of_tokens h)
  refine ⟨hlaid, hlaid.pairwise, fun t ht => ?_⟩
  obtain ⟨pre, post, htext, hlexeme, hnext, hspan⟩ := hlaid.exists_of_mem ht
  rw [hspan, Input.ofString, htext]
  refine ⟨?_, ?_, Input.charsAt_span .., fun u hu hstart => ?_⟩
  · rw [Position.afterAll_append, Position.line_afterAll (Position.afterAll _ _),
      List.count_eq_zero.2 hlexeme.newline_not_mem, Nat.add_zero]
  · rw [Position.afterAll_append]
    exact Position.before_afterAll _ hlexeme.spelling_ne_nil
  · rw [Input.charsAt_after] at hstart
    exact hlexeme.length_le hnext hu hstart

/-- Marks and comments side by side. The asterisk that opens a comment does not
close it, so that the one after `a` goes on up to the `<=`. -/
theorem tokens_lossless_comments :
    tokens (Input.ofString "a/*/ /*/<=/**/b/1//") = .ok
        [⟨.ident "a", ⟨⟨1, 1⟩, ⟨1, 2⟩⟩⟩, ⟨.mark .lessEqual, ⟨⟨1, 9⟩, ⟨1, 11⟩⟩⟩,
          ⟨.ident "b", ⟨⟨1, 15⟩, ⟨1, 16⟩⟩⟩, ⟨.mark .slash, ⟨⟨1, 16⟩, ⟨1, 17⟩⟩⟩,
          ⟨.number "1", ⟨⟨1, 17⟩, ⟨1, 18⟩⟩⟩] ∧
      Laid Position.origin "a/*/ /*/<=/**/b/1//".toList
        [⟨.ident "a", ⟨⟨1, 1⟩, ⟨1, 2⟩⟩⟩, ⟨.mark .lessEqual, ⟨⟨1, 9⟩, ⟨1, 11⟩⟩⟩,
          ⟨.ident "b", ⟨⟨1, 15⟩, ⟨1, 16⟩⟩⟩, ⟨.mark .slash, ⟨⟨1, 16⟩, ⟨1, 17⟩⟩⟩,
          ⟨.number "1", ⟨⟨1, 17⟩, ⟨1, 18⟩⟩⟩] :=
  have htokens := by decide
  ⟨htokens, (tokens_lossless htokens).1⟩

end Scan

end SysY
