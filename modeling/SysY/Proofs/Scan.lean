import Mathlib.Data.List.Chain
import Mathlib.Tactic.SplitIfs
import SysY.FrontEnd

/-!
# What scanning yields

Two facts about everything that is found in a text, tokens and errors alike.
They come in the order of their lines, because a token begins where the scanner
is and the scanner only moves forward. And a literal that is found has a value:
a word of digits and letters without one is an error and no token.

Each is said of what one character does, and carried over a run.
-/

namespace SysY

open List

variable {s : Scan.State} {t : Located Token} {input : List Input.Item} {c : Char} {step : Scan.Step}
  {p : Position}

namespace Scan

/-! ## Literals -/

/-- If a token is a literal, it has a value. -/
def Valued : Token → Prop
  | .number text => ∃ n, Literal.value text.toList = .ok n
  | _ => True

theorem valued_ofWord (word : String) : Valued (Token.ofWord word) := by
  unfold Token.ofWord
  split <;> trivial

variable {text : String} {cs : List Char} {ts : List (Located Token)}

theorem valued_of_number {t : Token} (h : number text = .ok t) : Valued t := by
  unfold number at h
  split at h
  next n hn =>
    cases h
    exact ⟨n, hn⟩
  next => cases h

/-- What a function that may fail gives for a list: a result for each member. -/
theorem mapM_eq_some_iff {α β : Type} {f : α → Option β} {as : List α} {bs : List β} :
    as.mapM f = some bs ↔ Forall₂ (fun a b => f a = some b) as bs := by
  induction as generalizing bs with
  | nil => simp [eq_comm]
  | cons a as ih =>
    rw [mapM_cons, forall₂_cons_left_iff]
    simp [Option.bind_eq_some_iff, ih]
    grind

theorem utf8Size_of_digit? {radix n : Nat} (h : Literal.digit? radix c = some n) :
    c.utf8Size = 1 := by
  have hc : c.val ≤ UInt32.ofNat 0x7f := by
    unfold Literal.digit? at h
    have hsome := (Option.filter_eq_some_iff.1 h).1
    split_ifs at hsome with hdigit hlower hupper
    · exact UInt32.le_trans hdigit.2 (by decide)
    · exact UInt32.le_trans hlower.2 (by decide)
    · exact UInt32.le_trans hupper.2 (by decide)
  rw [Char.utf8Size]
  exact if_pos hc

theorem utf8Size_of_digits? {radix : Nat} {ns : List Nat}
    (h : Literal.digits? radix cs = some ns) : ∀ c ∈ cs, c.utf8Size = 1 := by
  intro c hc
  unfold Literal.digits? at h
  split at h
  next => cases h
  next =>
    obtain ⟨hlength, hdigits⟩ := forall₂_iff_get.1 (mapM_eq_some_iff.1 h)
    obtain ⟨i, hi, rfl⟩ := getElem_of_mem hc
    exact utf8Size_of_digit? (hdigits i hi (hlength ▸ hi))

/-- Two characters of one byte each end at the second byte. -/
theorem boundary_two (h : ∀ c ∈ cs.take 2, c.utf8Size = 1) : Literal.boundary 2 cs = true := by
  match cs with
  | [] => rfl
  | [a] | a :: b :: cs => simp_all [Literal.boundary]

/-- **The literals with a value can be decoded**: their characters are digits,
after the mark of the radix. -/
theorem boundary_of_value {n : Int32} (h : Literal.value cs = .ok n) :
    Literal.boundary 2 cs = true := by
  unfold Literal.value at h
  dsimp only at h
  split at h
  next => cases h
  next ds hdigits =>
    have hsizes := utf8Size_of_digits? hdigits
    refine boundary_two ?_
    unfold Literal.split at hsizes
    split at hsizes
    next x d ds =>
      split at hsizes
      next hx =>
        rcases hx with rfl | rfl <;>
          exact forall_mem_cons.2 ⟨rfl, forall_mem_singleton.2 rfl⟩
      next =>
        exact forall_mem_cons.2 ⟨rfl, fun c hc => hsizes c (mem_of_mem_take hc)⟩
    next d ds _ =>
      exact forall_mem_cons.2 ⟨rfl, fun c hc => hsizes c (mem_of_mem_take hc)⟩
    next => exact fun c hc => hsizes c (mem_of_mem_take hc)

/-- The same of the token that a step completes, if it completes one. -/
def Step.Valued : Step → Prop
  | .complete t => Scan.Valued t
  | _ => True

/-- The same of the token that a reaction yields, if it yields one. -/
def Reaction.Valued : Reaction → Prop
  | .take step => step.Valued
  | .endBefore t => Scan.Valued t

theorem begin_valued (c : Char) : (begin c).Valued := by
  unfold begin
  repeat' split
  all_goals trivial

/-- What a character yields in a mode. -/
theorem react_valued (c : Char) (m : Mode) : (m.react c).Valued := by
  cases m with
  | boundary => exact begin_valued c
  | number text =>
    rw [Mode.react]
    split
    · trivial
    · split
      next hnumber => exact valued_of_number hnumber
      next => trivial
  | word text =>
    rw [Mode.react]
    split
    · trivial
    · exact valued_ofWord text
  | skip | lineComment | blockComment => trivial
  | relational | doubled | slash =>
    rw [Mode.react]
    repeat' split
    all_goals trivial

theorem valued_of_close {m : Mode} {t : Token} (h : m.close = some (.ok t)) : Valued t := by
  cases m with
  | number text => exact valued_of_number (Option.some.inj h)
  | word text =>
    cases h
    exact valued_ofWord text
  | relational | slash =>
    cases h
    trivial
  | boundary | skip | lineComment | doubled | blockComment => cases h

namespace State

theorem valued_of_take (hstep : step.Valued) (h : .ok t ∈ (s.take c p step).2) :
    Valued t.value := by
  cases step with
  | shift => cases h
  | complete t' =>
    cases mem_singleton.1 h
    exact hstep
  | fail => cases mem_singleton.1 h

/-- **Every literal that is found has a value.** -/
theorem valued_of_run (h : .ok t ∈ s.run input) : Valued t.value := by
  induction input generalizing s with
  | nil =>
    rw [run, finish] at h
    split at h
    next => cases h
    next t' hclose =>
      cases mem_singleton.1 h
      exact valued_of_close hclose
    next => cases mem_singleton.1 h
  | cons i input ih =>
    rw [run, mem_append] at h
    refine h.elim (fun h => ?_) ih
    cases i with
    | unreadable => cases mem_singleton.1 h
    | char c p =>
      have hreact := react_valued c s.mode
      rw [feed] at h
      split at h
      next step heq =>
        rw [heq] at hreact
        exact valued_of_take hreact h
      next t' heq =>
        rw [heq] at hreact
        rcases mem_cons.1 h with h | h
        · cases h
          exact hreact
        · exact valued_of_take (begin_valued c) h

end State

/-! ## Lines -/

def Found.line : Found → Nat
  | .ok t => t.line
  | .error e => e.line

def lines (input : List Input.Item) : List Nat :=
  input.filterMap fun
    | .char _ p => some p.line
    | .unreadable => none

/-- The characters of a text come in the order of their lines. -/
theorem isChain_place (p : Position) (cs : List Char) :
    IsChain (· ≤ ·) (p.line :: lines (Input.place p cs)) := by
  induction cs generalizing p with
  | nil => exact .singleton _
  | cons c cs ih =>
    have hafter : p.line ≤ (p.after c).line := by
      unfold Position.after
      split
      · exact Nat.le_succ _
      · exact Nat.le_refl _
    exact .cons_cons (Nat.le_refl _) ((ih (p.after c)).imp_head (Nat.le_trans hafter))

namespace State

/-- What becomes of a character that is taken, is found where the pending token
began. -/
theorem take_cases (s : State) (c : Char) (p : Position) (step : Step) :
    (s.take c p step).1.start = s.start ∧
      ((s.take c p step).2.map Found.line = [] ∨
        (s.take c p step).2.map Found.line = [s.start.line]) := by
  cases step with
  | shift => exact ⟨rfl, .inl rfl⟩
  | complete | fail => exact ⟨rfl, .inr rfl⟩

/-- A step from `l` to the start of the pending token. -/
theorem isChain_take {l : Nat} {ls : List Nat} (hl : l ≤ s.start.line)
    (h : IsChain (· ≤ ·) ((s.take c p step).1.start.line :: ls)) :
    IsChain (· ≤ ·) (l :: ((s.take c p step).2.map Found.line ++ ls)) := by
  obtain ⟨hstart, hnone | hone⟩ := s.take_cases c p step
  · rw [hnone]
    exact (hstart ▸ h).imp_head (Nat.le_trans hl)
  · rw [hone]
    exact .cons_cons hl (hstart ▸ h)

/-- **What is found comes in the order of its lines.** -/
theorem isChain_run (h : IsChain (· ≤ ·) (s.start.line :: lines input)) :
    IsChain (· ≤ ·) (s.start.line :: (s.run input).map Found.line) := by
  induction input generalizing s with
  | nil =>
    rw [run, finish]
    split
    next => exact .singleton _
    all_goals exact .cons_cons (Nat.le_refl _) (.singleton _)
  | cons i input ih =>
    rw [run, map_append]
    cases i with
    | unreadable => exact .cons_cons (Nat.le_refl _) (ih (s := { s with mode := .skip }) h)
    | char c p =>
      obtain ⟨hp, hinput⟩ := isChain_cons_cons.1 h
      rw [feed]
      split
      next step _ =>
        -- the pending token begins here at a boundary, and where it did otherwise
        by_cases hmode : s.mode = Mode.boundary
        · rw [if_pos hmode]
          refine isChain_take hp (ih ?_)
          rwa [(take_cases ..).1]
        · rw [if_neg hmode]
          refine isChain_take (Nat.le_refl _) (ih ?_)
          rw [(take_cases ..).1]
          exact hinput.imp_head (Nat.le_trans hp)
      next t _ =>
        refine .cons_cons (Nat.le_refl _) (isChain_take hp (ih ?_))
        rwa [(take_cases ..).1]

end State

/-! ## Tokens of a text -/

/-- The tokens are all that is found, if there is no error. -/
theorem map_ok_of_tokens (h : tokens input = .ok ts) : items input = ts.map .ok := by
  unfold tokens at h
  dsimp only at h
  split at h
  next herrors =>
    cases h
    generalize items input = found at herrors
    induction found with
    | nil => rfl
    | cons f found ih =>
      cases f with
      | error e => cases herrors
      | ok t => exact congrArg (.ok t :: ·) (ih herrors)
  next => cases h

/-- **The tokens of a text come in the order of their lines.** -/
theorem isChain_tokens (h : tokens (Input.ofString text) = .ok ts) :
    IsChain (· ≤ ·) (Position.origin.line :: ts.map Located.line) := by
  have hrun : IsChain (· ≤ ·)
      (Position.origin.line :: (items (Input.ofString text)).map Found.line) :=
    State.isChain_run (s := {}) (isChain_place Position.origin text.toList)
  rw [map_ok_of_tokens h, map_map] at hrun
  exact hrun

/-- **The literals of a text have values.** -/
theorem valued_of_tokens (h : tokens (Input.ofString text) = .ok ts) (ht : t ∈ ts) :
    Valued t.value := by
  have hitems : .ok t ∈ items (Input.ofString text) := by
    rw [map_ok_of_tokens h]
    exact mem_map_of_mem ht
  exact State.valued_of_run hitems

end Scan

/-- What holds of the result of a computation, by evaluation. -/
theorem exists_ok_of_any {ε α : Type} {x : Except ε α} {P : α → Bool}
    (h : x.toOption.any P = true) : ∃ a, x = .ok a ∧ P a = true := by
  cases x with
  | error e => cases h
  | ok a => exact ⟨a, rfl, h⟩

/-- A program of a text is parsed from the tokens of the text. -/
theorem Program.ofText_ok {text : String} {p : Program} (h : Program.ofText text = .ok p) :
    ∃ tokens, Scan.tokens (Input.ofString text) = .ok tokens ∧ Program.parse tokens = .ok p := by
  unfold Program.ofText at h
  split at h
  next => cases h
  next tokens htokens =>
    split at h
    next => cases h
    next q hparse =>
      cases h
      exact ⟨tokens, htokens, hparse⟩

end SysY
