import SysY.Proofs.Scan.Layout

/-!
# Printing tokens and scanning them again

Tokens that are written one after the other, with separators between them, are
laid out as these tokens, so that the scanner gives them back
(`tokens_print`). A separator begins with a blank, which no lexeme takes; what
comes after it does not matter.
-/

namespace SysY

open List

/-- **What may separate two tokens**: a blank, and then any fillers. -/
structure Separator where
  first : Char
  isBlank : Scan.isBlank first = true
  more : List Filler

def Separator.text (s : Separator) : List Char := s.first :: s.more.flatMap Filler.text

/-- **Tokens written in order**, with separators between them. -/
def Token.print (sep : Nat → Separator) : List Token → List Char
  | [] => []
  | [t] => t.spelling.toList
  | t :: u :: ts =>
    t.spelling.toList ++ ((sep 0).text ++ print (fun i => sep (i + 1)) (u :: ts))

variable {p : Position} {cs : List Char} {ts : List (Located Token)}

theorem Laid.fillers {fs : List Filler}
    (h : Laid (p.afterAll (fs.flatMap Filler.text)) cs ts) :
    Laid p (fs.flatMap Filler.text ++ cs) ts := by
  induction fs generalizing p with
  | nil => exact h
  | cons f fs ih =>
    rw [flatMap_cons, Position.afterAll_append] at h
    rw [flatMap_cons, append_assoc]
    exact .filler f (ih h)

theorem Laid.separator {s : Separator} (h : Laid (p.afterAll s.text) cs ts) :
    Laid p (s.text ++ cs) ts :=
  .filler (.blank s.first s.isBlank) (.fillers h)

/-- No lexeme takes a blank. -/
theorem Token.takes_of_isBlank {c : Char} (h : Scan.isBlank c = true) (t : Token) :
    t.takes c = false := by
  simp only [Scan.isBlank, Bool.or_eq_true, beq_iff_eq] at h
  unfold takes
  obtain (((rfl | rfl) | rfl) | rfl) | rfl := h <;> split <;> rfl

/-- **Printed tokens are laid out as these tokens.** -/
theorem Laid.print (sep : Nat → Separator) {ts : List Token} (h : ∀ t ∈ ts, t.Lexeme)
    (p : Position) :
    ∃ us : List (Located Token), us.map Located.value = ts ∧ Laid p (Token.print sep ts) us := by
  induction ts generalizing sep p with
  | nil => exact ⟨[], rfl, .nil p⟩
  | cons t ts ih =>
    obtain ⟨ht, hts⟩ := forall_mem_cons.1 h
    cases ts with
    | nil =>
      have hlaid := Laid.token ht (p := p) (fun c hc => by cases hc) (.nil _)
      rw [append_nil] at hlaid
      exact ⟨_, rfl, hlaid⟩
    | cons u ts =>
      obtain ⟨us, hus, hlaid⟩ := ih (fun i => sep (i + 1)) hts
        ((p.afterAll t.spelling.toList).afterAll (sep 0).text)
      refine ⟨⟨t, p, p.afterAll t.spelling.toList⟩ :: us, congrArg (t :: ·) hus,
        .token ht (fun c hc => ?_) hlaid.separator⟩
      cases hc
      exact t.takes_of_isBlank (sep 0).isBlank

namespace Scan

/-- **Printing tokens and scanning them again is the identity.** -/
theorem tokens_print (sep : Nat → Separator) {ts : List Token} (h : ∀ t ∈ ts, t.Lexeme) :
    (tokens (Input.ofString (String.ofList (Token.print sep ts)))).map (List.map Located.value)
      = .ok ts := by
  obtain ⟨us, rfl, hlaid⟩ := Laid.print sep h Position.origin
  rw [← String.toList_ofList (l := Token.print _ _)] at hlaid
  rw [tokens_of_laid hlaid]
  rfl

/-- Marks that would begin a comment or a longer mark without the separators,
which hold comments themselves. -/
theorem tokens_print_comments :
    (∀ t ∈ [Token.mark .slash, .mark .times, .mark .assign, .mark .equal, .number "0x1F",
        .ident "int_", .keyword .int], t.Lexeme) ∧
      (tokens (Input.ofString (String.ofList (Token.print
          (fun _ => ⟨'\t', rfl,
            [.block ['/', '/', '*', ' ', '*'] (by decide), .line ['/', '*'] (by decide)]⟩)
          [.mark .slash, .mark .times, .mark .assign, .mark .equal, .number "0x1F",
            .ident "int_", .keyword .int])))).map (List.map Located.value)
        = .ok [.mark .slash, .mark .times, .mark .assign, .mark .equal, .number "0x1F",
            .ident "int_", .keyword .int] :=
  have hident : (Token.ident "int_").Lexeme := ⟨rfl, fun k => by cases k <;> decide⟩
  have hnumber : (Token.number "0x1F").Lexeme := ⟨rfl, 31, rfl⟩
  have hlexemes := by
    simp only [List.forall_mem_cons, List.not_mem_nil, false_implies, implies_true, and_true]
    exact ⟨trivial, trivial, trivial, trivial, hnumber, hident, trivial⟩
  ⟨hlexemes, tokens_print _ hlexemes⟩

end Scan

end SysY
