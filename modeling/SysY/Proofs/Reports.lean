import Mathlib.Data.List.Destutter
import SysY.FrontEnd
import SysY.Proofs.Grammar.Lines
import SysY.Proofs.Scan

/-!
# What is reported of a line

What is reported are the findings without those that repeat the line of the
latest one reported. So a line is reported again only if another one is
reported in between. In a program that is read from a text this takes a head
that names the line and names lines in another order than that of the text, as
an assignment does whose value stands below its `=`.
-/

namespace SysY

open List

/-! ## Reports -/

namespace Finding

/-- Findings on different lines. -/
abbrev Apart (f g : Finding) : Prop := f.line ≠ g.line

theorem destutter'_eq (f : Finding) (fs : List Finding) :
    fs.destutter' Apart f = f :: reportedAfter (some f) fs := by
  induction fs generalizing f with
  | nil => rfl
  | cons g fs ih =>
    rw [reportedAfter]
    by_cases h : f.line = g.line
    · have hcovered : coveredBy (some f) g = some f := by simp [coveredBy, h]
      rw [hcovered, destutter'_cons_neg _ (not_not.2 h), ih]
    · have hcovered : coveredBy (some f) g = none := by simp [coveredBy, h]
      rw [hcovered, destutter'_cons_pos _ h, ih]

/-- **What is reported** are the findings without those on the line of the
latest one that was kept. -/
theorem reported_eq_destutter (fs : List Finding) : reported fs = fs.destutter Apart := by
  cases fs with
  | nil => rfl
  | cons f fs => rw [destutter_cons', destutter'_eq, reported, reportedAfter]; rfl

/-- The first finding on a line is the first one reported there, unless the
latest one reported before is on this line. -/
theorem find?_reportedAfter {latest : Option Finding} {line : Nat}
    (h : ∀ f ∈ latest, f.line ≠ line) (fs : List Finding) :
    (reportedAfter latest fs).find? (·.line = line) = fs.find? (·.line = line) := by
  induction fs generalizing latest with
  | nil => rfl
  | cons f fs ih =>
    rw [reportedAfter]
    split
    next g hg =>
      -- a covered finding is on the line of the latest one, so it is not the one looked for
      obtain ⟨hlatest, hline⟩ := Option.filter_eq_some_iff.1 hg
      have hf : f.line ≠ line := of_decide_eq_true hline ▸ h g hlatest
      rw [find?_cons_of_neg (by simpa using hf), ih h]
    next =>
      by_cases hf : f.line = line
      · rw [find?_cons_of_pos (by simpa using hf), find?_cons_of_pos (by simpa using hf)]
      · rw [find?_cons_of_neg (by simpa using hf), find?_cons_of_neg (by simpa using hf)]
        exact ih fun g hg => Option.some.inj hg ▸ hf

/-- No line is reported twice in a row. -/
theorem isChain_lines_reported (fs : List Finding) :
    (Finding.lines (reported fs)).IsChain (· ≠ ·) := by
  rw [reported_eq_destutter]
  exact (isChain_map _).2 (fs.isChain_destutter Apart)

theorem lines_reported_sublist (fs : List Finding) :
    (Finding.lines (reported fs)).Sublist (Finding.lines fs) := by
  rw [reported_eq_destutter]
  exact (fs.destutter_sublist Apart).map _

end Finding

/-! ## Lines that are reported once -/

/-- What does not come twice in a row, nor with something else in between, comes
once. -/
theorem count_le_one_of_isChain {l : Nat} {ls : List Nat} (hne : ls.IsChain (· ≠ ·))
    (hbetween : ∀ m, [l, m, l].Sublist ls → m = l) : ls.count l ≤ 1 := by
  induction ls with
  | nil => exact Nat.zero_le 1
  | cons x xs ih =>
    by_cases hx : x = l
    · subst hx
      have hxs : x ∉ xs := by
        intro hmem
        cases xs with
        | nil => exact absurd hmem not_mem_nil
        | cons y ys =>
          have hy : x ≠ y := (isChain_cons_cons.1 hne).1
          have hys : x ∈ ys := (mem_cons.1 hmem).resolve_left hy
          exact hy (hbetween y (((singleton_sublist.2 hys).cons_cons y).cons_cons x)).symm
      rw [count_cons_self, count_eq_zero_of_not_mem hxs]
    · rw [count_cons_of_ne hx]
      exact ih hne.tail fun m hm => hbetween m (hm.cons x)

/-- The heads of a program that is read from a text stand one after the
other. -/
theorem Program.spread_of_ofText {text : String} {p : Program} (h : Program.ofText text = .ok p) :
    ∃ hi, Parser.Spread Span.origin.line p.heads hi := by
  obtain ⟨tokens, htokens, hparse⟩ := Program.ofText_ok h
  exact Program.spread_of_parse (Scan.isChain_tokens htokens) hparse

/-- What holds of the program of a text, by evaluation. -/
theorem Program.exists_ofText {text : String} {P : Program → Prop} [DecidablePred P]
    (h : (Program.ofText text).toOption.any (P ·) = true) :
    ∃ p, Program.ofText text = .ok p ∧ P p := by
  obtain ⟨p, htext, hp⟩ := exists_ok_of_any h
  exact ⟨p, htext, of_decide_eq_true hp⟩

/-- **One error for each line.** An error is reported unless the latest one
reported is on its line, and so the first error on each line is. In a program
that is read from a text, a line is reported at most once if the heads that
name it name their lines in order, in particular if each of them stands on one
line; whatever is reported on other lines in between. -/
theorem Program.errors_once_per_line (p : Program) :
    p.check.errors = p.findings.destutter Finding.Apart ∧
    (∀ line, p.check.errors.find? (·.line = line) = p.findings.find? (·.line = line)) ∧
    ∀ text, Program.ofText text = .ok p → ∀ line,
      (∀ head ∈ p.heads, line ∈ head → head.Pairwise (· ≤ ·)) →
        (p.check.errors.map (·.line)).count line ≤ 1 := by
  refine ⟨Finding.reported_eq_destutter _, fun line => ?_, fun text htext line hsorted => ?_⟩
  · exact Finding.find?_reportedAfter (fun _ h => by cases h) _
  · obtain ⟨hi, hspread⟩ := Program.spread_of_ofText htext
    have hsub := (Finding.lines_reported_sublist p.findings).trans p.lines_findings
    refine count_le_one_of_isChain (Finding.isChain_lines_reported _) fun m hm => ?_
    -- a line between two reports of this one is neither below nor above it
    have hm := hm.trans hsub
    refine Nat.le_antisymm ?_ ?_
    · refine hspread.le_of_sublist (fun head hhead _ hline => hsorted head hhead hline) ?_
      exact (List.sublist_cons_self line [m, line]).trans hm
    · refine hspread.le_of_sublist (fun head hhead hline _ => hsorted head hhead hline) ?_
      exact (List.sublist_append_left [line, m] [line]).trans hm

/-- Line 2 of this program is reported twice, line 4 once: the heads that name
it are in order. -/
theorem Program.errors_once_per_line_below :
    ∃ p, Program.ofText "int main() \x7b\n  a =\n  b;\n  c = d; e = f;\n  return 0;\n\x7d" = .ok p ∧
      p.findings.map (·.line) = [2, 3, 2, 4, 4, 4, 4, 4, 4] ∧
      (∀ head ∈ p.heads, 4 ∈ head → head.Pairwise (· ≤ ·)) ∧
      p.check.errors = p.findings.destutter Finding.Apart ∧
      (p.check.errors.map (·.line)).count 4 ≤ 1 := by
  obtain ⟨p, htext, hfindings, hsorted⟩ :
      ∃ p, Program.ofText "int main() \x7b\n  a =\n  b;\n  c = d; e = f;\n  return 0;\n\x7d" = .ok p ∧
        p.findings.map (·.line) = [2, 3, 2, 4, 4, 4, 4, 4, 4] ∧
        ∀ head ∈ p.heads, 4 ∈ head → head.Pairwise (· ≤ ·) :=
    Program.exists_ofText (by decide +kernel)
  obtain ⟨hreported, -, honce⟩ := p.errors_once_per_line
  exact ⟨p, htext, hfindings, hsorted, hreported, honce _ htext 4 hsorted⟩

/-- A line can be reported twice: here the value of an assignment stands below
its `=`, which is judged after it. -/
theorem Program.exists_line_reported_twice :
    ∃ p, Program.ofText "int main() \x7b\n  a =\n  b;\n  return 0;\n\x7d" = .ok p ∧
      p.check.errors = [⟨.varNotDeclared, 2⟩, ⟨.varNotDeclared, 3⟩, ⟨.assignMismatch, 2⟩] ∧
      ¬ (p.check.errors.map (·.line)).Nodup :=
  Program.exists_ofText (by decide +kernel)

end SysY
