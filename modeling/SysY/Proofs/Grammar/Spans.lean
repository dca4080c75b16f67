import SysY.Proofs.Grammar.Sound
import SysY.Proofs.Scan.Lossless

/-!
# Nodes stand exactly where their tokens stand

The span of a node is put together from what a rule of the grammar sees: the token
that comes next, the latest one taken, or the spans of two operands.
`Program.nodes_exact` says that this makes no difference. Each node of a program
that is parsed stands from the first to the last of the tokens that spell it, and
these are a stretch of the input.

So where the tokens stand one after the other, as those of a text do
(`Scan.increasing_tokens`), a node lies in the one that encloses it, and nodes side
by side do not overlap.
-/

namespace SysY

open List

/-! ## Spans one after the other -/

namespace Position

/-- Positions one after the other. -/
theorem not_before_trans {p q r : Position} (hqp : q.before p = false) (hrq : r.before q = false) :
    r.before p = false := by
  simp only [Bool.eq_false_iff, ne_eq, before_iff] at hqp hrq ⊢
  omega

end Position

namespace Span

/-- The second span does not begin before the first one ends. -/
def Precedes (s s' : Span) : Prop := s'.start.before s.stop = false

/-- A span within another one. -/
def Inside (s outer : Span) : Prop :=
  s.start.before outer.start = false ∧ outer.stop.before s.stop = false

namespace Covers

variable {s : Span} {ts : List (Located Token)}

theorem ne_nil (h : s.Covers ts) : ts ≠ [] := by
  rintro rfl
  cases h.1

theorem exists_last (h : s.Covers ts) : ∃ t ∈ ts, t.span.stop = s.stop := by
  obtain ⟨t, ht, hstop⟩ := Option.map_eq_some_iff.1 h.2
  exact ⟨t, mem_of_getLast? ht, hstop⟩

end Covers

end Span

/-- **Tokens one after the other**: none ends before it begins, and none begins
before those in front of it end. -/
def Increasing (ts : List (Located Token)) : Prop :=
  (ts.Pairwise fun t u => t.span.Precedes u.span) ∧
    ∀ t ∈ ts, t.span.stop.before t.span.start = false

namespace Increasing

variable {ts us : List (Located Token)} {s s' : Span}

theorem sublist (h : Increasing ts) (hsub : us.Sublist ts) : Increasing us :=
  ⟨h.1.sublist hsub, fun t ht => h.2 t (hsub.subset ht)⟩

/-- Tokens lie in the span that covers them. -/
theorem inside_of_mem (h : Increasing ts) (hs : s.Covers ts) {t : Located Token} (ht : t ∈ ts) :
    t.span.Inside s := by
  refine ⟨?_, ?_⟩
  · cases ts with
    | nil => cases ht
    | cons first ts =>
      have hstart : first.span.start = s.start := Option.some.inj hs.1
      obtain rfl | ht := mem_cons.1 ht
      · rw [hstart]
        exact Position.before_self _
      · rw [← hstart]
        exact Position.not_before_trans (h.2 first mem_cons_self)
          ((pairwise_cons.1 h.1).1 t ht)
  · obtain ⟨ts, last, rfl⟩ := ts.eq_nil_or_concat'.resolve_left hs.ne_nil
    have hstop : last.span.stop = s.stop := by
      have := hs.2
      rw [getLast?_append] at this
      exact Option.some.inj this
    obtain ht | ht := mem_append.1 ht
    · rw [← hstop]
      exact Position.not_before_trans
        ((pairwise_append.1 h.1).2.2 t ht last (mem_singleton_self _))
        (h.2 last (mem_append_right _ (mem_singleton_self _)))
    · rw [mem_singleton.1 ht, hstop]
      exact Position.before_self _

/-- The span of some of the tokens that another span covers. -/
theorem inside (h : Increasing ts) (hs : s.Covers ts) (hs' : s'.Covers us) (hsub : us ⊆ ts) :
    s'.Inside s := by
  obtain ⟨t, ht, hstart⟩ := hs'.exists_first
  obtain ⟨u, hu, hstop⟩ := hs'.exists_last
  exact ⟨hstart ▸ (h.inside_of_mem hs (hsub ht)).1, hstop ▸ (h.inside_of_mem hs (hsub hu)).2⟩

/-- Spans of tokens one after the other. -/
theorem precedes (h : Increasing (ts ++ us)) (hs : s.Covers ts) (hs' : s'.Covers us) :
    s.Precedes s' := by
  obtain ⟨t, ht, hstop⟩ := hs.exists_last
  obtain ⟨u, hu, hstart⟩ := hs'.exists_first
  have := (pairwise_append.1 h.1).2.2 t ht u hu
  rwa [Span.Precedes, hstop, hstart] at this

end Increasing

/-! ## The nodes of an outline -/

namespace Outline

/-- A node of an outline, with the number of tokens in front of it and what it
encloses. -/
structure Occurrence where
  /-- How many tokens stand in front of it. -/
  first : Nat
  node : Node
  inner : Outline

/-- **All nodes of an outline**, in front of which some tokens stand. -/
def nodes (k : Nat) : Outline → List Occurrence
  | nil => []
  | token _ rest => rest.nodes (k + 1)
  | node n inner rest =>
    ⟨k, n, inner⟩ :: (inner.nodes k ++ rest.nodes (k + inner.tokens.length))

/-- The nodes of an outline that no other one encloses. -/
def roots : Outline → List Node
  | nil => []
  | token _ rest => rest.roots
  | node n _ rest => n :: rest.roots

namespace Exact

variable {o : Outline} {ts : List (Located Token)}

/-- **The tokens of a node are a stretch of all tokens**, as many tokens after the
first one as stand in front of the node. -/
theorem exists_of_mem_nodes (h : o.Exact ts) {k : Nat} {m : Occurrence} (hm : m ∈ o.nodes k) :
    ∃ front seg back, ts = front ++ (seg ++ back) ∧ m.first = k + front.length ∧
      m.node.Exact seg ∧ m.inner.Exact seg := by
  induction h generalizing k with
  | nil => cases hm
  | token t _ ih =>
    obtain ⟨front, seg, back, rfl, hfirst, hexact⟩ := ih hm
    refine ⟨t :: front, seg, back, rfl, ?_, hexact⟩
    rw [hfirst, length_cons, Nat.add_right_comm, Nat.add_assoc]
  | @node n inner rest seg0 us hn hinner hrest ihinner ihrest =>
    obtain rfl | hm := mem_cons.1 hm
    · exact ⟨[], seg0, us, rfl, rfl, hn, hinner⟩
    obtain hm | hm := mem_append.1 hm
    · obtain ⟨front, seg, back, rfl, hfirst, hexact⟩ := ihinner hm
      exact ⟨front, seg, back ++ us, by simp, hfirst, hexact⟩
    · obtain ⟨front, seg, back, rfl, hfirst, hexact⟩ := ihrest hm
      refine ⟨seg0 ++ front, seg, back, by simp, ?_, hexact⟩
      rw [hfirst, ← hinner.map_value, length_map, length_append, Nat.add_assoc]

theorem covers_of_mem_roots (h : o.Exact ts) {n : Node} (hn : n ∈ o.roots) :
    ∃ seg, seg.Sublist ts ∧ n.span.Covers seg := by
  induction h with
  | nil => cases hn
  | token t _ ih =>
    obtain ⟨seg, hsub, hseg⟩ := ih hn
    exact ⟨seg, hsub.cons t, hseg⟩
  | @node m inner rest seg0 us hm _ _ _ ih =>
    obtain rfl | hn := mem_cons.1 hn
    · exact ⟨seg0, sublist_append_left _ _, hm.2⟩
    · obtain ⟨seg, hsub, hseg⟩ := ih hn
      exact ⟨seg, hsub.trans (sublist_append_right _ _), hseg⟩

/-- **Nodes side by side do not overlap.** -/
theorem pairwise_roots (h : o.Exact ts) (horder : Increasing ts) :
    o.roots.Pairwise fun n m => n.span.Precedes m.span := by
  induction h with
  | nil => exact .nil
  | token t _ ih => exact ih (horder.sublist (sublist_cons_self _ _))
  | @node n inner rest seg us hn _ hrest _ ih =>
    refine .cons (fun m hm => ?_) (ih (horder.sublist (sublist_append_right _ _)))
    obtain ⟨seg', hsub, hseg'⟩ := hrest.covers_of_mem_roots hm
    exact (horder.sublist (hsub.append_left seg)).precedes hn.2 hseg'

/-- **A node lies in the one that encloses it.** -/
theorem inside_of_mem_roots {n m : Node} (h : o.Exact ts) (hn : n.Exact ts)
    (horder : Increasing ts) (hm : m ∈ o.roots) : m.span.Inside n.span := by
  obtain ⟨seg, hsub, hseg⟩ := h.covers_of_mem_roots hm
  exact horder.inside hn.2 hseg hsub.subset

end Exact

end Outline

/-! ## Parsed programs -/

/-- The tokens of a text stand one after the other. -/
theorem Scan.increasing_tokens {text : String} {ts : List (Located Token)}
    (h : tokens (Input.ofString text) = .ok ts) : Increasing ts := by
  have hlaid : Laid Position.origin text.toList ts := laid_of_scanFrom (map_ok_of_tokens h)
  refine ⟨hlaid.pairwise, fun t ht => ?_⟩
  obtain ⟨pre, post, -, -, -, hspan⟩ := hlaid.exists_of_mem ht
  rw [hspan, Position.afterAll_append]
  exact Position.afterAll_not_before _ _

/-- **Nodes stand exactly where their tokens stand.** The outline of a program that
is parsed has all tokens. The tokens of each node are a stretch of them, as far
from the front as the outline says, which spells the node, and the node stands
from the start of the first to the end of the last. Where the tokens stand one
after the other, a node lies in the one around it, and nodes side by side do not
overlap. -/
theorem Program.nodes_exact {tokens : List (Located Token)} {p : Program}
    (h : Program.parse tokens = .ok p) :
    p.outline.tokens = tokens.map (·.value) ∧
      (∀ m ∈ p.outline.nodes 0, ∃ front seg back, tokens = front ++ (seg ++ back) ∧
        front.length = m.first ∧ seg.map (·.value) = m.node.spell ∧ m.node.span.Covers seg) ∧
      (Increasing tokens →
        (p.outline.roots.Pairwise fun n n' => n.span.Precedes n'.span) ∧
        ∀ m ∈ p.outline.nodes 0, (∀ n ∈ m.inner.roots, n.span.Inside m.node.span) ∧
          m.inner.roots.Pairwise fun n n' => n.span.Precedes n'.span) := by
  have hexact := Program.exact_of_parse h
  refine ⟨hexact.map_value.symm, fun m hm => ?_, fun horder => ?_⟩
  · obtain ⟨front, seg, back, htokens, hfirst, hnode, -⟩ := hexact.exists_of_mem_nodes hm
    exact ⟨front, seg, back, htokens, by rw [hfirst, Nat.zero_add], hnode⟩
  · refine ⟨hexact.pairwise_roots horder, fun m hm => ?_⟩
    obtain ⟨front, seg, back, rfl, -, hnode, hinner⟩ := hexact.exists_of_mem_nodes hm
    have hseg : Increasing seg := horder.sublist
      ((List.sublist_append_left seg back).trans (List.sublist_append_right front _))
    exact ⟨fun n hn => hinner.inside_of_mem_roots hnode hseg hn, hinner.pairwise_roots hseg⟩

/-- Nodes of every kind, on several lines and with a comment between tokens:
among them an empty list in a list, an operator before a parenthesis, and conditions
that are single expressions. -/
theorem Program.nodes_exact_nested :
    ∃ tokens p, Program.parse tokens = .ok p ∧ Increasing tokens ∧
      (p.outline.nodes 0).length = 45 ∧ p.outline.tokens = tokens.map (·.value) ∧
      ∀ m ∈ p.outline.nodes 0, (∃ front seg back, tokens = front ++ (seg ++ back) ∧
        front.length = m.first ∧ seg.map (·.value) = m.node.spell ∧ m.node.span.Covers seg) ∧
        ∀ n ∈ m.inner.roots, n.span.Inside m.node.span := by
  have hsample : (Program.ofText ("int x[2] = \x7b-(1 + 2), \x7b\x7d\x7d;\nint f(int a[]) \x7b\n" ++
      "  if (!a[0] < 1 && x[1]) a[0] = f(a) * 2; // twice\n  else return x[0];\n" ++
      "  while (1) break;\n\x7d\n")).toOption.any
        (fun p => (p.outline.nodes 0).length == 45) = true := by
    decide +kernel
  obtain ⟨p, htext, hcount⟩ := exists_ok_of_any hsample
  obtain ⟨tokens, htokens, hparse⟩ := Program.ofText_ok htext
  have horder := Scan.increasing_tokens htokens
  obtain ⟨hall, hnodes, hnested⟩ := Program.nodes_exact hparse
  exact ⟨tokens, p, hparse, horder, eq_of_beq hcount, hall,
    fun m hm => ⟨hnodes m hm, ((hnested horder).2 m hm).1⟩⟩

end SysY
