import Mathlib.Data.List.Chain
import SysY.Proofs.Grammar.Sound
import SysY.Proofs.Places

/-!
# Where what is parsed stands

The tokens of a text come in the order of their lines. A program that is parsed
has an exact outline on them, so that each of its nodes begins on the line of a
token that spells it. So the lines that can be named for a construct are lines of
its tokens (`Expr.places_subset` and the like), and since constructs one after the
other are spelled by tokens one after the other, the heads of a program stand one
after the other (`Program.spread_of_parse`).
-/

namespace SysY

open List Outline

namespace Parser

/-! ## Windows of lines -/

/-- Lines between two others. -/
def Within (lo : Nat) (ls : List Nat) (hi : Nat) : Prop := ∀ l ∈ ls, lo ≤ l ∧ l ≤ hi

theorem Within.mono {lo lo' hi hi' : Nat} {ls ls' : List Nat} (h : Within lo ls hi) (hlo : lo' ≤ lo)
    (hhi : hi ≤ hi') (hsub : ls' ⊆ ls) : Within lo' ls' hi' :=
  fun l hl => ⟨Nat.le_trans hlo (h l (hsub hl)).1, Nat.le_trans (h l (hsub hl)).2 hhi⟩

theorem Within.nil (lo hi : Nat) : Within lo [] hi := fun _ h => absurd h not_mem_nil

theorem within_cons {lo hi l : Nat} {ls : List Nat} :
    Within lo (l :: ls) hi ↔ (lo ≤ l ∧ l ≤ hi) ∧ Within lo ls hi := forall_mem_cons

/-- Groups of lines one after the other, between two lines. The lines of a group
may come in any order. -/
def Spread (lo : Nat) : List (List Nat) → Nat → Prop
  | [], hi => lo ≤ hi
  | h :: hs, hi => ∃ mid, lo ≤ mid ∧ Within lo h mid ∧ Spread mid hs hi

namespace Spread

variable {lo hi : Nat} {hs : List (List Nat)}

theorem le (h : Spread lo hs hi) : lo ≤ hi := by
  induction hs generalizing lo with
  | nil => exact h
  | cons g hs ih =>
    obtain ⟨mid, hmid, -, hrest⟩ := h
    exact Nat.le_trans hmid (ih hrest)

theorem within (h : Spread lo hs hi) : ∀ g ∈ hs, Within lo g hi := by
  induction hs generalizing lo with
  | nil => exact fun _ hg => absurd hg not_mem_nil
  | cons g hs ih =>
    obtain ⟨mid, hmid, hg, hrest⟩ := h
    refine forall_mem_cons.2 ⟨hg.mono (Nat.le_refl lo) hrest.le (List.Subset.refl g), ?_⟩
    intro g' hg'
    exact (ih hrest g' hg').mono hmid (Nat.le_refl hi) (List.Subset.refl g')

/-- Two lines come in order, unless they are of one group that is not. -/
theorem le_of_sublist {x y : Nat} (h : Spread lo hs hi)
    (hsorted : ∀ g ∈ hs, x ∈ g → y ∈ g → g.Pairwise (· ≤ ·)) (hxy : [x, y].Sublist hs.flatten) :
    x ≤ y := by
  induction hs generalizing lo with
  | nil => cases hxy
  | cons g hs ih =>
    obtain ⟨mid, -, hg, hrest⟩ := h
    rw [forall_mem_cons] at hsorted
    have hmem : ∀ z ∈ hs.flatten, mid ≤ z := by
      intro z hz
      obtain ⟨g', hg', hz⟩ := mem_flatten.1 hz
      exact (hrest.within g' hg' z hz).1
    obtain ⟨ls, ms, hsplit, hls, hms⟩ := sublist_append_iff.1 hxy
    match ls, ms, hsplit with
    | [], _, rfl => exact ih hrest hsorted.2 hms
    | [_], _, rfl =>
      exact Nat.le_trans (hg x (singleton_sublist.1 hls)).2
        (hmem y (singleton_sublist.1 hms))
    | [_, _], _, rfl =>
      have hpair := (hsorted.1 (hls.subset mem_cons_self)
        (hls.subset (mem_cons_of_mem _ mem_cons_self))).sublist hls
      exact (pairwise_cons.1 hpair).1 y mem_cons_self

end Spread

/-- Tokens in the order of their lines, from one line to another. -/
def InOrder (lo : Nat) (ts : List (Located Token)) (hi : Nat) : Prop :=
  IsChain (· ≤ ·) (lo :: (ts.map Located.line ++ [hi]))

namespace InOrder

variable {lo hi : Nat} {ts us : List (Located Token)}

theorem append (h : InOrder lo (ts ++ us) hi) : ∃ mid, InOrder lo ts mid ∧ InOrder mid us hi := by
  induction ts generalizing lo with
  | nil => exact ⟨lo, by simp [InOrder], h⟩
  | cons t ts ih =>
    obtain ⟨hle, hrest⟩ := isChain_cons_cons.1 h
    obtain ⟨mid, hts, hus⟩ := ih hrest
    exact ⟨mid, isChain_cons_cons.2 ⟨hle, hts⟩, hus⟩

theorem le (h : InOrder lo ts hi) : lo ≤ hi := by
  induction ts generalizing lo with
  | nil => exact (isChain_cons_cons.1 h).1
  | cons t ts ih =>
    obtain ⟨hle, hrest⟩ := isChain_cons_cons.1 h
    exact Nat.le_trans hle (ih hrest)

theorem within (h : InOrder lo ts hi) : Within lo (ts.map Located.line) hi := by
  induction ts generalizing lo with
  | nil => exact .nil lo hi
  | cons t ts ih =>
    obtain ⟨hle, hrest⟩ := isChain_cons_cons.1 h
    refine within_cons.2 ⟨⟨hle, InOrder.le hrest⟩, ?_⟩
    exact (ih hrest).mono hle (Nat.le_refl hi) (List.Subset.refl _)

theorem exists_of_isChain (h : IsChain (· ≤ ·) (lo :: ts.map Located.line)) :
    ∃ hi, InOrder lo ts hi := by
  induction ts generalizing lo with
  | nil => exact ⟨lo, isChain_cons_cons.2 ⟨Nat.le_refl lo, h⟩⟩
  | cons t ts ih =>
    obtain ⟨hle, hrest⟩ := isChain_cons_cons.1 h
    obtain ⟨hi, hhi⟩ := ih hrest
    exact ⟨hi, isChain_cons_cons.2 ⟨hle, hhi⟩⟩

end InOrder

end Parser

/-! ## Lines of outlines -/

namespace Outline

/-- The lines on which the nodes of an outline begin. -/
def lines : Outline → List Nat
  | nil => []
  | token _ rest => rest.lines
  | node n inner rest => n.span.line :: (inner.lines ++ rest.lines)

@[simp] theorem lines_append (a b : Outline) : (a ++ b).lines = a.lines ++ b.lines := by
  show (a.append b).lines = _
  induction a with
  | nil => rfl
  | token t rest ih => exact ih
  | node n inner rest _ ih => simp [append, lines, ih]

@[simp] theorem lines_single (t : Token) : (single t).lines = [] := rfl

@[simp] theorem lines_enclose (n : Node) (inner : Outline) :
    (enclose n inner).lines = n.span.line :: inner.lines := by
  simp [enclose, lines]

@[simp] theorem lines_leaf (n : Node) : (leaf n).lines = [n.span.line] := by
  rw [leaf, lines_enclose]
  induction n.spell with
  | nil => rfl
  | cons t ts ih => exact ih

theorem lines_after (t : Token) (os : List Outline) : (after t os).lines = os.flatMap lines := by
  induction os with
  | nil => rfl
  | cons o os ih => simp [after, lines, ih]

@[simp] theorem lines_list (close : Mark) (os : List Outline) :
    (list close os).lines = os.flatMap lines := by
  cases os with
  | nil => rfl
  | cons o os => simp [list, lines_after]

@[simp] theorem lines_subscripts (os : List Outline) :
    (subscripts os).lines = os.flatMap lines := by
  simp [subscripts, lines_after, flatMap_map]

/-- A node begins on the line of a token. -/
theorem Exact.lines_subset {o : Outline} {ts : List (Located Token)} (h : o.Exact ts) :
    o.lines ⊆ ts.map Located.line := by
  induction h with
  | nil => exact List.Subset.refl _
  | token t _ ih => exact subset_cons_of_subset _ ih
  | node hn _ _ hinner hrest =>
    obtain ⟨t, ht, hstart⟩ := hn.2.exists_first
    rw [map_append]
    refine cons_subset.2 ⟨mem_append_left _ ?_, ?_⟩
    · exact mem_map.2 ⟨t, ht, congrArg Position.line hstart⟩
    · exact append_subset.2 ⟨subset_append_of_subset_left _ hinner,
        subset_append_of_subset_right _ hrest⟩

/-- **Groups of lines along an outline**, each within a part of it. -/
inductive Along : Outline → List (List Nat) → Prop
  | nil (o : Outline) : Along o []
  | cons {a : Outline} {b g gs} (hg : g ⊆ a.lines) (hgs : Along b gs) : Along (a ++ b) (g :: gs)

namespace Along

variable {a b : Outline} {gs hs : List (List Nat)}

theorem append_left (h : Along b gs) (a : Outline) : Along (a ++ b) gs := by
  cases h with
  | nil => exact .nil _
  | @cons b c g gs hg hgs =>
    rw [← append_assoc]
    refine .cons ?_ hgs
    rw [lines_append]
    exact subset_append_of_subset_right _ hg

theorem append (ha : Along a gs) (hb : Along b hs) : Along (a ++ b) (gs ++ hs) := by
  induction ha with
  | nil o => exact hb.append_left o
  | cons hg _ ih =>
    rw [append_assoc]
    exact .cons hg ih

theorem single {g : List Nat} (hg : g ⊆ a.lines) : Along a [g] :=
  append_nil a ▸ .cons hg (.nil .nil)

variable {α : Type} {outline : α → Outline} {places : α → List Nat}

theorem after (h : ∀ x, places x ⊆ (outline x).lines) (t : Token) (xs : List α) :
    Along (.after t (xs.map outline)) (xs.map places) := by
  induction xs with
  | nil => exact .nil _
  | cons x xs ih => exact Along.cons (a := token t (outline x)) (h x) ih

theorem list (h : ∀ x, places x ⊆ (outline x).lines) (close : Mark) (xs : List α) :
    Along (.list close (xs.map outline)) (xs.map places) := by
  cases xs with
  | nil => exact .nil _
  | cons x xs =>
    have hrest := (after h (.mark .comma) xs).append (.nil (.single (.mark close)))
    rw [List.append_nil] at hrest
    exact .cons (h x) hrest

/-- **What stands along an exact outline stands along its tokens.** -/
theorem spread (h : Along a gs) {ts : List (Located Token)} (hexact : a.Exact ts) {lo hi : Nat}
    (horder : Parser.InOrder lo ts hi) : Parser.Spread lo gs hi := by
  induction h generalizing lo ts with
  | nil o => exact horder.le
  | cons hg _ ih =>
    obtain ⟨us, vs, rfl, ha, hb⟩ := hexact.of_append
    obtain ⟨mid, hus, hvs⟩ := horder.append
    exact ⟨mid, hus.le, hus.within.mono (Nat.le_refl lo) (Nat.le_refl mid)
      (List.Subset.trans hg ha.lines_subset), ih hb hvs⟩

end Along

end Outline

/-! ## Lines that can be named -/

theorem Expr.placesAll_subset {es : List Expr} (h : ∀ e ∈ es, e.places ⊆ e.outline.lines) :
    Expr.placesAll es ⊆ (Expr.outlines es).flatMap lines := by
  induction es with
  | nil => exact List.Subset.refl _
  | cons e es ih =>
    rw [forall_mem_cons] at h
    exact append_subset.2 ⟨subset_append_of_subset_left _ h.1,
      subset_append_of_subset_right _ (ih h.2)⟩

theorem Expr.span_mem_lines (e : Expr) : e.span.line ∈ e.outline.lines := by
  simp [Expr.outline, Node.span]

/-- **The lines that can be named for an expression are lines of its nodes.** -/
theorem Expr.places_subset (e : Expr) : e.places ⊆ e.outline.lines := by
  induction e using Expr.induction with
  | number => exact nil_subset _
  | lval span x is ih =>
    have := Expr.placesAll_subset ih
    simp only [Expr.places, Expr.outline, Expr.inner, Ident.outline, lines_enclose,
      lines_append, lines_leaf, lines_subscripts, Node.span]
    grind [Located.line]
  | call span f args ih =>
    have := Expr.placesAll_subset ih
    have hfirst : (args.head?.map (·.span.line)).getD span.line
        ∈ span.line :: (Expr.outlines args).flatMap lines := by
      cases args with
      | nil => exact mem_cons_self
      | cons e es => exact mem_cons_of_mem _ (mem_append_left _ e.span_mem_lines)
    simp only [Expr.places, Expr.outline, Expr.inner, Ident.outline, lines_enclose,
      lines_append, lines_leaf, lines_single, lines_list, Node.span]
    grind [Located.line, Expr.span]
  | unary span op e ih =>
    simp only [Expr.places, Expr.outline, Expr.inner, lines_enclose,
      lines_append, lines_leaf, Node.span] at ih ⊢
    grind [Located.line]
  | binary span op a b iha ihb =>
    simp only [Expr.places, Expr.outline, Expr.inner, lines_enclose,
      lines_append, lines_single, Node.span] at iha ihb ⊢
    grind [Expr.span]
  | paren span e ih =>
    simp only [Expr.places, Expr.outline, Expr.inner, lines_enclose,
      lines_append, lines_single, Node.span] at ih ⊢
    grind

theorem Expr.placesAll_subset_lines (es : List Expr) :
    Expr.placesAll es ⊆ (Expr.outlines es).flatMap lines :=
  Expr.placesAll_subset fun e _ => e.places_subset

theorem Cond.places_subset (c : Cond) : c.places ⊆ c.outline.lines := by
  induction c with
  | expr e =>
    have := e.places_subset
    simp only [Cond.places, Cond.outline, Cond.inner, lines_enclose, Node.span] at this ⊢
    grind
  | compare span op a b iha ihb | logic span op a b iha ihb =>
    simp only [Cond.outline, Cond.inner, lines_enclose, lines_append,
      lines_single, Node.span] at iha ihb ⊢
    grind [Cond.places]

theorem InitVal.places_subset (i : InitVal) : i.places ⊆ i.outline.lines := by
  induction i using InitVal.induction with
  | expr e =>
    rw [InitVal.places, InitVal.outline, lines_enclose]
    exact subset_cons_of_subset _ e.places_subset
  | list span items ih =>
    have hitems : InitVal.placesAll items ⊆ (InitVal.outlines items).flatMap lines := by
      induction items with
      | nil => exact List.Subset.refl _
      | cons i is ihs =>
        rw [forall_mem_cons] at ih
        exact append_subset.2 ⟨subset_append_of_subset_left _ ih.1,
          subset_append_of_subset_right _ (ihs ih.2)⟩
    simp only [InitVal.places, InitVal.outline, InitVal.inner, lines_enclose,
      lines_append, lines_single, lines_list]
    grind

theorem Definition.places_subset (d : Definition) : d.places ⊆ d.outline.lines := by
  obtain ⟨x, dims, init⟩ := d
  have hdims := Expr.placesAll_subset_lines dims
  cases init with
  | none =>
    simp only [Definition.places, Definition.outline, Ident.outline, lines_append,
      lines_leaf, lines_subscripts, Node.span, Option.map_none, Option.getD_none]
    grind [Located.line]
  | some i =>
    have hi := i.value.places_subset
    simp only [Definition.places, Definition.outline, Ident.outline, lines_append,
      lines_leaf, lines_subscripts, Node.span, Option.map_some, Option.getD_some,
      Initializer.places]
    grind [Located.line]

theorem Parameter.places_subset (p : Parameter) : p.places ⊆ p.outline.lines := by
  obtain ⟨x, array⟩ := p
  have hdims := Expr.placesAll_subset_lines (array.getD [])
  cases array <;>
    simp only [Parameter.places, Parameter.outline, Ident.outline, lines_append,
      lines_leaf, lines_single, lines_subscripts, Node.span,
      Option.getD_none, Option.getD_some] at hdims ⊢ <;>
    grind [Located.line, Expr.placesAll]

/-! ## Heads -/

theorem Decl.along (d : Decl) : d.outline.Along (d.definitions.map Definition.places) := by
  have hothers := (Outline.Along.after Definition.places_subset (.mark .comma) d.others).append
    (.nil (.single (.mark .semicolon)))
  rw [List.append_nil] at hothers
  exact ((Outline.Along.cons d.first.places_subset hothers).append_left _).append_left _

theorem Cond.places_subset_guard (w : Keyword) (c : Cond) :
    c.places ⊆ (c.outlineGuard w).lines := by
  simpa [Cond.outlineGuard] using c.places_subset

mutual

theorem Stmt.along : (s : Stmt) → s.outline.Along s.heads
  | .assign target mark value => by
    have htarget := Expr.placesAll_subset_lines target.indices
    have hvalue := value.places_subset
    rw [Stmt.heads]
    refine .single ?_
    simp only [Stmt.outline, LVal.outline, LVal.places, Ident.outline, lines_append,
      lines_enclose, lines_leaf, lines_subscripts, lines_single,
      Node.span]
    grind [Located.line]
  | .eval none | .break_ _ | .continue_ _ => by
    rw [Stmt.heads]
    exact .nil _
  | .eval (some e) => by
    rw [Stmt.heads]
    refine .single ?_
    simpa [Stmt.outline] using e.places_subset
  | .block b => by
    rw [Stmt.heads]
    exact b.along.append_left _
  | .if_ c s rest => by
    rw [Stmt.heads]
    exact .cons (c.places_subset_guard _) (s.along.append rest.along)
  | .while_ c s => by
    rw [Stmt.heads]
    exact .cons (c.places_subset_guard _) s.along
  | .return_ keyword none => by
    rw [Stmt.heads]
    refine .single ?_
    simp [Stmt.outline, Node.span]
  | .return_ keyword (some e) => by
    have he := e.places_subset
    have hspan := e.span_mem_lines
    rw [Stmt.heads]
    refine .single ?_
    simp only [Stmt.outline, lines_append, lines_leaf]
    grind

theorem Block.along : (b : Block) → b.outline.Along b.heads
  | .nil => .nil _
  | .decl d rest => by
    rw [Block.heads]
    exact d.along.append rest.along
  | .stmt s rest => by
    rw [Block.heads]
    exact s.along.append rest.along

theorem Otherwise.along : (o : Otherwise) → o.outline.Along o.heads
  | .done => .nil _
  | .else_ s => by
    rw [Otherwise.heads]
    exact s.along.append_left _
  | .elseIf c s rest => by
    rw [Otherwise.heads]
    exact Outline.Along.append_left
      (.cons (c.places_subset_guard _) (s.along.append rest.along)) _

end

theorem TopLevel.along (u : TopLevel) : u.outline.Along u.heads := by
  cases u with
  | decl d => exact d.along
  | function f =>
    have hbody := f.body.along.append_left (.single (.mark .openBrace))
    have hparams := (Outline.Along.list Parameter.places_subset .closeParen f.params).append hbody
    refine Outline.Along.append_left (.cons ?_ (hparams.append_left _)) _
    simp [Ident.outline, Node.span, Located.line]

/-- **The heads of a program stand along its outline.** -/
theorem Program.along (p : Program) : p.outline.Along p.heads := by
  obtain ⟨us⟩ := p
  induction us with
  | nil => exact .nil _
  | cons u us ih => exact u.along.append ih

/-- The heads of a program that is parsed from tokens in the order of their
lines stand one after the other. -/
theorem Program.spread_of_parse {tokens : List (Located Token)} {p : Program}
    (horder : IsChain (· ≤ ·) (Span.origin.line :: tokens.map Located.line))
    (h : Program.parse tokens = .ok p) : ∃ hi, Parser.Spread Span.origin.line p.heads hi := by
  obtain ⟨hi, hinOrder⟩ := Parser.InOrder.exists_of_isChain horder
  exact ⟨hi, p.along.spread (Program.exact_of_parse h) hinOrder⟩

end SysY
