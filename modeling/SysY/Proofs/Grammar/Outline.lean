import SysY.Proofs.Grammar.Spell

/-!
# Outlines: where the nodes of a tree stand

A tree keeps the places of some of its parts: of expressions, conditions, targets,
initial values and names, of the operators before an operand, and of the `=` and
the keywords that a diagnostic may point at. Each such part is a `Node`.

An `Outline` is a tree as its tokens, in which every node encloses the tokens that
spell it. It is `Exact` on a list of located tokens if it has these tokens, and
each node's span begins where the first token that it encloses begins and ends
where the last one ends. What follows from that where the tokens stand one after
the other is a matter of outlines alone: a node lies in the one around it, and
nodes side by side do not overlap.
-/

namespace SysY

open List

/-! ## Spans of tokens -/

namespace Span

/-- A span from the start of the first of some tokens to the end of the last. -/
def Covers (s : Span) (ts : List (Located Token)) : Prop :=
  ts.head?.map (·.span.start) = some s.start ∧ ts.getLast?.map (·.span.stop) = some s.stop

namespace Covers

variable {s s' : Span} {ts us : List (Located Token)}

theorem single (t : Located Token) : t.span.Covers [t] := ⟨rfl, rfl⟩

theorem exists_first (h : s.Covers ts) : ∃ t ∈ ts, t.span.start = s.start := by
  obtain ⟨t, ht, hstart⟩ := Option.map_eq_some_iff.1 h.1
  exact ⟨t, mem_of_head? ht, hstart⟩

/-- From the start of one stretch of tokens to the end of a later one. -/
theorem join (h : s.Covers ts) (h' : s'.Covers us) (mid : List (Located Token)) :
    (s.join s').Covers (ts ++ (mid ++ us)) := by
  obtain ⟨t, ht, hstart⟩ := Option.map_eq_some_iff.1 h.1
  obtain ⟨u, hu, hstop⟩ := Option.map_eq_some_iff.1 h'.2
  refine ⟨?_, ?_⟩
  · rw [head?_append, ht]
    exact congrArg some hstart
  · rw [getLast?_append, getLast?_append, hu]
    exact congrArg some hstop

end Covers

end Span

/-! ## Nodes and outlines -/

/-- **The parts of a tree that know where they stand.** -/
inductive Node where
  | expr (e : Expr)
  | cond (c : Cond)
  | target (l : LVal)
  | initVal (i : InitVal)
  | ident (x : Ident)
  | unaryOp (op : Located UnaryOp)
  /-- The `=` of an assignment or of an initial value. -/
  | assignMark (span : Span)
  /-- The keyword of a jump. -/
  | keyword (w : Keyword) (span : Span)

namespace Node

/-- Where a node stands. -/
def span : Node → Span
  | expr e => e.span
  | cond c => c.span
  | target l => l.span
  | initVal i => i.span
  | ident x => x.span
  | unaryOp op => op.span
  | assignMark s | keyword _ s => s

/-- A node as tokens. -/
def spell : Node → List Token
  | expr e => e.spell
  | cond c => c.spell
  | target l => l.spell
  | initVal i => i.spell
  | ident x => [.ident x.value]
  | unaryOp op => [op.value.token]
  | assignMark _ => [.mark .assign]
  | keyword w _ => [.keyword w]

/-- Tokens that spell a node, and from the first to the last of which it stands. -/
def Exact (n : Node) (ts : List (Located Token)) : Prop :=
  ts.map (·.value) = n.spell ∧ n.span.Covers ts

end Node

/-- **Tokens in which nodes enclose what spells them.** -/
inductive Outline where
  | nil
  | token (t : Token) (rest : Outline)
  /-- A node, what it encloses, and what follows it. -/
  | node (n : Node) (inner rest : Outline)

variable {n : Node} {t : Located Token}

namespace Outline

/-- An outline and another one after it. -/
def append : Outline → Outline → Outline
  | nil, b => b
  | token t rest, b => token t (rest.append b)
  | node n inner rest, b => node n inner (rest.append b)

instance : Append Outline := ⟨append⟩

/-- The tokens of an outline. -/
def tokens : Outline → List Token
  | nil => []
  | token t rest => t :: rest.tokens
  | node _ inner rest => inner.tokens ++ rest.tokens

def single (t : Token) : Outline := token t nil

/-- A single node. -/
def enclose (n : Node) (inner : Outline) : Outline := node n inner nil

/-- A node that encloses no other. -/
def leaf (n : Node) : Outline := enclose n (n.spell.foldr token nil)

/-- Outlines each of which follows a token. -/
def after (t : Token) : List Outline → Outline
  | [] => nil
  | o :: os => token t (o ++ after t os)

/-- Outlines separated by commas, and the mark that closes the list. -/
def list (close : Mark) : List Outline → Outline
  | [] => single (.mark close)
  | o :: os => o ++ (after (.mark .comma) os ++ single (.mark close))

/-- Outlines in brackets. -/
def subscripts (os : List Outline) : Outline :=
  after (.mark .openBracket) (os.map (· ++ single (.mark .closeBracket)))

theorem append_assoc (a b c : Outline) : a ++ b ++ c = a ++ (b ++ c) := by
  show (a.append b).append c = a.append (b.append c)
  induction a with
  | nil => rfl
  | token t rest ih => exact congrArg (token t) ih
  | node n inner rest _ ih => exact congrArg (node n inner) ih

@[simp] theorem append_nil (a : Outline) : a ++ nil = a := by
  show a.append nil = a
  induction a with
  | nil => rfl
  | token t rest ih => exact congrArg (token t) ih
  | node n inner rest _ ih => exact congrArg (node n inner) ih

@[simp] theorem tokens_append (a b : Outline) : (a ++ b).tokens = a.tokens ++ b.tokens := by
  show (a.append b).tokens = _
  induction a with
  | nil => rfl
  | token t rest ih | node n inner rest _ ih => simp [append, tokens, ih]

@[simp] theorem tokens_single (t : Token) : (single t).tokens = [t] := rfl

@[simp] theorem tokens_enclose (n : Node) (inner : Outline) :
    (enclose n inner).tokens = inner.tokens := List.append_nil _

@[simp] theorem tokens_leaf (n : Node) : (leaf n).tokens = n.spell := by
  rw [leaf, tokens_enclose]
  induction n.spell with
  | nil => rfl
  | cons t ts ih => exact congrArg (t :: ·) ih

theorem tokens_after (t : Token) (os : List Outline) :
    (after t os).tokens = os.flatMap (t :: ·.tokens) := by
  induction os with
  | nil => rfl
  | cons o os ih => simp [after, tokens, ih]

@[simp] theorem tokens_list (close : Mark) (os : List Outline) :
    (list close os).tokens = spellList close (os.map tokens) := by
  cases os with
  | nil => rfl
  | cons o os => simp [list, spellList, tokens_after, flatMap_map]

@[simp] theorem tokens_subscripts (os : List Outline) :
    (subscripts os).tokens = spellSubscripts (os.map tokens) := by
  simp [subscripts, spellSubscripts, tokens_after, flatMap_map]

/-! ## Exact outlines -/

/-- **An outline that is exact on located tokens**: it has these tokens, and so
has each of its nodes those that it encloses. -/
inductive Exact : Outline → List (Located Token) → Prop
  | nil : Exact .nil []
  | token (t : Located Token) {rest : Outline} {ts : List (Located Token)}
      (hrest : rest.Exact ts) : Exact (.token t.value rest) (t :: ts)
  | node {n : Node} {inner rest : Outline} {seg ts} (hn : n.Exact seg)
      (hinner : inner.Exact seg) (hrest : rest.Exact ts) : Exact (.node n inner rest) (seg ++ ts)

namespace Exact

variable {a b : Outline} {ts us : List (Located Token)}

theorem append (ha : a.Exact ts) (hb : b.Exact us) : (a ++ b).Exact (ts ++ us) := by
  induction ha with
  | nil => exact hb
  | token t _ ih => exact .token t ih
  | @node n inner rest seg ts hn hinner _ _ ih =>
    rw [List.append_assoc]
    exact .node hn hinner ih

theorem of_append (h : (a ++ b).Exact ts) :
    ∃ us vs, ts = us ++ vs ∧ a.Exact us ∧ b.Exact vs := by
  induction a generalizing ts with
  | nil => exact ⟨[], ts, rfl, .nil, h⟩
  | token t rest ih =>
    cases h with
    | token t hrest =>
      obtain ⟨us, vs, rfl, hus, hvs⟩ := ih hrest
      exact ⟨t :: us, vs, rfl, .token t hus, hvs⟩
  | node n inner rest _ ih =>
    cases h with
    | @node _ _ _ seg _ hn hinner hrest =>
      obtain ⟨us, vs, rfl, hus, hvs⟩ := ih hrest
      exact ⟨seg ++ us, vs, (List.append_assoc ..).symm, .node hn hinner hus, hvs⟩

theorem single (t : Located Token) : (Outline.single t.value).Exact [t] := .token t .nil

theorem of_value {k : Token} (h : t.value = k) :
    (Outline.single k).Exact [t] := h ▸ .single t

theorem map_value (h : a.Exact ts) : ts.map (·.value) = a.tokens := by
  induction h with
  | nil => rfl
  | token t _ ih => exact congrArg (t.value :: ·) ih
  | node _ _ _ hinner hrest => rw [map_append, hinner, hrest, tokens]

/-- A node around what spells it. -/
theorem enclose (hspell : a.tokens = n.spell) (hspan : n.span.Covers ts) (ha : a.Exact ts) :
    (Outline.enclose n a).Exact ts :=
  List.append_nil ts ▸ .node ⟨ha.map_value.trans hspell, hspan⟩ ha .nil

theorem of_enclose (h : (Outline.enclose n a).Exact ts) : n.Exact ts ∧ a.Exact ts := by
  cases h with
  | node hn ha hrest =>
    cases hrest
    rw [List.append_nil]
    exact ⟨hn, ha⟩

/-- A node that is a single token. -/
theorem leaf (hspell : n.spell = [t.value]) (hspan : n.span = t.span) :
    (Outline.leaf n).Exact [t] := by
  rw [Outline.leaf, hspell]
  exact .enclose hspell.symm (hspan ▸ .single t) (.single t)

end Exact

end Outline

/-! ## Outlines of trees -/

def Ident.outline (x : Ident) : Outline := .leaf (.ident x)

mutual

/-- What an expression encloses. -/
def Expr.inner : Expr → Outline
  | number _ text => .single (.number text)
  | lval _ x is => Ident.outline x ++ .subscripts (Expr.outlines is)
  | call _ f args =>
    Ident.outline f ++ (.single (.mark .openParen) ++ .list .closeParen (Expr.outlines args))
  | unary _ op e => .leaf (.unaryOp op) ++ .enclose (.expr e) e.inner
  | binary _ op a b =>
    .enclose (.expr a) a.inner ++ (.single op.token ++ .enclose (.expr b) b.inner)
  | paren _ e =>
    .single (.mark .openParen) ++ (.enclose (.expr e) e.inner ++ .single (.mark .closeParen))

/-- The expressions of a list, each by itself. -/
def Expr.outlines : List Expr → List Outline
  | [] => []
  | e :: es => .enclose (.expr e) e.inner :: Expr.outlines es

end

/-- **The outline of an expression.** -/
def Expr.outline (e : Expr) : Outline := .enclose (.expr e) e.inner

def LVal.outline (l : LVal) : Outline :=
  .enclose (.target l) (Ident.outline l.name ++ .subscripts (Expr.outlines l.indices))

def Cond.inner : Cond → Outline
  | expr e => e.outline
  | compare _ op a b | logic _ op a b =>
    .enclose (.cond a) a.inner ++ (.single op.token ++ .enclose (.cond b) b.inner)

/-- **The outline of a condition.** -/
def Cond.outline (c : Cond) : Outline := .enclose (.cond c) c.inner

mutual

def InitVal.inner : InitVal → Outline
  | expr e => e.outline
  | list _ items => .single (.mark .openBrace) ++ .list .closeBrace (InitVal.outlines items)

def InitVal.outlines : List InitVal → List Outline
  | [] => []
  | i :: is => .enclose (.initVal i) i.inner :: InitVal.outlines is

end

def InitVal.outline (i : InitVal) : Outline := .enclose (.initVal i) i.inner

def Definition.outline (d : Definition) : Outline :=
  Ident.outline d.name ++ (.subscripts (Expr.outlines d.dims) ++
    (match d.init with
      | some i => .leaf (.assignMark i.mark) ++ i.value.outline
      | none => .nil))

def Decl.outline (d : Decl) : Outline :=
  (if d.constant then .single (.keyword .const) else .nil) ++ (.single (.keyword .int) ++
    (d.first.outline ++ (.after (.mark .comma) (d.others.map Definition.outline) ++
      .single (.mark .semicolon))))

/-- The outline of a keyword and a condition in parentheses. -/
def Cond.outlineGuard (w : Keyword) (c : Cond) : Outline :=
  .single (.keyword w) ++ (.single (.mark .openParen) ++
    (c.outline ++ .single (.mark .closeParen)))

mutual

/-- **The outline of a statement.** -/
def Stmt.outline : Stmt → Outline
  | .assign target mark value =>
    target.outline ++ (.leaf (.assignMark mark) ++ (value.outline ++ .single (.mark .semicolon)))
  | .eval none => .single (.mark .semicolon)
  | .eval (some e) => e.outline ++ .single (.mark .semicolon)
  | .block b => .single (.mark .openBrace) ++ b.outline
  | .if_ c s rest => c.outlineGuard .if_ ++ (s.outline ++ rest.outline)
  | .while_ c s => c.outlineGuard .while_ ++ s.outline
  | .break_ k => .leaf (.keyword .break_ k) ++ .single (.mark .semicolon)
  | .continue_ k => .leaf (.keyword .continue_ k) ++ .single (.mark .semicolon)
  | .return_ k none => .leaf (.keyword .return_ k) ++ .single (.mark .semicolon)
  | .return_ k (some e) =>
    .leaf (.keyword .return_ k) ++ (e.outline ++ .single (.mark .semicolon))

/-- The outline of a block up to its closing brace. -/
def Block.outline : Block → Outline
  | .nil => .single (.mark .closeBrace)
  | .decl d rest => d.outline ++ rest.outline
  | .stmt s rest => s.outline ++ rest.outline

def Otherwise.outline : Otherwise → Outline
  | .done => .nil
  | .else_ s => .single (.keyword .else_) ++ s.outline
  | .elseIf c s rest =>
    .single (.keyword .else_) ++ (c.outlineGuard .if_ ++ (s.outline ++ rest.outline))

end

def Parameter.outline (p : Parameter) : Outline :=
  .single (.keyword .int) ++ (Ident.outline p.name ++
    (match p.array with
      | some dims =>
        .single (.mark .openBracket) ++ (.single (.mark .closeBracket) ++
          .subscripts (Expr.outlines dims))
      | none => .nil))

def FunctionDef.outline (f : FunctionDef) : Outline :=
  .single f.returns.token ++ (Ident.outline f.name ++ (.single (.mark .openParen) ++
    (.list .closeParen (f.params.map Parameter.outline) ++
      (.single (.mark .openBrace) ++ f.body.outline))))

def TopLevel.outline : TopLevel → Outline
  | decl d => d.outline
  | function f => f.outline

/-- **The outline of a program.** -/
def Program.outline (p : Program) : Outline :=
  p.units.foldr (fun u rest => u.outline ++ rest) .nil

/-! ## Nodes enclose what spells them -/

mutual

theorem Expr.tokens_inner (e : Expr) : e.inner.tokens = e.spell := by
  cases e with
  | number _ text => rfl
  | lval _ x is => simp [Expr.inner, Expr.spell, Ident.outline, Node.spell, Expr.tokens_outlines is]
  | call _ f args =>
    simp [Expr.inner, Expr.spell, Ident.outline, Node.spell, Expr.tokens_outlines args]
  | unary _ op e => simp [Expr.inner, Expr.spell, Node.spell, Expr.tokens_inner e]
  | binary _ op a b => simp [Expr.inner, Expr.spell, Expr.tokens_inner a, Expr.tokens_inner b]
  | paren _ e => simp [Expr.inner, Expr.spell, Expr.tokens_inner e]

theorem Expr.tokens_outlines (es : List Expr) :
    (Expr.outlines es).map Outline.tokens = Expr.spellAll es := by
  cases es with
  | nil => rfl
  | cons e es =>
    simp [Expr.outlines, Expr.spellAll, Expr.tokens_inner e, Expr.tokens_outlines es]

end

attribute [simp] Expr.tokens_outlines

@[simp] theorem Ident.tokens_outline (x : Ident) : (Ident.outline x).tokens = [.ident x.value] :=
  Outline.tokens_leaf _

@[simp] theorem Expr.tokens_outline (e : Expr) : e.outline.tokens = e.spell :=
  (Outline.tokens_enclose _ _).trans e.tokens_inner

@[simp] theorem LVal.tokens_outline (l : LVal) : l.outline.tokens = l.spell := by
  simp [LVal.outline, LVal.spell]

theorem Expr.outlines_eq_map (es : List Expr) : Expr.outlines es = es.map Expr.outline := by
  induction es with
  | nil => rfl
  | cons e es ih => rw [Expr.outlines, ih, map_cons, Expr.outline]

theorem Cond.tokens_inner (c : Cond) : c.inner.tokens = c.spell := by
  induction c with
  | expr e => simp [Cond.inner, Cond.spell, Expr.outline, Expr.tokens_inner e]
  | compare _ op a b iha ihb | logic _ op a b iha ihb => simp [Cond.inner, Cond.spell, iha, ihb]

@[simp] theorem Cond.tokens_outline (c : Cond) : c.outline.tokens = c.spell :=
  (Outline.tokens_enclose _ _).trans c.tokens_inner

mutual

theorem InitVal.tokens_inner (i : InitVal) : i.inner.tokens = i.spell := by
  cases i with
  | expr e => simp [InitVal.inner, InitVal.spell, Expr.outline, Expr.tokens_inner e]
  | list _ items => simp [InitVal.inner, InitVal.spell, InitVal.tokens_outlines items]

theorem InitVal.tokens_outlines (is : List InitVal) :
    (InitVal.outlines is).map Outline.tokens = InitVal.spellAll is := by
  cases is with
  | nil => rfl
  | cons i is =>
    simp [InitVal.outlines, InitVal.spellAll, InitVal.tokens_inner i, InitVal.tokens_outlines is]

end

@[simp] theorem InitVal.tokens_outline (i : InitVal) : i.outline.tokens = i.spell :=
  (Outline.tokens_enclose _ _).trans i.tokens_inner

theorem InitVal.outlines_eq_map (is : List InitVal) :
    InitVal.outlines is = is.map InitVal.outline := by
  induction is with
  | nil => rfl
  | cons i is ih => rw [InitVal.outlines, ih, map_cons, InitVal.outline]

theorem Definition.tokens_outline (d : Definition) : d.outline.tokens = d.spell := by
  obtain ⟨x, dims, init⟩ := d
  cases init with
  | none => simp [Definition.outline, Definition.spell]
  | some i => simp [Definition.outline, Definition.spell, Initializer.spell, Node.spell]

theorem Decl.tokens_outline (d : Decl) : d.outline.tokens = d.spell := by
  obtain ⟨constant, first, others⟩ := d
  cases constant <;>
    simp [Decl.outline, Decl.spell, Outline.tokens, Outline.tokens_after, flatMap_map,
      Definition.tokens_outline]

theorem Cond.tokens_outlineGuard (w : Keyword) (c : Cond) :
    (c.outlineGuard w).tokens = c.spellGuard w := by
  simp [Cond.outlineGuard, Cond.spellGuard]

mutual

theorem Stmt.tokens_outline (s : Stmt) : s.outline.tokens = s.spell := by
  cases s with
  | assign target mark value | break_ | continue_ => simp [Stmt.outline, Stmt.spell, Node.spell]
  | eval e => cases e <;> simp [Stmt.outline, Stmt.spell]
  | block b => simp [Stmt.outline, Stmt.spell, b.tokens_outline]
  | if_ c s rest =>
    simp [Stmt.outline, Stmt.spell, Cond.tokens_outlineGuard, s.tokens_outline, rest.tokens_outline]
  | while_ c s => simp [Stmt.outline, Stmt.spell, Cond.tokens_outlineGuard, s.tokens_outline]
  | return_ keyword e => cases e <;> simp [Stmt.outline, Stmt.spell, Node.spell]

theorem Block.tokens_outline (b : Block) : b.outline.tokens = b.spell := by
  cases b with
  | nil => rfl
  | decl d rest => simp [Block.outline, Block.spell, d.tokens_outline, rest.tokens_outline]
  | stmt s rest => simp [Block.outline, Block.spell, s.tokens_outline, rest.tokens_outline]

theorem Otherwise.tokens_outline (o : Otherwise) : o.outline.tokens = o.spell := by
  cases o with
  | done => rfl
  | else_ s => simp [Otherwise.outline, Otherwise.spell, s.tokens_outline]
  | elseIf c s rest =>
    simp [Otherwise.outline, Otherwise.spell, Cond.tokens_outlineGuard, s.tokens_outline,
      rest.tokens_outline]

end

theorem Parameter.tokens_outline (p : Parameter) : p.outline.tokens = p.spell := by
  obtain ⟨x, array⟩ := p
  cases array <;> simp [Parameter.outline, Parameter.spell]

theorem TopLevel.tokens_outline (u : TopLevel) : u.outline.tokens = u.spell := by
  cases u with
  | decl d => exact d.tokens_outline
  | function f =>
    simp [TopLevel.outline, TopLevel.spell, FunctionDef.outline, FunctionDef.spell,
      Function.comp_def, Parameter.tokens_outline, f.body.tokens_outline]

/-- **The outline of a program has the tokens that spell it.** -/
theorem Program.tokens_outline (p : Program) : p.outline.tokens = p.spell := by
  obtain ⟨us⟩ := p
  induction us with
  | nil => rfl
  | cons u us ih =>
    show (u.outline ++ (Program.mk us).outline).tokens = u.spell ++ (Program.mk us).spell
    rw [Outline.tokens_append, u.tokens_outline, ih]

section Exact

variable {ts : List (Located Token)}

theorem Ident.exact_outline (x : Ident) : (Ident.outline x).Exact [⟨.ident x.value, x.span⟩] :=
  .leaf rfl rfl

theorem Expr.exact_outline {e : Expr} (hspan : e.span.Covers ts) (h : e.inner.Exact ts) :
    e.outline.Exact ts := .enclose e.tokens_inner hspan h

theorem Expr.covers_of_exact {e : Expr} (h : e.outline.Exact ts) : e.span.Covers ts :=
  h.of_enclose.1.2

theorem Cond.exact_outline {c : Cond} (hspan : c.span.Covers ts) (h : c.inner.Exact ts) :
    c.outline.Exact ts := .enclose c.tokens_inner hspan h

theorem Cond.covers_of_exact {c : Cond} (h : c.outline.Exact ts) : c.span.Covers ts :=
  h.of_enclose.1.2

theorem InitVal.exact_outline {i : InitVal} (hspan : i.span.Covers ts) (h : i.inner.Exact ts) :
    i.outline.Exact ts := .enclose i.tokens_inner hspan h

theorem LVal.exact_outline {l : LVal} (hspan : l.span.Covers ts)
    (h : (Ident.outline l.name ++ .subscripts (Expr.outlines l.indices)).Exact ts) :
    l.outline.Exact ts := by
  refine .enclose ?_ hspan h
  simp [Node.spell, LVal.spell]

end Exact

end SysY
