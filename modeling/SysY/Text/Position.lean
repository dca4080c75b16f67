/-!
# Positions in a source text

A source text is addressed by line and column, both counted from one; a
column counts characters and not bytes. A `Span` is a half-open range of
positions: its end is the column *after* the last character covered. A
`Location` is a span together with the name of the text it lies in, and
is what a reader is shown.

Lines and columns are not bounded: where they are counted in 32 bits, they are
these as long as a text has fewer than 2^32 lines, each of fewer characters.
-/

namespace SysY

/-- A line and a column of a source text, both counted from one. -/
structure Position where
  /-- The line, from one. -/
  line : Nat := 1
  /-- The column, from one, in characters. -/
  column : Nat := 1
deriving DecidableEq, Repr, Inhabited

namespace Position

/-- The first position of every text. -/
def origin : Position := ⟨1, 1⟩

variable (p : Position)

/-- The next column of the same line. -/
def next : Position := ⟨p.line, p.column + 1⟩

/-- The previous column of the same line; the first column is its own
predecessor. -/
def prev : Position := ⟨p.line, max (p.column - 1) 1⟩

/-- The first column of the next line. -/
def nextLine : Position := ⟨p.line + 1, 1⟩

/-- Where the character after `c` stands, when `c` stands at `p`. -/
def after (c : Char) : Position :=
  if c = '\n' then p.nextLine else p.next

/-- A position is written as its line and column, `3:14`. -/
def text : String := s!"{p.line}:{p.column}"

@[simp] theorem next_line : p.next.line = p.line := rfl

@[simp] theorem next_column : p.next.column = p.column + 1 := rfl

@[simp] theorem nextLine_line : p.nextLine.line = p.line + 1 := rfl

@[simp] theorem nextLine_column : p.nextLine.column = 1 := rfl

/-- Stepping back undoes stepping forward, on every position of a text. -/
theorem prev_next {p : Position} (h : 1 ≤ p.column) : p.next.prev = p := by
  cases p
  simp only [next, prev] at h ⊢
  congr 1
  omega

end Position

/-- A range of positions of one text; `stop` is the position after the last
one covered. -/
structure Span where
  start : Position
  /-- The position after the last one covered. -/
  stop : Position
deriving DecidableEq, Repr, Inhabited

namespace Span

/-- The span of a single character. -/
def single (p : Position) : Span := ⟨p, p.next⟩

/-- From the start of one span to the end of another. -/
def join (a b : Span) : Span := ⟨a.start, b.stop⟩

/-- The line on which a span starts: the line diagnostics name. -/
def line (s : Span) : Nat := s.start.line

/-- The span of the first character of a text. -/
def origin : Span := single Position.origin

/-- A span of one column is written as that position, any other as the
bracketed range from its first to its last position. -/
def text (s : Span) : String :=
  if s.stop = s.start.next then s.start.text
  else "[" ++ s.start.text ++ "-" ++ s.stop.prev.text ++ "]"

@[simp] theorem join_start (a b : Span) : (a.join b).start = a.start := rfl

@[simp] theorem join_stop (a b : Span) : (a.join b).stop = b.stop := rfl

/-- Joining does not depend on how three spans are grouped. -/
theorem join_assoc (a b c : Span) : (a.join b).join c = a.join (b.join c) := rfl

end Span

/-- A span of a named text. -/
structure Location where
  /-- The name of the text. -/
  source : String
  span : Span
deriving DecidableEq, Repr

namespace Location

/-- The location of something whose origin is not known. -/
def unknown : Location := ⟨"<unknown>", Span.origin⟩

/-- From the start of one location to the end of another, in the first one's
text. -/
def join (a b : Location) : Location := ⟨a.source, a.span.join b.span⟩

/-- The name of the text, a colon and the span. -/
def text (l : Location) : String := l.source ++ ":" ++ l.span.text

end Location

/-- A value together with the part of the text it was read from. -/
structure Located (α : Type) where
  value : α
  span : Span
deriving DecidableEq, Repr

namespace Located

def line {α : Type} (x : Located α) : Nat := x.span.line

/-- Change the value and keep the place. -/
def map {α β : Type} (f : α → β) (x : Located α) : Located β := ⟨f x.value, x.span⟩

end Located

end SysY
