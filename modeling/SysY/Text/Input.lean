import SysY.Text.Position

/-!
# Input streams

What the scanner reads: a list of items, each a character with its position
or the news that a line could not be read. A text held in memory gives its
characters as they are (`Input.ofString`). A file is read line by line
(`Input.ofBytes`): the end of a line, with or without a carriage return,
becomes one newline, the last line is given one if it has none, and a line
that is not valid UTF-8 becomes a single unreadable item.
-/

namespace SysY.Input

/-- One unit of input. -/
inductive Item where
  | char (c : Char) (pos : Position)
  /-- A line whose bytes are no text. -/
  | unreadable
deriving DecidableEq, Repr

/-- The characters of a list, placed one after the other from `p` on. -/
def place (p : Position) : List Char → List Item
  | [] => []
  | c :: cs => .char c p :: place (p.after c) cs

/-- The items of a text held in memory. -/
def ofString (text : String) : List Item := place Position.origin text.toList

/-- Put a byte before the lines that follow it: a newline starts a line of its
own, and any other byte belongs to the first line. -/
def consByte (b : UInt8) : List (List UInt8 × Bool) → List (List UInt8 × Bool)
  | rest =>
    if b = 10 then ([], true) :: rest
    else
      match rest with
      | [] => [([b], false)]
      | (line, ended) :: rest => (b :: line, ended) :: rest

/-- The lines of a list of bytes: each ends before a newline byte or at the
end, and the flag says whether a newline followed. There is no line after a
final newline. -/
def lines (bytes : List UInt8) : List (List UInt8 × Bool) := bytes.foldr consByte []

/-- The bytes of a line without the carriage return that belongs to its
newline. A return that no newline follows is part of the line. -/
def stripReturn : List UInt8 × Bool → List UInt8
  | (line, true) => if line.getLast? = some 13 then line.dropLast else line
  | (line, false) => line

/-- The items of one line: its characters and a newline, or a single
unreadable item if the bytes are not valid UTF-8. -/
def ofLine (number : Nat) (line : List UInt8) : List Item :=
  match String.fromUTF8? ⟨line.toArray⟩ with
  | some text => place ⟨number, 1⟩ (text.toList ++ ['\n'])
  | none => [.unreadable]

/-- The items of the bytes of a file. Validity of a line is judged with its
line end stripped. -/
def ofBytes (bytes : List UInt8) : List Item :=
  ((lines bytes).zipIdx 1).flatMap fun (line, number) => ofLine number (stripReturn line)

end SysY.Input
