import SysY.IR.Text

/-!
# Flattened functions

A function as one sequence of lines, block after block in the order of the
layout. There are no phis left to execute: just before the end of a block
stand copies, one for each phi that names the block, of the value for that
block into the phi's temporary. The phi itself stays as a line that does
nothing.

A block that is entered along an edge on which a phi is *not* reached makes
its copies all the same; that is harmless as long as the phi's temporary is
not read on the way.
-/

namespace SysY.IR

/-- A line of a flattened function. -/
inductive Line where
  | instr (i : Instr)
  /-- A copy of a value into a phi's temporary. -/
  | copy (output : Temp) (value : Value)
deriving DecidableEq, Repr

namespace Line

/-- The temporary that a line assigns. -/
def output? : Line → Option Temp
  | instr i => i.output
  | copy t _ => some t

/-- The values that a line reads. A phi reads none: the copies do. -/
def operands : Line → List Value
  | instr ⟨_, .phi ..⟩ => []
  | instr i => i.op.operands
  | copy _ v => [v]

/-- The blocks where control may go on after a line. -/
def successors : Line → List Label
  | instr i => i.op.successors
  | copy .. => []

/-- The temporaries that a line reads or assigns. -/
def temps (line : Line) : List Temp :=
  line.operands.filterMap (·.temp?) ++ line.output?.toList

/-- How a line of a function is written. -/
def text (f : Function) : Line → Except Fault String
  | instr i => f.instrText i
  | copy t v => return s!"%{t} = copy " ++ v.text

end Line

structure FlatBlock where
  label : Label
  lines : List Line
deriving DecidableEq, Repr

/-- A flattened function: its blocks in the order of the layout. -/
structure Flat where
  blocks : List FlatBlock
deriving DecidableEq, Repr

namespace Flat

def lines (f : Flat) : List Line := f.blocks.flatMap (·.lines)

/-- The labels of blocks with their first lines and the lines after their
last, when the first of them starts at line `n`. -/
def rangesFrom (n : Nat) : List FlatBlock → List (Label × Nat × Nat)
  | [] => []
  | b :: bs => (b.label, n, n + b.lines.length) :: rangesFrom (n + b.lines.length) bs

/-- Of each block the label, the first line, and the line after the last. -/
def ranges (f : Flat) : List (Label × Nat × Nat) := rangesFrom 0 f.blocks

/-- The line at which a block starts. -/
def start? (f : Flat) (l : Label) : Option Nat :=
  (f.ranges.reverse.find? (·.1 = l)).map (·.2.1)

end Flat

/-- The copies that an instruction asks of the blocks it names. -/
def Instr.copies : Instr → List (Label × Line)
  | ⟨some t, .phi a la b lb⟩ => [(la, .copy t a), (lb, .copy t b)]
  | _ => []

/-- The lines of a block, with copies before its end. -/
def Block.lines (b : Block) (copies : List Line) : List Line :=
  match b.terminator? with
  | some last => b.code.dropLast.map .instr ++ copies ++ [.instr last]
  | none => b.code.map .instr ++ copies

/-- **Flatten a function.** -/
def Function.flatten (f : Function) : Except Fault Flat := do
  let blocks ← f.layout.mapM fun l => return (l, ← f.block l)
  let copies := blocks.flatMap fun (_, b) => b.code.flatMap (·.copies)
  return ⟨blocks.map fun (l, b) =>
    ⟨l, b.lines ((copies.filter (·.1 = l)).map (·.2))⟩⟩

end SysY.IR
