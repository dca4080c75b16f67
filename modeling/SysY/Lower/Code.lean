import SysY.Lower.Symbol

/-!
# Code under construction

The lowering produces code in the order in which it is laid out: a sequence
of instructions and of labels, each of which starts a block. Labels are
handed out before the blocks they name are started, since a jump may lead
forward; temporaries are handed out as instructions are written. What has
been handed out, and which block is the current one, is the `Supply`.

Every block that is started is ended by one jump, branch or return before the
next label, so cutting the sequence at its labels gives the blocks
(`Code.blocks`).
-/

namespace SysY.Lower

open IR (Value Op Instr Label Temp)

/-- An element of code. -/
inductive Item where
  | label (l : Label)
  | instr (i : Instr)
deriving DecidableEq, Repr

/-- Code, in the order in which it is laid out. -/
abbrev Code := List Item

/-- What has been handed out. -/
structure Supply where
  /-- The number of temporaries. -/
  temps : Nat := 0
  /-- The names of the blocks, by label. -/
  names : Array String := #[]
  /-- The block in which code is written. -/
  current : Label := 0
deriving Repr

/-- Lowering: it draws on the supply, and may stop. -/
abbrev Gen := StateT Supply (Except Stop)

def newTemp : Gen Temp := modifyGet fun s => (s.temps, { s with temps := s.temps + 1 })

/-- A new block, which is not started yet. -/
def newBlock (name : String) : Gen Label :=
  modifyGet fun s => (s.names.size, { s with names := s.names.push name })

def startBlock (l : Label) : Gen Code :=
  modifyGet fun s => ([.label l], { s with current := l })

/-- The block in which code is written. -/
def currentBlock : Gen Label := return (← get).current

/-- An instruction whose result is a new temporary. -/
def define (op : Op) : Gen (List Instr × Value) := do
  let t ← newTemp
  return ([⟨some t, op⟩], .temp t)

/-- Instructions as code. -/
def straight (is : List Instr) : Code := is.map .instr

/-- An instruction without a result, as code. -/
def perform (op : Op) : Code := [.instr ⟨none, op⟩]

/-- End the current block, and go on in a new one that nothing leads to. -/
def deadEnd (op : Op) : Gen Code := do
  let dead ← newBlock "dead"
  return perform op ++ (← startBlock dead)

namespace Code

/-- The labels of code, in order. -/
def layout (code : Code) : List Label :=
  code.filterMap fun
    | .label l => some l
    | .instr _ => none

/-- The instructions before the first label. -/
def head : Code → List Instr
  | .instr i :: rest => i :: head rest
  | _ => []

/-- The instructions after a label, up to the next one. -/
def blockAt (l : Label) : Code → List Instr
  | [] => []
  | .label m :: rest => if m = l then head rest else blockAt l rest
  | .instr _ :: rest => blockAt l rest

/-- The blocks of code, by label, given their names. -/
def blocks (names : List String) (code : Code) : List IR.Block :=
  names.mapIdx fun l name => ⟨name, blockAt l code⟩

end Code

end SysY.Lower
