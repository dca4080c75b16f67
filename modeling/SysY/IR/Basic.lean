/-!
# Intermediate representation

A module has global variables and functions. A function is a list of blocks,
which are known by their index, and an order in which they are laid out. A
block is a list of instructions; the last one says where to go on.

Values are integers of 32 bits or addresses. A temporary is assigned by one
instruction only, and so names that instruction's result. Variables of the
program live in memory: `alloca` makes room for a scalar and `array` for an
array, and their results are addresses.
-/

namespace SysY.IR

/-- A temporary, by its number. -/
abbrev Temp := Nat

/-- A block, by its index in the function. -/
abbrev Label := Nat

/-- What an instruction can read. -/
inductive Value where
  | const (n : Int32)
  /-- The address of a global variable. -/
  | global (name : String)
  /-- An argument of the function, by its position. -/
  | arg (index : Nat)
  | temp (t : Temp)
deriving DecidableEq, Repr

/-- The temporary that a value is, if it is one. -/
def Value.temp? : Value → Option Temp
  | temp t => some t
  | _ => none

/-- The arithmetic operations. -/
inductive BinOp where
  | add
  | sub
  | mul
  | div
  | rem
deriving DecidableEq, Repr

/-- The comparisons, of signed integers. -/
inductive CmpOp where
  | eq
  | ne
  | lt
  | le
  | gt
  | ge
deriving DecidableEq, Repr

/-- What an instruction does. -/
inductive Op where
  /-- Room for a scalar. -/
  | alloca
  /-- Room for an array of so many words. -/
  | array (words : Nat)
  | load (source : Value)
  | store (value target : Value)
  | binary (op : BinOp) (lhs rhs : Value)
  /-- A comparison, as a truth value. -/
  | compare (op : CmpOp) (lhs rhs : Value)
  /-- A truth value as an integer. -/
  | zext (value : Value)
  /-- The first value after the first block, the second after the second. -/
  | phi (a : Value) (fromA : Label) (b : Value) (fromB : Label)
  /-- The address of a word of an array, `base + 4 * offset`. -/
  | element (base offset : Value)
  | jump (target : Label)
  | branch (cond : Value) (yes no : Label)
  | call (callee : String) (args : List Value)
  | ret (value : Value)
  | retVoid
deriving DecidableEq, Repr

namespace Op

/-- Whether control leaves the block here. -/
def isTerminator : Op → Bool
  | jump _ | branch .. | ret _ | retVoid => true
  | _ => false

/-- The values that are read, in order. -/
def operands : Op → List Value
  | alloca | array _ | jump _ | retVoid => []
  | load v | zext v | ret v => [v]
  | store v t => [v, t]
  | binary _ a b | compare _ a b => [a, b]
  | phi a _ b _ => [a, b]
  | element b o => [b, o]
  | branch c _ _ => [c]
  | call _ args => args

/-- The blocks where control may go on. -/
def successors : Op → List Label
  | jump l => [l]
  | branch _ yes no => [yes, no]
  | _ => []

end Op

/-- An instruction: what it does and which temporary takes the result. -/
structure Instr where
  output : Option Temp
  op : Op
deriving DecidableEq, Repr

structure Block where
  /-- What the block is for; with the index it makes the block's label. -/
  name : String
  code : List Instr
deriving DecidableEq, Repr

/-- The instruction with which a block ends, if it is one that leaves it. -/
def Block.terminator? (b : Block) : Option Instr :=
  b.code.getLast?.filter (·.op.isTerminator)

structure Function where
  name : String
  void : Bool
  params : Nat
  /-- The blocks, by label. -/
  blocks : List Block
  /-- The order in which the blocks are laid out; control enters at the
  first. -/
  layout : List Label
  /-- The number of temporaries. -/
  temps : Nat
deriving DecidableEq, Repr

structure Global where
  name : String
  /-- Its words at the start. -/
  init : List Int32
deriving DecidableEq, Repr

structure Module where
  globals : List Global
  functions : List Function
deriving DecidableEq, Repr

end SysY.IR
