/-!
# RV32IM assembly

The registers, instructions and directives that the compiler writes, as data,
and their text. Immediates are integers; how they are read by the machine,
modulo the width of a word, does not concern the text.
-/

namespace SysY.Rv32

inductive Reg where
  | zero
  | ra
  | sp
  /-- A temporary register, which a call may change. -/
  | t (n : Fin 7)
  /-- A saved register, which a call preserves. -/
  | s (n : Fin 12)
  /-- An argument register; the first one also takes results. -/
  | a (n : Fin 8)
deriving DecidableEq, Repr

namespace Reg

def text : Reg → String
  | zero => "zero"
  | ra => "ra"
  | sp => "sp"
  | t n => s!"t{n.val}"
  | s n => s!"s{n.val}"
  | a n => s!"a{n.val}"

/-- The saved registers, in order: the pool from which places are given. -/
def saved : List Reg := [s 0, s 1, s 2, s 3, s 4, s 5, s 6, s 7, s 8, s 9, s 10, s 11]

end Reg

/-- The operations on two registers. -/
inductive AluOp where
  | add
  | sub
  | mul
  | div
  | rem
  | slt
deriving DecidableEq, Repr

def AluOp.text : AluOp → String
  | add => "add"
  | sub => "sub"
  | mul => "mul"
  | div => "div"
  | rem => "rem"
  | slt => "slt"

inductive Instr where
  | li (rd : Reg) (imm : Int)
  | la (rd : Reg) (symbol : String)
  | mv (rd rs : Reg)
  | alu (op : AluOp) (rd rs1 rs2 : Reg)
  | addi (rd rs : Reg) (imm : Int)
  | xori (rd rs : Reg) (imm : Int)
  | slli (rd rs : Reg) (amount : Nat)
  /-- Whether a register is zero. -/
  | seqz (rd rs : Reg)
  /-- Whether a register is not zero. -/
  | snez (rd rs : Reg)
  /-- Load the word at a register plus an offset. -/
  | lw (rd : Reg) (offset : Int) (base : Reg)
  /-- Store a word at a register plus an offset. -/
  | sw (rs : Reg) (offset : Int) (base : Reg)
  | j (target : String)
  | beqz (rs : Reg) (target : String)
  | bnez (rs : Reg) (target : String)
  | call (target : String)
  | ret
  /-- Ask the environment for a service. -/
  | ecall
deriving DecidableEq, Repr

namespace Instr

/-- The name of an instruction. -/
def opcode : Instr → String
  | li .. => "li"
  | la .. => "la"
  | mv .. => "mv"
  | alu op .. => op.text
  | addi .. => "addi"
  | xori .. => "xori"
  | slli .. => "slli"
  | seqz .. => "seqz"
  | snez .. => "snez"
  | lw .. => "lw"
  | sw .. => "sw"
  | j _ => "j"
  | beqz .. => "beqz"
  | bnez .. => "bnez"
  | call _ => "call"
  | ret => "ret"
  | ecall => "ecall"

/-- An operand in memory. -/
def memoryText (offset : Int) (base : Reg) : String := s!"{offset}(" ++ base.text ++ ")"

/-- The operands of an instruction, in the order in which they are written. -/
def operands : Instr → List String
  | li rd imm => [rd.text, toString imm]
  | la rd symbol => [rd.text, symbol]
  | mv rd rs | seqz rd rs | snez rd rs => [rd.text, rs.text]
  | alu _ rd a b => [rd.text, a.text, b.text]
  | addi rd rs imm | xori rd rs imm => [rd.text, rs.text, toString imm]
  | slli rd rs n => [rd.text, rs.text, toString n]
  | lw r offset base | sw r offset base => [r.text, memoryText offset base]
  | j target | call target => [target]
  | beqz rs target | bnez rs target => [rs.text, target]
  | ret | ecall => []

/-- A text filled up with blanks to a width. -/
def padTo (width : Nat) (s : String) : String :=
  s ++ String.ofList (List.replicate (width - s.length) ' ')

/-- How an instruction is written: the operands start in a column of their
own. -/
def text (i : Instr) : String :=
  if i.operands.isEmpty then i.opcode
  else padTo 8 i.opcode ++ ", ".intercalate i.operands

end Instr

inductive AsmLine where
  | data
  | code
  /-- Go on at the next address that is a multiple of a word. -/
  | alignWord
  | globl (symbol : String)
  | label (symbol : String)
  | word (n : Int32)
  | instr (i : Instr)
  | comment (text : String)
  | blank
deriving DecidableEq, Repr

def AsmLine.text : AsmLine → String
  | data => ".data\n"
  | code => ".text\n"
  | alignWord => ".align 2\n"
  | globl symbol => ".globl " ++ symbol ++ "\n"
  | label symbol => symbol ++ ":\n"
  | word n => s!"\t.word\t{n.toInt}\n"
  | instr i => "\t" ++ i.text ++ "\n"
  | comment text => "\t# " ++ text ++ "\n"
  | blank => "\n"

def asmText (lines : List AsmLine) : String := String.join (lines.map (·.text))

end SysY.Rv32
