import SysY.Rv32.Frame

/-!
# Selecting instructions

What each line of a flattened function becomes. Temporaries are kept where
the plan says; what is not in a register is brought into a scratch register
first. There are five of these, none of which the plan gives away: two for
operands, one for a result, one for addresses, and one to move the stack
pointer.

Offsets from the stack pointer that do not fit an immediate of twelve bits
are added up in the scratch register for addresses.
-/

namespace SysY.Rv32

open IR (Value Line Label Temp Op)

/-! ## Scratch registers -/

/-- Scratch register for a first operand. -/
def lhsReg : Reg := .t 0

/-- Scratch register for a second operand. -/
def rhsReg : Reg := .t 1

/-- Scratch register for a result that goes to a slot. -/
def resultReg : Reg := .t 2

/-- Scratch register for addresses. -/
def addressReg : Reg := .t 3

/-- Scratch register for the size of a large frame. -/
def frameReg : Reg := .t 4

/-- The register in which a function returns its result. -/
def returnReg : Reg := .a 0

/-! ## The stack -/

/-- Whether a number fits an immediate. -/
def fitsImmediate (n : Int32) : Bool := -2048 ≤ n.toInt && n.toInt < 2048

/-- An access to memory at an offset from the stack pointer; `access` says
which, from an offset and a base. -/
def atStack (access : Int → Reg → Instr) (offset : Nat) : List Instr :=
  if fitsImmediate (Int32.ofNat offset) then [access offset .sp]
  else [.li addressReg offset, .alu .add addressReg addressReg .sp, access 0 addressReg]

/-- Load a register from an offset from the stack pointer. -/
def loadStack (rd : Reg) (offset : Nat) : List Instr := atStack (.lw rd) offset

/-- Store a register at an offset from the stack pointer. -/
def storeStack (rs : Reg) (offset : Nat) : List Instr := atStack (.sw rs) offset

/-- An offset from the stack pointer as an address. -/
def stackAddress (rd : Reg) (offset : Nat) : List Instr :=
  if fitsImmediate (Int32.ofNat offset) then [.addi rd .sp offset]
  else [.li rd offset, .alu .add rd rd .sp]

def moveStack (by_ : Int32) : List Instr :=
  if fitsImmediate by_ then [.addi .sp .sp by_.toInt]
  else [.li frameReg by_.toInt, .alu .add .sp .sp frameReg]

/-- Copy a register, unless it is the same. -/
def move (rd rs : Reg) : List Instr := if rd = rs then [] else [.mv rd rs]

/-! ## Functions -/

/-- Where everything of a function is. -/
structure Home where
  function : IR.Function
  plan : Plan Reg
  kinds : Array TempKind
  frame : Frame

namespace Home

variable (h : Home)

def place (t : Temp) : Except Fault (Place Reg) :=
  match (h.plan.places[t]?).join with
  | some p => .ok p
  | none => .error (.noPlace t)

def kind (t : Temp) : Except Fault TempKind :=
  match h.kinds[t]? with
  | some k => .ok k
  | none => .error (.unknownTemp t)

def symbol (l : Label) : Except Fault String :=
  return ".L" ++ h.function.name ++ "_" ++ (← h.function.labelName l)

/-! ### Entry and exit -/

/-- The saved registers that are used, with the offsets at which they are
kept. -/
def savedCells : List (Reg × Nat) :=
  h.frame.preserved.zipIdx.map fun (r, i) => (r, h.frame.saved + i * wordSize)

/-- The size of the frame, as the stack pointer moves. -/
def frameWord : Int32 := Int32.ofNat h.frame.size

/-- What a function does first: it makes room for its frame, and saves the
return address and the registers that it uses. -/
def prologue : Except Fault (List Instr) :=
  if h.frameWord = Int32.minValue then .error .frameOverflow
  else .ok (moveStack (-h.frameWord) ++ storeStack .ra h.frame.ra ++
    h.savedCells.flatMap fun (r, offset) => storeStack r offset)

/-- What a function does last. -/
def epilogue : List Instr :=
  (h.savedCells.flatMap fun (r, offset) => loadStack r offset) ++ loadStack .ra h.frame.ra ++
    moveStack h.frameWord ++ [.ret]

/-! ### Reading and writing -/

/-- The register that a value is in, after instructions that bring it into
`scratch` if it is in none. -/
def read (v : Value) (scratch : Reg) : Except Fault (List Instr × Reg) :=
  match v with
  | .const n => if n = 0 then return ([], .zero) else return ([.li scratch n.toInt], scratch)
  | .global name => return ([.la scratch name], scratch)
  | .arg i =>
    if lt : i < 8 then return ([], .a ⟨i, lt⟩)
    else return (loadStack scratch (← h.frame.incomingOffset i), scratch)
  | .temp t => do
    match ← h.kind t with
    | .array first => return (stackAddress scratch (h.frame.arrayOffset first), scratch)
    | .value | .scalar =>
      match ← h.place t with
      | .register r => return ([], r)
      | .slot n => return (loadStack scratch (h.frame.slotOffset n), scratch)

/-- Bring a value into a register. -/
def readInto (v : Value) (rd : Reg) : Except Fault (List Instr) := do
  let (code, r) ← h.read v rd
  return code ++ move rd r

/-- The register in which a temporary is computed, and what then puts it into
its place. -/
def write (t : Temp) : Except Fault (Reg × List Instr) := do
  match ← h.place t with
  | .register r => return (r, [])
  | .slot n => return (resultReg, storeStack resultReg (h.frame.slotOffset n))

/-- The temporary that takes the result of an instruction. -/
def defined (output : Option Temp) : Except Fault Temp :=
  match output with
  | some t => .ok t
  | none => .error .noOutput

/-- Compute a temporary from two operands. -/
def combine (output : Option Temp) (a b : Value)
    (compute : Reg → Reg → Reg → List Instr) : Except Fault (List Instr) := do
  let t ← defined output
  let (c1, x) ← h.read a lhsReg
  let (c2, y) ← h.read b rhsReg
  let (rd, commit) ← h.write t
  return c1 ++ c2 ++ compute rd x y ++ commit

/-- Copy a value into a temporary. -/
def copy (t : Temp) (v : Value) : Except Fault (List Instr) := do
  let (rd, commit) ← h.write t
  return (← h.readInto v rd) ++ commit

/-! ### Operations -/

def aluOp : IR.BinOp → AluOp
  | .add => .add
  | .sub => .sub
  | .mul => .mul
  | .div => .div
  | .rem => .rem

/-- A comparison of two registers, as zero or one. -/
def compare (op : IR.CmpOp) (rd a b : Reg) : List Instr :=
  match op with
  | .lt => [.alu .slt rd a b]
  | .gt => [.alu .slt rd b a]
  | .le => [.alu .slt rd b a, .xori rd rd 1]
  | .ge => [.alu .slt rd a b, .xori rd rd 1]
  | .eq => [.alu .sub rd a b, .seqz rd rd]
  | .ne => [.alu .sub rd a b, .snez rd rd]

/-- The address of an element of an array; the offset counts words. -/
def elementAddress (rd base offset : Reg) : List Instr :=
  [.slli rhsReg offset 2, .alu .add rd base rhsReg]

/-- Whether a value is the address of a scalar variable. -/
def isScalar (v : Value) : Except Fault Bool :=
  match v with
  | .temp t => return (← h.kind t) = .scalar
  | _ => return false

/-- Load a word. That of a scalar variable is in the variable's place. -/
def load (output : Option Temp) (source : Value) : Except Fault (List Instr) := do
  let (rd, commit) ← h.write (← defined output)
  let code ← match source with
    | .global name => pure [.la addressReg name, .lw rd 0 addressReg]
    | _ =>
      if ← h.isScalar source then h.readInto source rd
      else do
        let (c, pointer) ← h.read source lhsReg
        pure (c ++ [.lw rd 0 pointer])
  return code ++ commit

/-- Put a value into the place of a scalar variable. -/
def assign (t : Temp) (v : Value) : Except Fault (List Instr) := do
  match ← h.place t with
  | .register r => h.readInto v r
  | .slot n =>
    let (c, r) ← h.read v lhsReg
    return c ++ storeStack r (h.frame.slotOffset n)

/-- Store a word through an address. -/
def storeThrough (value target : Value) : Except Fault (List Instr) := do
  let (c1, r) ← h.read value lhsReg
  let (c2, pointer) ← h.read target rhsReg
  return c1 ++ c2 ++ [.sw r 0 pointer]

def store (value target : Value) : Except Fault (List Instr) := do
  match target with
  | .global name =>
    let (c, r) ← h.read value lhsReg
    return c ++ [.la addressReg name, .sw r 0 addressReg]
  | .temp t => if (← h.kind t) = .scalar then h.assign t value else h.storeThrough value target
  | _ => h.storeThrough value target

/-- Put the arguments beyond the eighth on the stack, from number `i` on. -/
def stackArgs (i : Nat) : List Value → Except Fault (List Instr)
  | [] => return []
  | v :: vs => do
    let (c, r) ← h.read v lhsReg
    let rest ← stackArgs (i + 1) vs
    return c ++ storeStack r (i * wordSize) ++ rest

/-- Put the first arguments into their registers. -/
def registerArgCode : List (Value × Fin 8) → Except Fault (List Instr)
  | [] => return []
  | (v, i) :: vs => do
    let c ← h.readInto v (.a i)
    return c ++ (← registerArgCode vs)

/-- Call a function: first the arguments on the stack, then those in
registers. -/
def call (output : Option Temp) (callee : String) (args : List Value) :
    Except Fault (List Instr) := do
  let c1 ← h.stackArgs 0 (args.drop registerArgs)
  let c2 ← h.registerArgCode (args.zip [0, 1, 2, 3, 4, 5, 6, 7])
  let c3 ← match output with
    | some t => do
      let (rd, commit) ← h.write t
      pure (move rd returnReg ++ commit)
    | none => pure []
  return c1 ++ c2 ++ [.call callee] ++ c3

/-- Go on at one of two blocks, when `next` is laid out next. -/
def branch (next : Option Label) (cond : Value) (yes no : Label) :
    Except Fault (List Instr) := do
  let (c, r) ← h.read cond lhsReg
  let yesSymbol ← h.symbol yes
  let noSymbol ← h.symbol no
  if next = some yes then return c ++ [.beqz r noSymbol]
  else if next = some no then return c ++ [.bnez r yesSymbol]
  else return c ++ [.bnez r yesSymbol, .j noSymbol]

/-- Go on at a block, when `next` is laid out next. -/
def jump (next : Option Label) (target : Label) : Except Fault (List Instr) := do
  if next = some target then return [] else return [.j (← h.symbol target)]

/-- **What an instruction becomes,** when block `next` is laid out after its
own. -/
def instr (next : Option Label) (i : IR.Instr) : Except Fault (List Instr) :=
  match i.op with
  | .alloca | .array _ | .phi .. => return []
  | .zext v => do h.copy (← defined i.output) v
  | .load source => h.load i.output source
  | .store value target => h.store value target
  | .binary op a b => h.combine i.output a b fun rd x y => [.alu (aluOp op) rd x y]
  | .compare op a b => h.combine i.output a b (compare op)
  | .element base offset => h.combine i.output base offset elementAddress
  | .jump target => h.jump next target
  | .branch cond yes no => h.branch next cond yes no
  | .call callee args => h.call i.output callee args
  | .ret v => return (← h.readInto v returnReg) ++ h.epilogue
  | .retVoid => return h.epilogue

/-- What a line becomes. -/
def line (next : Option Label) : Line → Except Fault (List Instr)
  | .copy t v => h.copy t v
  | .instr i => h.instr next i

end Home

end SysY.Rv32
