import SysY.Fault
import SysY.IR.Basic

/-!
# The text of a module

How a module is written down. A block is shown by its name followed by its
index; a module that names a block it does not have cannot be written.
-/

namespace SysY.IR

def Value.text : Value → String
  | const n => toString n.toInt
  | global name => "@" ++ name
  | arg i => s!"%arg{i}"
  | temp t => s!"%{t}"

def BinOp.text : BinOp → String
  | add => "add"
  | sub => "sub"
  | mul => "mul"
  | div => "sdiv"
  | rem => "srem"

def CmpOp.text : CmpOp → String
  | eq => "eq"
  | ne => "ne"
  | lt => "slt"
  | le => "sle"
  | gt => "sgt"
  | ge => "sge"

namespace Function

variable (f : Function)

def block (l : Label) : Except Fault Block :=
  match f.blocks[l]? with
  | some b => .ok b
  | none => .error (.unknownBlock l)

/-- The name under which a block is shown. -/
def labelName (l : Label) : Except Fault String :=
  return s!"{(← f.block l).name}{l}"

def opText : Op → Except Fault String
  | .alloca => return "alloca"
  | .array words => return s!"alloca [{words}]"
  | .load v => return "load " ++ v.text
  | .store v t => return "store " ++ v.text ++ ", " ++ t.text
  | .binary op a b => return op.text ++ " " ++ a.text ++ ", " ++ b.text
  | .compare op a b => return "icmp " ++ op.text ++ " " ++ a.text ++ ", " ++ b.text
  | .zext v => return "zext " ++ v.text
  | .phi a la b lb =>
    return "phi [" ++ a.text ++ ", %" ++ (← f.labelName la) ++ "], [" ++ b.text ++ ", %" ++
      (← f.labelName lb) ++ "]"
  | .element b o => return "getelementptr " ++ b.text ++ ", " ++ o.text
  | .jump l => return "br %" ++ (← f.labelName l)
  | .branch c yes no =>
    return "br " ++ c.text ++ ", %" ++ (← f.labelName yes) ++ ", %" ++ (← f.labelName no)
  | .call callee args =>
    return "call @" ++ callee ++ "(" ++ ", ".intercalate (args.map (·.text)) ++ ")"
  | .ret v => return "ret " ++ v.text
  | .retVoid => return "ret void"

def instrText (i : Instr) : Except Fault String := do
  let op ← f.opText i.op
  match i.output with
  | some t => return s!"%{t} = " ++ op
  | none => return op

/-- How a block is written: its label and its instructions, a line each. -/
def blockText (l : Label) : Except Fault String := do
  let b ← f.block l
  let name ← f.labelName l
  let lines ← b.code.mapM f.instrText
  return name ++ ":\n" ++ String.join (lines.map fun line => "  " ++ line ++ "\n")

def text : Except Fault String := do
  let params := (List.range f.params).map fun i => (Value.arg i).text
  let blocks ← f.layout.mapM f.blockText
  return "define " ++ (if f.void then "void" else "int") ++ " @" ++ f.name ++ "(" ++
    ", ".intercalate params ++ ") \x7b\n" ++ String.join blocks ++ "\x7d\n"

end Function

def Global.text (g : Global) : String :=
  "@" ++ g.name ++ " = global [" ++ ", ".intercalate (g.init.map fun w => toString w.toInt) ++ "]\n"

/-- **The text of a module**: the globals, and the functions with an empty line
before each. -/
def Module.text (m : Module) : Except Fault String := do
  let functions ← m.functions.mapM (·.text)
  return String.join (m.globals.map (·.text)) ++ String.join (functions.map ("\n" ++ ·))

end SysY.IR
