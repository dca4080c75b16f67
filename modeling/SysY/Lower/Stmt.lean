import SysY.Lower.Constant
import SysY.Lower.Expr

/-!
# Lowering conditions and statements

A condition is evaluated to an integer; where a decision is taken, it is
compared with zero. The right operand of a connective has a block of its own
that is entered only if it matters, and a phi joins the two outcomes: its
labels are the blocks in which the operands *end*, which are not the ones in
which they begin if the operands have connectives themselves.

A statement is code. After `break`, `continue` and `return` the code goes on
in a block that nothing leads to, so that there is always a current block.
Outside of a loop `break` and `continue` do nothing.
-/

namespace SysY.Lower

open IR (Value Op Instr Label Temp)

/-! ## Conditions -/

def cmpOp : CmpOp → IR.CmpOp
  | .equal => .eq
  | .notEqual => .ne
  | .less => .lt
  | .greater => .gt
  | .lessEqual => .le
  | .greaterEqual => .ge

/-- Whether a value is not zero. -/
def truth (lowered : Gen (Code × Value)) : Gen (Code × Value) := do
  let (code, v) ← lowered
  let (test, r) ← define (.compare .ne v (.const 0))
  return (code ++ straight test, r)

/-- The code of a connective, given that of its operands' truth. -/
def connect (op : LogicOp) (lhs rhs : Gen (Code × Value)) : Gen (Code × Value) := do
  let (c1, left) ← lhs
  let leftEnd ← currentBlock
  let rhsBlock ← newBlock "cond_rhs"
  let phiBlock ← newBlock "cond_phi"
  let branch := match op with
    | .and => Op.branch left rhsBlock phiBlock
    | .or => Op.branch left phiBlock rhsBlock
  let startRhs ← startBlock rhsBlock
  let (c2, right) ← rhs
  let rightEnd ← currentBlock
  let startPhi ← startBlock phiBlock
  let (join, joined) ← define (.phi left leftEnd right rightEnd)
  let (widen, r) ← define (.zext joined)
  return (c1 ++ perform branch ++ startRhs ++ c2 ++ perform (.jump phiBlock) ++ startPhi ++
    straight (join ++ widen), r)

/-- **The code of a condition** and its value, an integer. -/
def lowerCond (ctx : Context) : Cond → Gen (Code × Value)
  | .expr e => do
    let (code, v) ← lowerExpr ctx e
    return (straight code, v)
  | .compare _ op a b => do
    let (c1, x) ← lowerCond ctx a
    let (c2, y) ← lowerCond ctx b
    let (test, t) ← define (.compare (cmpOp op) x y)
    let (widen, r) ← define (.zext t)
    return (c1 ++ c2 ++ straight (test ++ widen), r)
  | .logic _ op a b => connect op (truth (lowerCond ctx a)) (truth (lowerCond ctx b))

/-! ## Declarations -/

/-- The values of constants that are initialised word by word; a word that
nothing is given for is zero. -/
def evalItems (env : Symbols) : List (Option Expr) → Except Stop (List Int32)
  | [] => return []
  | none :: items => return 0 :: (← evalItems env items)
  | some e :: items => do
    let n ← evalConst env e
    return n :: (← evalItems env items)

/-- The code of what a word is initialised with: the constant if it is known,
else the expression, else zero. -/
def initialValue (ctx : Context) (constant : Option Int32) (item : Option Expr) :
    Gen (List Instr × Value) :=
  match constant, item with
  | some n, _ => return ([], .const n)
  | none, some e => lowerExpr ctx e
  | none, none => return ([], .const 0)

/-- The code that initialises the words of an array from number `i` on. -/
def storeItems (ctx : Context) (base : Value) (constants : Option (List Int32)) (i : Nat) :
    List (Option Expr) → Gen (List Instr)
  | [] => return []
  | item :: items => do
    let (c1, v) ← initialValue ctx (constants.bind (·.head?)) item
    let (c2, target) ← define (.element base (.const (Int32.ofNat i)))
    let rest ← storeItems ctx base (constants.map (·.tail)) (i + 1) items
    return c1 ++ c2 ++ ⟨none, .store v target⟩ :: rest

/-- What the words of a local variable are initialised with, if it has an
initial value. -/
def definitionItems (dims : List Nat) : Option Initializer → Except Stop (Option (List (Option Expr)))
  | none => return none
  | some init => do
    let _ ← wordVolume dims
    return some (layOut dims init.value)

/-- The values of the words of a constant that has an initial value. -/
def knownValues (constant : Bool) (env : Symbols) (items : Option (List (Option Expr))) :
    Except Stop (Option (List Int32)) :=
  match constant, items with
  | true, some items => return some (← evalItems env items)
  | _, _ => return none

/-- **The code of a local definition**, and the environment after it. The name
is in scope in its own initial value, except in a constant one, which is
evaluated before. A scalar without an initial value is zero; the words of an
array without one are left as they are. -/
def lowerDefinition (constant : Bool) (ctx : Context) (d : Definition) :
    Gen (List Instr × Symbols) := do
  let dims ← evalDims ctx.symbols d.dims
  let items ← definitionItems dims d.init
  let constants ← knownValues constant ctx.symbols items
  if dims.isEmpty then
    let (room, slot) ← define .alloca
    let known := constants.bind (·.head?)
    let symbols := ctx.symbols.bind d.name.value (.scalar slot known)
    let item := (items.bind (·.head?)).join
    let (code, v) ← initialValue { ctx with symbols } known item
    return (room ++ code ++ [⟨none, .store v slot⟩], symbols)
  else
    let words ← checkedWords dims d.name
    let (room, base) ← define (.array words)
    let symbols := ctx.symbols.bind d.name.value (.array (.address base) dims constants)
    let code ← storeItems { ctx with symbols } base constants 0 (items.getD [])
    return (room ++ code, symbols)

/-- The code of definitions one after the other, and the environment after
them. -/
def lowerDefinitions (constant : Bool) (ctx : Context) :
    List Definition → Gen (List Instr × Symbols)
  | [] => return ([], ctx.symbols)
  | d :: ds => do
    let (c1, symbols) ← lowerDefinition constant ctx d
    let (c2, symbols) ← lowerDefinitions constant { ctx with symbols } ds
    return (c1 ++ c2, symbols)

/-! ## Statements -/

/-- The code of a branch of an `if`, after which the code goes on where the
condition did not hold. -/
def branchCode (join : Label) (cond : Gen (Code × Value)) (body : Gen Code) : Gen Code := do
  let yes ← newBlock "if_true"
  let no ← newBlock "if_false"
  let (c1, v) ← cond
  let startYes ← startBlock yes
  let c2 ← body
  let startNo ← startBlock no
  return c1 ++ perform (.branch v yes no) ++ startYes ++ c2 ++ perform (.jump join) ++ startNo

/-- The code of a loop; its body is told where `continue` and `break` lead. -/
def loopCode (cond : Gen (Code × Value)) (body : Loop → Gen Code) : Gen Code := do
  let condBlock ← newBlock "while_cond"
  let bodyBlock ← newBlock "while_body"
  let nextBlock ← newBlock "while_next"
  let startCond ← startBlock condBlock
  let (c1, v) ← cond
  let startBody ← startBlock bodyBlock
  let c2 ← body ⟨condBlock, nextBlock⟩
  let startNext ← startBlock nextBlock
  return perform (.jump condBlock) ++ startCond ++ c1 ++ perform (.branch v bodyBlock nextBlock) ++
    startBody ++ c2 ++ perform (.jump condBlock) ++ startNext

/-- The code of a jump to a block of the innermost loop, if there is one. -/
def leaveTo (target : Option Label) : Gen Code :=
  match target with
  | some l => deadEnd (.jump l)
  | none => return []

mutual

/-- **The code of a statement.** -/
def lowerStmt (ctx : Context) : Stmt → Gen Code
  | .assign target _ value => do
    let (c1, v) ← lowerExpr ctx value
    let (c2, address, _) ← lowerAddress ctx target.name target.indices
    return straight (c1 ++ c2) ++ perform (.store v address)
  | .eval none => return []
  | .eval (some e) => do
    let (code, _) ← lowerExpr ctx e
    return straight code
  | .block b => lowerBlock { ctx with symbols := ctx.symbols.enter } b
  | .if_ cond body rest => do
    let join ← newBlock "if_end"
    let c1 ← branchCode join (truth (lowerCond ctx cond)) (lowerStmt ctx body)
    let c2 ← lowerOtherwise ctx join rest
    let startJoin ← startBlock join
    return c1 ++ c2 ++ perform (.jump join) ++ startJoin
  | .while_ cond body =>
    loopCode (truth (lowerCond ctx cond)) fun loop => lowerStmt { ctx with loop := some loop } body
  | .break_ _ => leaveTo (ctx.loop.map (·.next))
  | .continue_ _ => leaveTo (ctx.loop.map (·.cond))
  | .return_ _ none => deadEnd .retVoid
  | .return_ _ (some e) => do
    let (code, v) ← lowerExpr ctx e
    return straight code ++ (← deadEnd (.ret v))

/-- The code of the items of a block, whose frame is open. -/
def lowerBlock (ctx : Context) : Block → Gen Code
  | .nil => return []
  | .decl d rest => do
    let (c1, symbols) ← lowerDefinitions d.constant ctx d.definitions
    let c2 ← lowerBlock { ctx with symbols } rest
    return straight c1 ++ c2
  | .stmt s rest => do
    let c1 ← lowerStmt ctx s
    let c2 ← lowerBlock ctx rest
    return c1 ++ c2

/-- The code of the alternatives of an `if`, in the block where no condition
before them held. -/
def lowerOtherwise (ctx : Context) (join : Label) : Otherwise → Gen Code
  | .done => return []
  | .else_ s => lowerStmt ctx s
  | .elseIf cond body rest => do
    let c1 ← branchCode join (truth (lowerCond ctx cond)) (lowerStmt ctx body)
    let c2 ← lowerOtherwise ctx join rest
    return c1 ++ c2

end

end SysY.Lower
