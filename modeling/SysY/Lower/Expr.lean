import SysY.Lower.Code
import SysY.Lower.Initializer

/-!
# Lowering expressions

An expression becomes straight-line code, a list of instructions, and a value
that stands for its result. Operands and arguments are evaluated from left to
right. A variable is an address that is loaded from; of an array, fewer
subscripts than dimensions give the address of a row.

The offset of an element is built up subscript by subscript, multiplying by
the next dimension before the next subscript is evaluated; what dimensions
remain scale it by the size of a row.
-/

namespace SysY.Lower

open IR (Value Op Instr Label Temp)

/-- What calls need to know of a function. -/
structure Signature where
  void : Bool
  params : Nat
deriving DecidableEq, Repr

/-- Where `continue` and `break` lead. -/
structure Loop where
  cond : Label
  next : Label
deriving DecidableEq, Repr

/-- What names mean at a place of a program, and which loop it is in. -/
structure Context where
  symbols : Symbols
  /-- The functions, the latest first. -/
  functions : Frame Signature
  loop : Option Loop := none

/-- The function that a name means. -/
def Context.function (ctx : Context) (name : Ident) : Except Stop Signature :=
  match List.lookup name.value ctx.functions with
  | some s => .ok s
  | none => fail name.span (.undefined name.value)

def binOp : BinOp → IR.BinOp
  | .add => .add
  | .sub => .sub
  | .mul => .mul
  | .div => .div
  | .mod => .rem

/-- The address of the first word of an array. -/
def baseAddress : Base → Gen (List Instr × Value)
  | .address v => return ([], v)
  | .pointer slot => define (.load slot)

/-- The code of an operator before an operand. -/
def unaryCode (op : UnaryOp) (v : Value) : Gen (List Instr × Value) := do
  match op with
  | .plus => return ([], v)
  | .minus => define (.binary .sub (.const 0) v)
  | .not =>
    let (c1, zero) ← define (.compare .eq v (.const 0))
    let (c2, r) ← define (.zext zero)
    return (c1 ++ c2, r)

/-- The code that scales an offset by the size of the rows that remain
unselected, if there are dimensions left. -/
def scaleByRow (offset : Value) (rest : List Nat) : Gen (List Instr × Value) := do
  if rest.isEmpty then
    return ([], offset)
  else
    let stride ← wordVolume rest
    define (.binary .mul offset (.const (Int32.ofNat stride)))

mutual

/-- **The code of an expression** and the value of its result. -/
def lowerExpr (ctx : Context) : Expr → Gen (List Instr × Value)
  | .number span text => return ([], .const (← literal span text))
  | .paren _ e => lowerExpr ctx e
  | .lval _ name indices => do
    let (code, address, isScalar) ← lowerAddress ctx name indices
    if isScalar then
      let (load, v) ← define (.load address)
      return (code ++ load, v)
    else
      return (code, address)
  | .unary _ op e => do
    let (c1, v) ← lowerExpr ctx e
    let (c2, r) ← unaryCode op.value v
    return (c1 ++ c2, r)
  | .binary _ op a b => do
    let (c1, x) ← lowerExpr ctx a
    let (c2, y) ← lowerExpr ctx b
    let (c3, r) ← define (.binary (binOp op) x y)
    return (c1 ++ c2 ++ c3, r)
  | .call _ callee args => do
    let signature ← ctx.function callee
    let (code, values) ← lowerArgs ctx args
    let op := Op.call callee.value values
    if signature.void then
      return (code ++ [⟨none, op⟩], .const 0)
    else
      let (call, r) ← define op
      return (code ++ call, r)

def lowerArgs (ctx : Context) : List Expr → Gen (List Instr × List Value)
  | [] => return ([], [])
  | e :: es => do
    let (c1, v) ← lowerExpr ctx e
    let (c2, vs) ← lowerArgs ctx es
    return (c1 ++ c2, v :: vs)

/-- The code of the address of a variable, an element or a row, and whether
there is a scalar at it. Subscripts on a scalar are not looked at. -/
def lowerAddress (ctx : Context) (name : Ident) (indices : List Expr) :
    Gen (List Instr × Value × Bool) := do
  match ← ctx.symbols.resolve name with
  | .scalar address _ => return ([], address, true)
  | .array base dims _ =>
    let (c1, base) ← baseAddress base
    match indices with
    | [] => return (c1, base, false)
    | e :: es =>
      let (c2, first) ← lowerExpr ctx e
      let (c3, offset) ← lowerOffset ctx first es dims.tail
      let rest := dims.drop (es.length + 1)
      let (c4, offset) ← scaleByRow offset rest
      let (c5, address) ← define (.element base offset)
      return (c1 ++ c2 ++ c3 ++ c4 ++ c5, address, rest.isEmpty)

/-- The code that goes on from the offset of the first subscripts with the
ones after them, each with its dimension. -/
def lowerOffset (ctx : Context) (offset : Value) : List Expr → List Nat → Gen (List Instr × Value)
  | e :: es, size :: sizes => do
    let (c1, scaled) ← define (.binary .mul offset (.const (Int32.ofNat size)))
    let (c2, index) ← lowerExpr ctx e
    let (c3, sum) ← define (.binary .add scaled index)
    let (c4, r) ← lowerOffset ctx sum es sizes
    return (c1 ++ c2 ++ c3 ++ c4, r)
  | _, _ => return ([], offset)

end

end SysY.Lower
