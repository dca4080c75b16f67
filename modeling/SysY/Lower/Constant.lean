import SysY.Lower.Symbol
import SysY.Syntax

/-!
# Constant expressions

The value of an expression that is known when the program is compiled:
arithmetic on literals and on constants, in 32 bits with wrap-around. An
element of a constant array is a constant if its subscripts are and are in
range.
-/

namespace SysY.Lower

/-- The value of an operator before an operand. -/
def unaryValue (op : UnaryOp) (n : Int32) : Int32 :=
  match op with
  | .plus => n
  | .minus => -n
  | .not => if n = 0 then 1 else 0

/-- The value of an operator between two operands; none for a division by
zero. -/
def binaryValue (op : BinOp) (a b : Int32) : Option Int32 :=
  match op with
  | .add => some (a + b)
  | .sub => some (a - b)
  | .mul => some (a * b)
  | .div => if b = 0 then none else some (a / b)
  | .mod => if b = 0 then none else some (a % b)

/-- The offset that one more subscript of a dimension gives, if it is in
range. -/
def offsetStep (offset size : Nat) (index : Int32) : Option Nat :=
  if 0 ≤ index.toInt ∧ index.toInt < size then some (offset * size + index.toInt.toNat) else none

mutual

/-- **The value of a constant expression.** -/
def evalConst (env : Symbols) : Expr → Except Stop Int32
  | .number span text => literal span text
  | .paren _ e => evalConst env e
  | .unary _ op e => return unaryValue op.value (← evalConst env e)
  | .binary span op a b => do
    let x ← evalConst env a
    let y ← evalConst env b
    match binaryValue op x y with
    | some n => return n
    | none => fail span .divisionByZero
  | .lval span name indices => do
    match ← env.resolve name with
    | .scalar _ (some n) => if indices.isEmpty then return n else fail span .notConstant
    | .array _ dims (some values) =>
      if indices.length = dims.length then
        let offset ← evalOffset env span 0 indices dims
        match values[offset]? with
        | some n => return n
        | none => fail span .notConstant
      else fail span .notConstant
    | _ => fail span .notConstant
  | .call span .. => fail span .notConstant

/-- The offset of the element that subscripts select, row by row. An index out
of range makes the whole expression, which stands at `span`, no constant. -/
def evalOffset (env : Symbols) (span : Span) (offset : Nat) : List Expr → List Nat → Except Stop Nat
  | e :: es, size :: sizes => do
    match offsetStep offset size (← evalConst env e) with
    | some offset => evalOffset env span offset es sizes
    | none => fail span .notConstant
  | _, _ => return offset

end

/-- The dimensions of an array: constant and positive. -/
def evalDims (env : Symbols) : List Expr → Except Stop (List Nat)
  | [] => return []
  | e :: es => do
    let n ← evalConst env e
    if 0 < n.toInt then
      return n.toInt.toNat :: (← evalDims env es)
    else fail e.span (.badDimension n.toInt)

end SysY.Lower
