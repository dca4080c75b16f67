import SysY.Fault
import SysY.IR.Basic
import SysY.Scope.Env
import SysY.Text.Position
import SysY.Token.Literal

/-!
# Symbols

What a name of a variable means to the lowering: where the variable is, what
its dimensions are, and its value if it is a constant. And what the lowering
can find wrong with a program.
-/

namespace SysY.Lower

/-- Where the words of an array are. -/
inductive Base where
  | address (v : IR.Value)
  /-- At the address that is stored in this slot: an array parameter. -/
  | pointer (slot : IR.Value)
deriving DecidableEq, Repr

/-- A variable. -/
inductive Symbol where
  | scalar (address : IR.Value) (constant : Option Int32)
  /-- An array. An array parameter has zero for its first dimension, which is
  never used. -/
  | array (base : Base) (dims : List Nat) (constant : Option (List Int32))
deriving DecidableEq, Repr

/-- The environments of the lowering. -/
abbrev Symbols := Env Symbol

/-- What can be wrong with a program that the grammar admits. -/
inductive Error where
  | notConstant
  | divisionByZero
  /-- An array cannot have this dimension, or this number of words. -/
  | badDimension (size : Int)
  | undefined (name : String)
  | literal (e : Literal.Error)
deriving DecidableEq, Repr

/-- Why a program was not lowered. -/
abbrev Stop := Failure (Located Error)

/-- Stop with an error at a place. -/
def fail {α : Type} (span : Span) (e : Error) : Except Stop α := .error (.error ⟨e, span⟩)

/-- What a name means. -/
def Symbols.resolve (env : Symbols) (name : Located String) : Except Stop Symbol :=
  match env.lookup name.value with
  | some s => .ok s
  | none => fail name.span (.undefined name.value)

/-- The value of a literal that stands at a place. -/
def literal (span : Span) (text : String) : Except Stop Int32 :=
  match Literal.decode text with
  | .ok n => .ok n
  | .error (.error e) => fail span (.literal e)
  | .error (.fault f) => .error (.fault f)

end SysY.Lower
