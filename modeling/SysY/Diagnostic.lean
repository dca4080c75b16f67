import SysY.Finding
import SysY.Lower.Symbol
import SysY.Syntax.Parser
import SysY.Token.Scan

/-!
# Diagnostics

How errors are shown: a line each, with the class of the error, the line of
the program it is on, and its wording. Semantic errors have a class of their
own, their number; the others take the class of the set they are shown in.
-/

namespace SysY

def Lower.Error.message : Lower.Error → String
  | notConstant => "Expression is not a compile-time constant"
  | divisionByZero => "Division by zero in constant expression"
  | badDimension size => s!"Invalid array dimension `{size}`"
  | undefined name => "Symbol `" ++ name ++ "` is undefined"
  | literal e => (Scan.Error.literal e).message

/-- One error, ready to be shown. -/
structure Diagnostic where
  /-- The class, if the error has one of its own. -/
  ownClass : Option String
  line : Nat
  message : String
deriving DecidableEq, Repr

namespace Diagnostic

def ofScan (e : Located Scan.Error) : Diagnostic := ⟨none, e.line, e.value.message⟩

def ofParse (e : Located Parser.Error) : Diagnostic := ⟨none, e.line, e.value.message⟩

def ofFinding (f : Finding) : Diagnostic := ⟨some (toString f.kind.ordinal), f.line, f.kind.message⟩

def ofLower (e : Located Lower.Error) : Diagnostic := ⟨none, e.line, e.value.message⟩

/-- The line that shows an error in a set of a class. -/
def text (kind : String) (d : Diagnostic) : String :=
  "Error type " ++ d.ownClass.getD kind ++ s!" at Line {d.line}: " ++ d.message ++ "\n"

end Diagnostic

/-- A set of errors, in order. -/
structure Diagnostics where
  /-- The class of the errors that have none of their own. -/
  kind : String := "error"
  entries : List Diagnostic := []
deriving DecidableEq, Repr

def Diagnostics.text (d : Diagnostics) : String := String.join (d.entries.map (·.text d.kind))

end SysY
