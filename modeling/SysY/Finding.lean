/-!
# Findings

What the judgement of a program can find wrong with it: a kind of error and
the line it is on. Findings come in the order of detection. One is *covered*
if it is on the line of the latest one that was reported, and is then not
reported itself.
-/

namespace SysY

/-- The kinds of semantic errors, in the order of their class numbers. -/
inductive FindingKind where
  /-- A variable that no scope binds. -/
  | varNotDeclared
  /-- A call of a name that no scope binds. -/
  | funcNotDefined
  /-- A variable or parameter bound twice in a scope. -/
  | varRedeclared
  /-- A function whose name the global scope has already. -/
  | funcRedefined
  /-- A value of another type than what it is assigned to. -/
  | assignMismatch
  /-- An operand that is no integer. -/
  | operatorMismatch
  /-- A result of another type than the function's. -/
  | returnMismatch
  /-- Arguments of other number or types than the parameters. -/
  | argumentMismatch
  /-- More subscripts than dimensions. -/
  | indexMismatch
  /-- A call of something that is no function. -/
  | varUsedAsFunc
  /-- An assignment to a function. -/
  | invalidAssignTarget
deriving DecidableEq, Repr

namespace FindingKind

/-- The class number of a kind, from one. -/
def ordinal (k : FindingKind) : Nat := k.ctorIdx + 1

def message : FindingKind → String
  | varNotDeclared => "Variable not declared"
  | funcNotDefined => "Function not defined"
  | varRedeclared => "Variable redeclared"
  | funcRedefined => "Function redefined"
  | assignMismatch => "Type mismatched for assignment"
  | operatorMismatch => "Type mismatched for operands"
  | returnMismatch => "Type mismatched for return"
  | argumentMismatch => "Function is not applicable for arguments"
  | indexMismatch => "Not an array"
  | varUsedAsFunc => "Not a function"
  | invalidAssignTarget => "The left-hand side of an assignment must be a variable"

/-- The name of a kind in the log. -/
def name : FindingKind → String
  | varNotDeclared => "VarNotDeclared"
  | funcNotDefined => "FuncNotDefined"
  | varRedeclared => "VarRedeclared"
  | funcRedefined => "FuncRedefined"
  | assignMismatch => "AssignMismatch"
  | operatorMismatch => "OperatorMismatch"
  | returnMismatch => "ReturnMismatch"
  | argumentMismatch => "ArgumentMismatch"
  | indexMismatch => "IndexMismatch"
  | varUsedAsFunc => "VarUsedAsFunc"
  | invalidAssignTarget => "InvalidAssignTarget"

end FindingKind

/-- A semantic error: its kind and its line. -/
structure Finding where
  kind : FindingKind
  line : Nat
deriving DecidableEq, Repr

namespace Finding

/-- The finding that covers another one, given the latest one reported. -/
def coveredBy (latest : Option Finding) (f : Finding) : Option Finding :=
  latest.filter (·.line = f.line)

/-- The findings that are reported, given the latest one reported before. -/
def reportedAfter (latest : Option Finding) : List Finding → List Finding
  | [] => []
  | f :: fs =>
    match coveredBy latest f with
    | some _ => reportedAfter latest fs
    | none => f :: reportedAfter (some f) fs

/-- **The findings that are reported**: all but the covered ones. -/
def reported (fs : List Finding) : List Finding := reportedAfter none fs

end Finding

end SysY
