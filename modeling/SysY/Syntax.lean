import SysY.Text.Position

/-!
# Syntax trees

The tree of a SysY program. Every expression and condition knows the span it
was read from, and so do the names, the operators and the `=` marks that a
diagnostic may point at.

The shapes that a program cannot have are left out of the types: a
declaration declares at least one name, an `if` has at least one branch, and
the alternatives of an `if` are one chain that ends in at most one `else`.
-/

namespace SysY

/-- A name of the program and where it stands. -/
abbrev Ident := Located String

inductive UnaryOp where
  | plus
  | minus
  | not
deriving DecidableEq, Repr

/-- The arithmetic operators. -/
inductive BinOp where
  | add
  | sub
  | mul
  | div
  | mod
deriving DecidableEq, Repr

inductive CmpOp where
  | equal
  | notEqual
  | less
  | greater
  | lessEqual
  | greaterEqual
deriving DecidableEq, Repr

/-- The connectives of conditions. -/
inductive LogicOp where
  | and
  | or
deriving DecidableEq, Repr

inductive Expr where
  /-- An integer literal, by its text. -/
  | number (span : Span) (text : String)
  /-- A variable, or an element or a row of an array. -/
  | lval (span : Span) (name : Ident) (indices : List Expr)
  | call (span : Span) (callee : Ident) (args : List Expr)
  | unary (span : Span) (op : Located UnaryOp) (operand : Expr)
  | binary (span : Span) (op : BinOp) (lhs rhs : Expr)
  | paren (span : Span) (inner : Expr)
deriving Repr

def Expr.span : Expr → Span
  | number s _ | lval s _ _ | call s _ _ | unary s _ _ | binary s _ _ _ | paren s _ => s

/-- The target of an assignment. -/
structure LVal where
  span : Span
  name : Ident
  indices : List Expr
deriving Repr

/-- The conditions of `if` and `while`. -/
inductive Cond where
  /-- An expression, which holds if it is not zero. -/
  | expr (e : Expr)
  /-- A comparison; its value is an integer and may be compared again. -/
  | compare (span : Span) (op : CmpOp) (lhs rhs : Cond)
  | logic (span : Span) (op : LogicOp) (lhs rhs : Cond)
deriving Repr

def Cond.span : Cond → Span
  | expr e => e.span
  | compare s _ _ _ | logic s _ _ _ => s

/-- What a variable is initialised with: an expression or a braced list. -/
inductive InitVal where
  | expr (e : Expr)
  | list (span : Span) (items : List InitVal)
deriving Repr

def InitVal.span : InitVal → Span
  | expr e => e.span
  | list s _ => s

/-- An initial value and the `=` before it. -/
structure Initializer where
  /-- The `=`. -/
  mark : Span
  value : InitVal
deriving Repr

/-- One name of a declaration. -/
structure Definition where
  name : Ident
  /-- The dimensions; none for a scalar. -/
  dims : List Expr
  init : Option Initializer
deriving Repr

/-- A declaration of constants or of variables. -/
structure Decl where
  constant : Bool
  first : Definition
  others : List Definition
deriving Repr

def Decl.definitions (d : Decl) : List Definition := d.first :: d.others

mutual

inductive Stmt where
  /-- An assignment; `mark` is its `=`. -/
  | assign (target : LVal) (mark : Span) (value : Expr)
  /-- An expression for its effect; nothing for the empty statement. -/
  | eval (e : Option Expr)
  | block (b : Block)
  /-- A condition, what to do if it holds, and what else. -/
  | if_ (cond : Cond) (body : Stmt) (rest : Otherwise)
  | while_ (cond : Cond) (body : Stmt)
  | break_ (keyword : Span)
  | continue_ (keyword : Span)
  | return_ (keyword : Span) (value : Option Expr)

/-- The declarations and statements of a block, in order. -/
inductive Block where
  | nil
  | decl (d : Decl) (rest : Block)
  | stmt (s : Stmt) (rest : Block)

/-- What follows the first branch of an `if`. -/
inductive Otherwise where
  | done
  | else_ (s : Stmt)
  | elseIf (cond : Cond) (body : Stmt) (rest : Otherwise)

end

deriving instance Repr for Stmt, Block, Otherwise

/-- What a function gives back. -/
inductive ReturnType where
  | int
  | void
deriving DecidableEq, Repr

structure Parameter where
  name : Ident
  /-- For an array parameter its dimensions after the first, which is never
  written; nothing for an integer. -/
  array : Option (List Expr)
deriving Repr

structure FunctionDef where
  returns : ReturnType
  name : Ident
  params : List Parameter
  body : Block
deriving Repr

/-- What stands at the top level of a program. -/
inductive TopLevel where
  | decl (d : Decl)
  | function (f : FunctionDef)
deriving Repr

structure Program where
  units : List TopLevel
deriving Repr

end SysY
