import SysY.Event
import SysY.Scope.Env
import SysY.Syntax
import SysY.Ty

/-!
# Judging a program

A program is judged from top to bottom in an environment that says of each
name in scope which type it has. Every construct yields the findings of its
parts and then its own, so findings come in the order in which the parts
stand in the tree, which need not be the order of their lines.

`type?` gives the type of an expression, or nothing if it has none; it says
nothing about what is wrong. `findings` says what is wrong. A declaration
also gives the environment for what follows it; a name is in scope in its
own dimensions and initial value, and a function in its own body.
-/

namespace SysY

/-- The environments of the judgement: names and their types. -/
abbrev TyEnv := Env Ty

variable (env : TyEnv)

/-! ## Types of expressions -/

/-- The type of a variable with a number of subscripts. A function's name has
the function's type, whatever the subscripts. -/
def TyEnv.lvalType? (name : String) (subscripts : Nat) : Option Ty :=
  match env.lookup name with
  | none => none
  | some (.function r ps) => some (.function r ps)
  | some t => t.peel subscripts

/-- The type of an expression. A call has one only if the function gives back
an integer. -/
def Expr.type? (env : TyEnv) : Expr → Option Ty
  | number .. => some .int
  | lval _ x is => env.lvalType? x.value is.length
  | call _ f _ =>
    match env.lookup f.value with
    | some (.function .int _) => some .int
    | _ => none
  | unary _ _ e => (e.type? env).filter (· = .int)
  | binary _ _ a b =>
    match a.type? env, b.type? env with
    | some s, some t => if s = t then some s else none
    | _, _ => none
  | paren _ e => e.type? env

def Cond.type? (env : TyEnv) : Cond → Option Ty
  | expr e => e.type? env
  | compare _ _ a b | logic _ _ a b =>
    match a.type? env, b.type? env with
    | some s, some t => if s = t then some s else none
    | _, _ => none

/-- The type of an initial value; that of a list has depth one, whatever is in
it. -/
def InitVal.type? : InitVal → Option Ty
  | expr e => e.type? env
  | list .. => some (.array .int)

/-- The type of a parameter: an array parameter has one dimension more than
are written. -/
def Parameter.type (p : Parameter) : Ty :=
  match p.array with
  | none => .int
  | some dims => .arrayOf .int (dims.length + 1)

def ReturnType.type : ReturnType → Ty
  | int => .int
  | void => .void

def FunctionDef.type (f : FunctionDef) : Ty := .function f.returns.type (f.params.map (·.type))

/-! ## Findings -/

/-- A finding, unless a condition holds. -/
def Finding.unless (ok : Bool) (kind : FindingKind) (line : Nat) : List Finding :=
  if ok then [] else [⟨kind, line⟩]

/-- Whether arguments have the types of the parameters, one by one. -/
def Expr.applicable (env : TyEnv) : List Ty → List Expr → Bool
  | [], [] => true
  | t :: ts, e :: es => e.type? env = some t && applicable env ts es
  | _, _ => false

mutual

/-- **What is wrong with an expression.** -/
def Expr.findings (env : TyEnv) : Expr → List Finding
  | number .. => []
  | lval _ x is =>
    if (env.lookup x.value).isNone then [⟨.varNotDeclared, x.line⟩]
    else if (env.lvalType? x.value is.length).isNone then [⟨.indexMismatch, x.line⟩]
    else Expr.findingsAll env is
  | call span f args =>
    match env.lookup f.value with
    | some (.function _ ps) =>
      let line := (args.head?.map (·.span.line)).getD span.line
      Expr.findingsAll env args ++
        Finding.unless (Expr.applicable env ps args) .argumentMismatch line
    | some _ => [⟨.varUsedAsFunc, f.line⟩]
    | none => [⟨.funcNotDefined, f.line⟩]
  | unary _ op e =>
    e.findings env ++ Finding.unless (e.type? env = some .int) .operatorMismatch op.line
  | binary span _ a b =>
    a.findings env ++ b.findings env ++
      Finding.unless (a.type? env = some .int && b.type? env = some .int)
        .operatorMismatch span.line
  | paren _ e => e.findings env

def Expr.findingsAll (env : TyEnv) : List Expr → List Finding
  | [] => []
  | e :: es => e.findings env ++ Expr.findingsAll env es

end

def LVal.findings (l : LVal) : List Finding :=
  (Expr.lval l.span l.name l.indices).findings env

/-- What is wrong with a condition. Every part of it has to be an integer. -/
def Cond.findings (env : TyEnv) (c : Cond) : List Finding :=
  (match c with
    | expr e => e.findings env
    | compare _ _ a b | logic _ _ a b => a.findings env ++ b.findings env) ++
  Finding.unless (c.type? env = some .int) .operatorMismatch c.span.line

mutual

/-- What is wrong with an initial value, its type apart. -/
def InitVal.findings (env : TyEnv) : InitVal → List Finding
  | expr e => e.findings env
  | list _ items => InitVal.findingsAll env items

def InitVal.findingsAll (env : TyEnv) : List InitVal → List Finding
  | [] => []
  | i :: is => i.findings env ++ InitVal.findingsAll env is

end

/-- Whether an initial value may be given to a variable of a type: the types
agree, or both are arrays. -/
def Initializer.suits (declared : Ty) (i : Initializer) : Bool :=
  match i.value.type? env with
  | some t => declared = t || declared.isArray && t.isArray
  | none => false

/-- What is wrong with an initial value for a variable of a type. -/
def Initializer.findings (declared : Ty) (i : Initializer) : List Finding :=
  i.value.findings env ++ Finding.unless (i.suits env declared) .assignMismatch i.mark.line

/-- The type that a definition declares. -/
def Definition.type (d : Definition) : Ty := .arrayOf .int d.dims.length

/-- **Judge a definition**: the environment after it, and what is wrong. If
the name is taken, nothing else of it is looked at. -/
def Definition.judge (d : Definition) : TyEnv × List Finding :=
  match env.declare? d.name.value d.type with
  | none => (env, [⟨.varRedeclared, d.name.line⟩])
  | some env =>
    (env, Expr.findingsAll env d.dims ++
      (match d.init with
        | some i => i.findings env d.type
        | none => []))

/-- Judge things one after the other, each in the environment that the ones
before it leave. -/
def TyEnv.judgeAll {α : Type} (judge : TyEnv → α → TyEnv × List Finding) :
    TyEnv → List α → TyEnv × List Finding
  | env, [] => (env, [])
  | env, x :: xs =>
    let (env, here) := judge env x
    let (env, later) := TyEnv.judgeAll judge env xs
    (env, here ++ later)

def Decl.judge (d : Decl) : TyEnv × List Finding :=
  TyEnv.judgeAll Definition.judge env d.definitions

mutual

/-- **What is wrong with a statement** of a function that gives back
`returns`. -/
def Stmt.findings (returns : Ty) (env : TyEnv) : Stmt → List Finding
  | .assign target mark value =>
    match env.lookup target.name.value with
    | some (.function ..) => [⟨.invalidAssignTarget, mark.line⟩]
    | _ =>
      let left := env.lvalType? target.name.value target.indices.length
      target.findings env ++ value.findings env ++
        Finding.unless (left.isSome && left = value.type? env) .assignMismatch mark.line
  | .eval none => []
  | .eval (some e) => e.findings env
  | .block b => b.findings returns env.enter
  | .if_ c s rest => c.findings env ++ s.findings returns env ++ rest.findings returns env
  | .while_ c s => c.findings env ++ s.findings returns env
  | .break_ _ | .continue_ _ => []
  | .return_ keyword none => Finding.unless (returns = .void) .returnMismatch keyword.line
  | .return_ _ (some e) =>
    e.findings env ++ Finding.unless (e.type? env = some returns) .returnMismatch e.span.line

/-- What is wrong with the items of a block, whose frame is open. -/
def Block.findings (returns : Ty) (env : TyEnv) : Block → List Finding
  | .nil => []
  | .decl d rest =>
    let (env', here) := d.judge env
    here ++ rest.findings returns env'
  | .stmt s rest => s.findings returns env ++ rest.findings returns env

def Otherwise.findings (returns : Ty) (env : TyEnv) : Otherwise → List Finding
  | .done => []
  | .else_ s => s.findings returns env
  | .elseIf c s rest => c.findings env ++ s.findings returns env ++ rest.findings returns env

end

/-- Judge a parameter, in the frame of the parameters. -/
def Parameter.judge (p : Parameter) : TyEnv × List Finding :=
  match env.declare? p.name.value p.type with
  | none => (env, [⟨.varRedeclared, p.name.line⟩])
  | some env => (env, Expr.findingsAll env (p.array.getD []))

/-- **Judge a function.** Its name is in scope in its body; the parameters have
a frame of their own, outside the body's. -/
def FunctionDef.judge (f : FunctionDef) : TyEnv × List Finding :=
  match env.declare? f.name.value f.type with
  | none => (env, [⟨.funcRedefined, f.name.line⟩])
  | some env =>
    let (inner, ofParams) := TyEnv.judgeAll Parameter.judge env.enter f.params
    (env, ofParams ++ f.body.findings f.returns.type inner.enter)

def TopLevel.judge : TopLevel → TyEnv × List Finding
  | decl d => d.judge env
  | function f => f.judge env

/-- **All that is wrong with a program,** in the order of detection. -/
def Program.findings (p : Program) : List Finding :=
  (TyEnv.judgeAll TopLevel.judge [[]] p.units).2

/-- The events of reporting findings, given the latest one reported before. -/
def Finding.eventsAfter (latest : Option Finding) : List Finding → List Event
  | [] => []
  | f :: fs =>
    match coveredBy latest f with
    | some g => .covered f g.kind :: eventsAfter latest fs
    | none => .reported f :: eventsAfter (some f) fs

/-- What the judgement of a program comes to. -/
structure Verdict where
  errors : List Finding
  events : List Event
deriving DecidableEq, Repr

/-- **Check a program.** It is accepted if there are no errors. -/
def Program.check (p : Program) : Verdict :=
  let found := p.findings
  let errors := Finding.reported found
  { errors
    events := .checking p.units.length :: Finding.eventsAfter none found ++
      [.checked errors.length] }

def Program.accepted (p : Program) : Bool := p.check.errors.isEmpty

end SysY
