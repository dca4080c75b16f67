import SysY.Check
import SysY.Proofs.Lower.Constant

/-!
# Renaming a local declaration

A parameter or a definition inside a function gets a new name, and with it the
occurrences of its old name that mean it. Which these are is found as the
judgement finds them: a `Renaming` goes through the function with the names
that are in scope, each marked if it means the renamed declaration, and a name
is in scope from its own declaration on.

Declarations are counted in the order of the text, so that a number says which
one is renamed (`Program.locals`).

The lowering brings a name into scope later than the judgement does: the
dimensions of a definition, and the initial value of a constant, are evaluated
before (`Definition.early`). `Program.readsAlike` says that this makes no
difference to the renamed declaration.
-/

namespace SysY

/-! ## Renamings -/

/-- A renaming under way. -/
structure Renaming where
  newName : String
  /-- The local names in scope, each with whether it means the renamed
  declaration. -/
  marks : Env Bool
  /-- How many declarations there are before the renamed one; nothing once it
  has been passed. -/
  before : Option Nat

variable (r : Renaming)

namespace Renaming

/-- Whether a name means the renamed declaration. -/
def marked (x : String) : Bool := r.marks.lookup x = some true

/-- What an occurrence of a name becomes. -/
def name (x : String) : String := if r.marked x then r.newName else x

/-- What an occurrence of a name becomes, at its place. -/
def ident (x : Ident) : Ident := { x with value := r.name x.value }

/-- Go into a frame. -/
def enter : Renaming := { r with marks := r.marks.enter }

/-- Pass a number of declarations that go out of scope again. -/
def skip (n : Nat) : Renaming :=
  { r with before := r.before.bind fun k => if k < n then none else some (k - n) }

/-- Pass a declaration, which may be the one to rename. -/
def declare (x : Ident) : Renaming :=
  { r.skip 1 with marks := r.marks.bind x.value (r.before = some 0) }

/-- Pass declarations one after the other. -/
def declareAll (r : Renaming) : List Ident → Renaming
  | [] => r
  | x :: xs => (r.declare x).declareAll xs

/-- Go through things that declare a name each, one after the other. -/
def through {α β : Type} (name : α → Ident) (f : Renaming → α → β) (r : Renaming) :
    List α → List β
  | [] => []
  | x :: xs => f r x :: through name f (r.declare (name x)) xs

end Renaming

/-! ## Expressions -/

mutual

/-- An expression after a renaming. -/
def Expr.rename : Expr → Expr
  | number span text => .number span text
  | lval span x is => .lval span (r.ident x) (Expr.renameAll is)
  | call span f args => .call span (r.ident f) (Expr.renameAll args)
  | unary span op e => .unary span op e.rename
  | binary span op a b => .binary span op a.rename b.rename
  | paren span e => .paren span e.rename

def Expr.renameAll : List Expr → List Expr
  | [] => []
  | e :: es => e.rename :: Expr.renameAll es

end

mutual

/-- The names in an expression. -/
def Expr.idents : Expr → List String
  | number .. => []
  | lval _ x is => x.value :: Expr.identsAll is
  | call _ f args => f.value :: Expr.identsAll args
  | unary _ _ e | paren _ e => e.idents
  | binary _ _ a b => a.idents ++ b.idents

def Expr.identsAll : List Expr → List String
  | [] => []
  | e :: es => e.idents ++ Expr.identsAll es

end

def LVal.rename (l : LVal) : LVal :=
  { l with name := r.ident l.name, indices := Expr.renameAll r l.indices }

def LVal.idents (l : LVal) : List String := l.name.value :: Expr.identsAll l.indices

def Cond.rename : Cond → Cond
  | expr e => .expr (e.rename r)
  | compare span op a b => .compare span op a.rename b.rename
  | logic span op a b => .logic span op a.rename b.rename

def Cond.idents : Cond → List String
  | expr e => e.idents
  | compare _ _ a b | logic _ _ a b => a.idents ++ b.idents

mutual

def InitVal.rename : InitVal → InitVal
  | expr e => .expr (e.rename r)
  | list span items => .list span (InitVal.renameAll items)

def InitVal.renameAll : List InitVal → List InitVal
  | [] => []
  | i :: is => i.rename :: InitVal.renameAll is

end

def InitVal.idents (i : InitVal) : List String := i.exprs.flatMap Expr.idents

/-! ## Declarations -/

/-- The names in the initial value of a definition, if it has one. -/
def Definition.initIdents (d : Definition) : List String :=
  match d.init with
  | some i => i.value.idents
  | none => []

def Definition.idents (d : Definition) : List String :=
  d.name.value :: (Expr.identsAll d.dims ++ d.initIdents)

/-- The names that the lowering reads before the definition is in scope. -/
def Definition.early (constant : Bool) (d : Definition) : List String :=
  Expr.identsAll d.dims ++ (if constant then d.initIdents else [])

/-- A definition after a renaming. Its name is in scope in all of it. -/
def Definition.rename (d : Definition) : Definition where
  name := (r.declare d.name).ident d.name
  dims := Expr.renameAll (r.declare d.name) d.dims
  init := d.init.map fun i => { i with value := i.value.rename (r.declare d.name) }

/-- Whether the early names become the same, be the definition in scope or
not. -/
def Definition.readsAlike (constant : Bool) (r : Renaming) (d : Definition) : Bool :=
  (d.early constant).all fun z => (r.declare d.name).name z = r.name z

/-- The names that a declaration declares. -/
def Decl.names (d : Decl) : List Ident := d.definitions.map (·.name)

def Decl.rename (d : Decl) : Decl where
  constant := d.constant
  first := d.first.rename r
  others := (r.declare d.first.name).through Definition.name Definition.rename d.others

/-- `Definition.readsAlike` for the definitions of a declaration. -/
def Decl.readsAlike (d : Decl) : Bool :=
  (r.through Definition.name (Definition.readsAlike d.constant) d.definitions).all id

/-! ## Statements -/

mutual

/-- The declarations in a statement, in order. -/
def Stmt.locals : Stmt → List Ident
  | .block b => b.locals
  | .if_ _ s rest => s.locals ++ rest.locals
  | .while_ _ s => s.locals
  | .assign .. | .eval _ | .break_ _ | .continue_ _ | .return_ .. => []

def Block.locals : Block → List Ident
  | .nil => []
  | .decl d rest => d.names ++ rest.locals
  | .stmt s rest => s.locals ++ rest.locals

/-- The declarations in the alternatives of an `if`. -/
def Otherwise.locals : Otherwise → List Ident
  | .done => []
  | .else_ s => s.locals
  | .elseIf _ s rest => s.locals ++ rest.locals

end

mutual

/-- The names in a statement. -/
def Stmt.idents : Stmt → List String
  | .assign target _ value => target.idents ++ value.idents
  | .eval (some e) | .return_ _ (some e) => e.idents
  | .block b => b.idents
  | .if_ c s rest => c.idents ++ s.idents ++ rest.idents
  | .while_ c s => c.idents ++ s.idents
  | .eval none | .break_ _ | .continue_ _ | .return_ _ none => []

def Block.idents : Block → List String
  | .nil => []
  | .decl d rest => d.definitions.flatMap Definition.idents ++ rest.idents
  | .stmt s rest => s.idents ++ rest.idents

def Otherwise.idents : Otherwise → List String
  | .done => []
  | .else_ s => s.idents
  | .elseIf c s rest => c.idents ++ s.idents ++ rest.idents

end

mutual

/-- **A statement after a renaming.** -/
def Stmt.rename (r : Renaming) : Stmt → Stmt
  | .assign target mark value => .assign (target.rename r) mark (value.rename r)
  | .eval e => .eval (e.map (Expr.rename r))
  | .block b => .block (b.rename r.enter)
  | .if_ c s rest => .if_ (c.rename r) (s.rename r) (rest.rename (r.skip s.locals.length))
  | .while_ c s => .while_ (c.rename r) (s.rename r)
  | .break_ keyword => .break_ keyword
  | .continue_ keyword => .continue_ keyword
  | .return_ keyword e => .return_ keyword (e.map (Expr.rename r))

def Block.rename (r : Renaming) : Block → Block
  | .nil => .nil
  | .decl d rest => .decl (d.rename r) (rest.rename (r.declareAll d.names))
  | .stmt s rest => .stmt (s.rename r) (rest.rename (r.skip s.locals.length))

def Otherwise.rename (r : Renaming) : Otherwise → Otherwise
  | .done => .done
  | .else_ s => .else_ (s.rename r)
  | .elseIf c s rest => .elseIf (c.rename r) (s.rename r) (rest.rename (r.skip s.locals.length))

end

mutual

/-- `Definition.readsAlike` for the definitions in a statement. -/
def Stmt.readsAlike (r : Renaming) : Stmt → Bool
  | .block b => b.readsAlike r.enter
  | .if_ _ s rest => s.readsAlike r && rest.readsAlike (r.skip s.locals.length)
  | .while_ _ s => s.readsAlike r
  | .assign .. | .eval _ | .break_ _ | .continue_ _ | .return_ .. => true

/-- `Definition.readsAlike` for the definitions in a block. -/
def Block.readsAlike (r : Renaming) : Block → Bool
  | .nil => true
  | .decl d rest => d.readsAlike r && rest.readsAlike (r.declareAll d.names)
  | .stmt s rest => s.readsAlike r && rest.readsAlike (r.skip s.locals.length)

/-- `Definition.readsAlike` for the definitions in the alternatives of an `if`. -/
def Otherwise.readsAlike (r : Renaming) : Otherwise → Bool
  | .done => true
  | .else_ s => s.readsAlike r
  | .elseIf _ s rest => s.readsAlike r && rest.readsAlike (r.skip s.locals.length)

end

/-! ## Functions and programs -/

def Parameter.idents (p : Parameter) : List String :=
  p.name.value :: Expr.identsAll (p.array.getD [])

/-- A parameter after a renaming. Its name is in scope in its dimensions. -/
def Parameter.rename (p : Parameter) : Parameter where
  name := (r.declare p.name).ident p.name
  array := p.array.map (Expr.renameAll (r.declare p.name))

/-- Whether the names in the dimensions of a parameter, which the lowering reads
before the parameter is in scope, become the same either way. -/
def Parameter.readsAlike (p : Parameter) : Bool :=
  (Expr.identsAll (p.array.getD [])).all fun z => (r.declare p.name).name z = r.name z

namespace FunctionDef

/-- The names of the parameters. -/
def paramNames (f : FunctionDef) : List Ident := f.params.map (·.name)

/-- The parameters of a function and the declarations in its body, in order. -/
def locals (f : FunctionDef) : List Ident := f.paramNames ++ f.body.locals

def idents (f : FunctionDef) : List String :=
  f.name.value :: (f.params.flatMap Parameter.idents ++ f.body.idents)

/-- The renaming at the body of a function. -/
def bodyRenaming (f : FunctionDef) : Renaming :=
  (r.enter.declareAll f.paramNames).enter

def rename (f : FunctionDef) : FunctionDef :=
  { f with
    params := r.enter.through Parameter.name Parameter.rename f.params
    body := f.body.rename (f.bodyRenaming r) }

/-- `Definition.readsAlike` for the parameters and definitions of a function. -/
def readsAlike (f : FunctionDef) : Bool :=
  (r.enter.through Parameter.name Parameter.readsAlike f.params).all id &&
    f.body.readsAlike (f.bodyRenaming r)

end FunctionDef

namespace TopLevel

/-- The local declarations of what stands at the top level. -/
def locals : TopLevel → List Ident
  | decl _ => []
  | function f => f.locals

def idents : TopLevel → List String
  | decl d => d.definitions.flatMap Definition.idents
  | function f => f.idents

/-- What stands at the top level after a renaming. No local name is in scope
in a global declaration. -/
def rename : TopLevel → TopLevel
  | decl d => decl d
  | function f => function (f.rename r)

/-- `Definition.readsAlike` for what stands at the top level. -/
def readsAlike : TopLevel → Bool
  | decl _ => true
  | function f => f.readsAlike r

def renameAll (r : Renaming) : List TopLevel → List TopLevel
  | [] => []
  | u :: us => u.rename r :: renameAll (r.skip u.locals.length) us

/-- `Definition.readsAlike` for the top level. -/
def allReadAlike (r : Renaming) : List TopLevel → Bool
  | [] => true
  | u :: us => u.readsAlike r && allReadAlike (r.skip u.locals.length) us

end TopLevel

namespace Program

/-- **The parameters and block-level declarations of a program**, in order. -/
def locals (p : Program) : List Ident := p.units.flatMap TopLevel.locals

def idents (p : Program) : List String := p.units.flatMap TopLevel.idents

/-- **A program with one of its local declarations renamed**, and with it what
means that declaration to the judgement. -/
def rename (p : Program) (i : Nat) (y : String) : Program :=
  ⟨TopLevel.renameAll ⟨y, [], some i⟩ p.units⟩

/-- Whether the early names of definitions and parameters mean the renamed
declaration to the lowering where they mean it to the judgement. -/
def readsAlike (p : Program) (i : Nat) (y : String) : Bool :=
  TopLevel.allReadAlike ⟨y, [], some i⟩ p.units

end Program

end SysY
