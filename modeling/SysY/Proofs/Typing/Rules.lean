import Mathlib.Data.List.Forall2
import SysY.Check

/-!
# The type system

The rules that a program has to keep, as derivations. A judgement takes the
environment it holds in, and what declares a name relates the environment
before it to the one after it; there is no state, and nothing is searched or
computed.

* `TyEnv.Resolves` and `TyEnv.Binds`: what a name means, and which names may
  be declared.
* `Expr.HasType`: the type of an expression; a call of a function that gives
  nothing back is an expression without a type.
* `Stmt.Valid`, `Block.Valid`, `Otherwise.Valid`: the statements of a function.
* `Program.WellTyped`: the programs that have a derivation.

A name is bound before its dimensions, its initial value or its body are
looked at, so these are judged in the environment that has it.
-/

namespace SysY

/-! ## Names -/

/-- A name means what the innermost frame that has it says. -/
inductive TyEnv.Resolves : TyEnv → String → Ty → Prop
  /-- The innermost frame has the name. -/
  | here {frame outer x t} : (x, t) ∈ frame → Resolves (frame :: outer) x t
  /-- The innermost frame does not have the name, and an outer one does. -/
  | outside {frame : Frame Ty} {outer x t} :
      x ∉ frame.map (·.1) → Resolves outer x t → Resolves (frame :: outer) x t

/-- A name is bound in the innermost frame, which does not have it yet. The
outer frames may have it. -/
inductive TyEnv.Binds : TyEnv → String → Ty → TyEnv → Prop
  | fresh {frame : Frame Ty} {outer x t} :
      x ∉ frame.map (·.1) → Binds (frame :: outer) x t (((x, t) :: frame) :: outer)

/-- Declarations one after the other, each in the environment that the ones
before it leave. -/
inductive TyEnv.Threads {α : Type} (declares : TyEnv → α → TyEnv → Prop) :
    TyEnv → List α → TyEnv → Prop
  | nil {env} : Threads declares env [] env
  | cons {env env1 env2 x xs} :
      declares env x env1 → Threads declares env1 xs env2 → Threads declares env (x :: xs) env2

/-! ## Expressions -/

/-- The type of a call of a function, if it has one. -/
def ReturnType.callType? : ReturnType → Option Ty
  | int => some .int
  | void => none

section

variable (env : TyEnv)

/-- **The type of an expression.** An expression without a type is derivable
too, with `none`: it may stand where no type is asked for. -/
inductive Expr.HasType : Expr → Option Ty → Prop
  | number {span text} : HasType (.number span text) (some .int)
  /-- A variable has at most as many subscripts as dimensions, and the type
  has the dimensions that are left. -/
  | lval {span} {x : Ident} {indices : List Expr} {types left} :
      env.Resolves x.value (.arrayOf .int (indices.length + left)) →
      List.Forall₂ HasType indices types →
      HasType (.lval span x indices) (some (.arrayOf .int left))
  /-- The name of a function may have any number of subscripts. -/
  | functionName {span} {x : Ident} {indices types r ps} :
      env.Resolves x.value (.function r ps) →
      List.Forall₂ HasType indices types →
      HasType (.lval span x indices) (some (.function r ps))
  /-- The arguments have the types of the parameters, one by one. -/
  | call {span} {f : Ident} {args} {r : ReturnType} {ps : List Ty} :
      env.Resolves f.value (.function r.type ps) →
      List.Forall₂ HasType args (ps.map some) →
      HasType (.call span f args) r.callType?
  | unary {span op e} : HasType e (some .int) → HasType (.unary span op e) (some .int)
  | binary {span op a b} :
      HasType a (some .int) → HasType b (some .int) →
      HasType (.binary span op a b) (some .int)
  | paren {span e τ} : HasType e τ → HasType (.paren span e) τ

/-- Expressions that are derivable, whatever their types. -/
def Expr.AllValid (es : List Expr) : Prop :=
  ∃ types, List.Forall₂ (HasType env) es types

/-- Every node of a condition is an integer. -/
inductive Cond.IsInt : Cond → Prop
  | expr {e : Expr} : e.HasType env (some .int) → IsInt (.expr e)
  | compare {span op a b} : IsInt a → IsInt b → IsInt (.compare span op a b)
  | logic {span op a b} : IsInt a → IsInt b → IsInt (.logic span op a b)

/-! ## Declarations -/

/-- The type of an initial value. A list is an array of depth one, whatever
the types of its items. -/
inductive InitVal.HasType : InitVal → Option Ty → Prop
  | expr {e : Expr} {τ} : e.HasType env τ → HasType (.expr e) τ
  | list {span items types} :
      List.Forall₂ HasType items types →
      HasType (.list span items) (some (.array .int))

/-- An initial value has the declared type, or both are arrays. -/
def Initializer.Fits (declared : Ty) (i : Initializer) : Prop :=
  ∃ t, i.value.HasType env (some t) ∧
    (declared = t ∨ declared.isArray = true ∧ t.isArray = true)

/-- A definition binds its name, and its dimensions and initial value are
judged with the name in scope. -/
structure Definition.Declares (d : Definition) (env' : TyEnv) : Prop where
  binds : env.Binds d.name.value d.type env'
  dims : Expr.AllValid env' d.dims
  /-- The initial value fits, if there is one. -/
  init : ∀ i ∈ d.init, i.Fits env' d.type

/-- A declaration binds the names of its definitions. -/
def Decl.Declares (d : Decl) (env' : TyEnv) : Prop :=
  TyEnv.Threads Definition.Declares env d.definitions env'

end

/-! ## Statements -/

mutual

/-- **A statement of a function that gives back `r`.** -/
inductive Stmt.Valid (r : ReturnType) : TyEnv → Stmt → Prop
  /-- The target is a variable, and the value has the type that its subscripts
  leave. -/
  | assign {env : TyEnv} {target : LVal} {mark} {value : Expr} {left} :
      env.Resolves target.name.value (.arrayOf .int (target.indices.length + left)) →
      Expr.AllValid env target.indices →
      value.HasType env (some (.arrayOf .int left)) →
      Stmt.Valid r env (.assign target mark value)
  | empty {env} : Stmt.Valid r env (.eval none)
  | eval {env} {e : Expr} {τ} : e.HasType env τ → Stmt.Valid r env (.eval (some e))
  | block {env : TyEnv} {b} : Block.Valid r env.enter b → Stmt.Valid r env (.block b)
  | if_ {env} {c : Cond} {s rest} :
      c.IsInt env → Stmt.Valid r env s → Otherwise.Valid r env rest →
      Stmt.Valid r env (.if_ c s rest)
  | while_ {env} {c : Cond} {s} : c.IsInt env → Stmt.Valid r env s → Stmt.Valid r env (.while_ c s)
  | break_ {env keyword} : Stmt.Valid r env (.break_ keyword)
  | continue_ {env keyword} : Stmt.Valid r env (.continue_ keyword)
  /-- Only a function that gives nothing back returns without a value. -/
  | returnNothing {env keyword} : r = .void → Stmt.Valid r env (.return_ keyword none)
  /-- Only a function that gives back an integer returns one. -/
  | returnInt {env keyword} {e : Expr} :
      r = .int → e.HasType env (some .int) → Stmt.Valid r env (.return_ keyword (some e))

/-- The items of a block, whose frame is open. -/
inductive Block.Valid (r : ReturnType) : TyEnv → Block → Prop
  | nil {env} : Block.Valid r env .nil
  | decl {env env'} {d : Decl} {rest} :
      d.Declares env env' → Block.Valid r env' rest → Block.Valid r env (.decl d rest)
  | stmt {env s rest} :
      Stmt.Valid r env s → Block.Valid r env rest → Block.Valid r env (.stmt s rest)

inductive Otherwise.Valid (r : ReturnType) : TyEnv → Otherwise → Prop
  | done {env} : Otherwise.Valid r env .done
  | else_ {env s} : Stmt.Valid r env s → Otherwise.Valid r env (.else_ s)
  | elseIf {env} {c : Cond} {s rest} :
      c.IsInt env → Stmt.Valid r env s → Otherwise.Valid r env rest →
      Otherwise.Valid r env (.elseIf c s rest)

end

/-! ## Functions and programs -/

/-- A parameter binds its name in the frame of the parameters, and its
dimensions are judged with the name in scope. -/
structure Parameter.Declares (env : TyEnv) (p : Parameter) (env' : TyEnv) : Prop where
  binds : env.Binds p.name.value p.type env'
  dims : Expr.AllValid env' (p.array.getD [])

/-- A function binds its name; its parameters have a frame inside, and its body
another one inside that. -/
inductive FunctionDef.Declares (env : TyEnv) (f : FunctionDef) (env' : TyEnv) : Prop
  | intro {inner : TyEnv} :
      env.Binds f.name.value f.type env' →
      TyEnv.Threads Parameter.Declares env'.enter f.params inner →
      Block.Valid f.returns inner.enter f.body →
      Declares env f env'

/-- What stands at the top level binds its names. -/
inductive TopLevel.Declares (env : TyEnv) : TopLevel → TyEnv → Prop
  | decl {d : Decl} {env'} : d.Declares env env' → Declares env (.decl d) env'
  | function {f : FunctionDef} {env'} : f.Declares env env' → Declares env (.function f) env'

/-- **The well-typed programs**: those that have a derivation from the global
frame with nothing in it. -/
def Program.WellTyped (p : Program) : Prop :=
  ∃ env, TyEnv.Threads TopLevel.Declares [[]] p.units env

end SysY
