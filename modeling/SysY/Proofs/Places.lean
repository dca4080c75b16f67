import SysY.Check
import SysY.Proofs.Lower.Constant

/-!
# Where something can be found wrong

The judgement names lines, and it visits a tree in an order that need not be
that of the lines: the operands of an operator come before it, and the value of
an assignment before its `=`. `Program.heads` lists, construct by construct and
in the order of the judgement, the lines that can be named, whatever is in
scope. A *head* is what is judged without a statement in it: a definition, an
assignment, an expression for its effect, a condition, the value of a `return`,
a parameter, the name of a function.
-/

namespace SysY

open List Finding

/-! ## Places -/

mutual

/-- The lines that can be named for an expression, in order. -/
def Expr.places : Expr → List Nat
  | number .. => []
  | lval _ x is => x.line :: Expr.placesAll is
  | call span f args =>
    f.line :: (Expr.placesAll args ++ [(args.head?.map (·.span.line)).getD span.line])
  | unary _ op e => e.places ++ [op.line]
  | binary span _ a b => a.places ++ b.places ++ [span.line]
  | paren _ e => e.places

/-- The lines that can be named for the expressions of a list. -/
def Expr.placesAll : List Expr → List Nat
  | [] => []
  | e :: es => e.places ++ Expr.placesAll es

end

/-- The lines that can be named for the target of an assignment. -/
def LVal.places (l : LVal) : List Nat := l.name.line :: Expr.placesAll l.indices

/-- The lines that can be named for a condition. -/
def Cond.places (c : Cond) : List Nat :=
  (match c with
    | expr e => e.places
    | compare _ _ a b | logic _ _ a b => a.places ++ b.places) ++ [c.span.line]

mutual

/-- The lines that can be named for an initial value, its `=` apart. -/
def InitVal.places : InitVal → List Nat
  | expr e => e.places
  | list _ items => InitVal.placesAll items

/-- The lines that can be named for the items of a list. -/
def InitVal.placesAll : List InitVal → List Nat
  | [] => []
  | i :: is => i.places ++ InitVal.placesAll is

end

/-- The lines that can be named for an initial value and its `=`. -/
def Initializer.places (i : Initializer) : List Nat := i.value.places ++ [i.mark.line]

def Definition.places (d : Definition) : List Nat :=
  d.name.line :: (Expr.placesAll d.dims ++ (d.init.map Initializer.places).getD [])

def Parameter.places (p : Parameter) : List Nat :=
  p.name.line :: Expr.placesAll (p.array.getD [])

mutual

/-- The heads of a statement, each by the lines that can be named for it. -/
def Stmt.heads : Stmt → List (List Nat)
  | .assign target mark value => [target.places ++ value.places ++ [mark.line]]
  | .eval none | .break_ _ | .continue_ _ => []
  | .eval (some e) => [e.places]
  | .block b => b.heads
  | .if_ c s rest => c.places :: (s.heads ++ rest.heads)
  | .while_ c s => c.places :: s.heads
  | .return_ keyword none => [[keyword.line]]
  | .return_ _ (some e) => [e.places ++ [e.span.line]]

/-- The heads of the items of a block. -/
def Block.heads : Block → List (List Nat)
  | .nil => []
  | .decl d rest => d.definitions.map Definition.places ++ rest.heads
  | .stmt s rest => s.heads ++ rest.heads

def Otherwise.heads : Otherwise → List (List Nat)
  | .done => []
  | .else_ s => s.heads
  | .elseIf c s rest => c.places :: (s.heads ++ rest.heads)

end

def FunctionDef.heads (f : FunctionDef) : List (List Nat) :=
  [f.name.line] :: (f.params.map Parameter.places ++ f.body.heads)

def TopLevel.heads : TopLevel → List (List Nat)
  | decl d => d.definitions.map Definition.places
  | function f => f.heads

/-- **The heads of a program.** -/
def Program.heads (p : Program) : List (List Nat) := p.units.flatMap TopLevel.heads

/-! ## Findings are on lines that can be named -/

/-- The lines of findings. -/
abbrev Finding.lines (fs : List Finding) : List Nat := fs.map (·.line)

theorem Finding.lines_unless (ok : Bool) (kind : FindingKind) (line : Nat) :
    (lines (Finding.unless ok kind line)).Sublist [line] := by
  cases ok
  · exact .refl _
  · exact nil_sublist _

theorem Finding.lines_append {fs gs : List Finding} {ls ms : List Nat}
    (h : (lines fs).Sublist ls) (h' : (lines gs).Sublist ms) :
    (lines (fs ++ gs)).Sublist (ls ++ ms) := by
  rw [lines, map_append]
  exact h.append h'

theorem Expr.lines_findingsAll {env : TyEnv} {es : List Expr}
    (hes : ∀ e ∈ es, (lines (e.findings env)).Sublist e.places) :
    (lines (Expr.findingsAll env es)).Sublist (Expr.placesAll es) := by
  induction es with
  | nil => exact .refl _
  | cons e es ih =>
    rw [forall_mem_cons] at hes
    rw [Expr.findingsAll, Expr.placesAll]
    exact lines_append hes.1 (ih hes.2)

theorem Expr.lines_findings (env : TyEnv) (e : Expr) :
    (lines (e.findings env)).Sublist e.places := by
  induction e using Expr.induction with
  | number => exact .refl _
  | paren span e ih =>
    rw [Expr.findings, Expr.places]
    exact ih
  | unary span op e ih =>
    rw [Expr.findings, Expr.places]
    exact lines_append ih (lines_unless ..)
  | binary span op a b iha ihb =>
    rw [Expr.findings, Expr.places]
    exact lines_append (lines_append iha ihb) (lines_unless ..)
  | lval span name indices ih =>
    rw [Expr.findings, Expr.places]
    split
    · exact (nil_sublist _).cons_cons _
    · split
      · exact (nil_sublist _).cons_cons _
      · exact (Expr.lines_findingsAll ih).cons _
  | call span callee args ih =>
    rw [Expr.findings, Expr.places]
    split
    · exact (lines_append (Expr.lines_findingsAll ih) (lines_unless ..)).cons _
    · exact (nil_sublist _).cons_cons _
    · exact (nil_sublist _).cons_cons _

theorem Cond.lines_findings (env : TyEnv) (c : Cond) :
    (lines (c.findings env)).Sublist c.places := by
  induction c with
  | expr e => exact lines_append (e.lines_findings env) (lines_unless ..)
  | compare span op a b iha ihb | logic span op a b iha ihb =>
    exact lines_append (lines_append iha ihb) (lines_unless ..)

theorem InitVal.lines_findings (env : TyEnv) (i : InitVal) :
    (lines (i.findings env)).Sublist i.places := by
  induction i using InitVal.induction with
  | expr e =>
    rw [InitVal.findings, InitVal.places]
    exact e.lines_findings env
  | list span items ih =>
    rw [InitVal.findings, InitVal.places]
    induction items with
    | nil => exact .refl _
    | cons i is ihs =>
      rw [forall_mem_cons] at ih
      rw [InitVal.findingsAll, InitVal.placesAll]
      exact lines_append ih.1 (ihs ih.2)

theorem Definition.lines_judge (env : TyEnv) (d : Definition) :
    (lines (d.judge env).2).Sublist d.places := by
  rw [Definition.judge, Definition.places]
  split
  next => exact (nil_sublist _).cons_cons _
  next env' _ =>
    have hdims := Expr.lines_findingsAll fun e (_ : e ∈ d.dims) => e.lines_findings env'
    refine (lines_append hdims ?_).cons _
    cases d.init with
    | none => exact .refl _
    | some i => exact lines_append (i.value.lines_findings env') (lines_unless ..)

/-- Things judged one after the other are found wrong in their order. -/
theorem TyEnv.lines_judgeAll {α : Type} {judge : TyEnv → α → TyEnv × List Finding}
    {places : α → List Nat} (h : ∀ env x, (lines (judge env x).2).Sublist (places x))
    (env : TyEnv) (xs : List α) :
    (lines (TyEnv.judgeAll judge env xs).2).Sublist (xs.flatMap places) := by
  induction xs generalizing env with
  | nil => exact .refl _
  | cons x xs ih =>
    rw [flatMap_cons]
    exact lines_append (h env x) (ih (judge env x).1)

theorem Decl.lines_judge (env : TyEnv) (d : Decl) :
    (lines (d.judge env).2).Sublist (d.definitions.map Definition.places).flatten := by
  rw [← flatMap_def]
  exact TyEnv.lines_judgeAll Definition.lines_judge env d.definitions

mutual

theorem Stmt.lines_findings (returns : Ty) (env : TyEnv) :
    (s : Stmt) → (lines (s.findings returns env)).Sublist s.heads.flatten
  | .assign target mark value => by
    rw [Stmt.findings, Stmt.heads, flatten_singleton]
    have htarget : (lines (target.findings env)).Sublist target.places :=
      (Expr.lval target.span target.name target.indices).lines_findings env
    split
    · exact sublist_append_right _ _
    · exact lines_append (lines_append htarget (value.lines_findings env))
        (lines_unless ..)
  | .eval none | .break_ _ | .continue_ _ => by
    rw [Stmt.findings, Stmt.heads]
    exact .refl _
  | .eval (some e) => by
    rw [Stmt.findings, Stmt.heads, flatten_singleton]
    exact e.lines_findings env
  | .block b => by
    rw [Stmt.findings, Stmt.heads]
    exact b.lines_findings returns env.enter
  | .if_ c s rest => by
    rw [Stmt.findings, Stmt.heads, flatten_cons, flatten_append, ← append_assoc]
    exact lines_append (lines_append (c.lines_findings env)
      (s.lines_findings returns env)) (rest.lines_findings returns env)
  | .while_ c s => by
    rw [Stmt.findings, Stmt.heads, flatten_cons]
    exact lines_append (c.lines_findings env) (s.lines_findings returns env)
  | .return_ keyword none => by
    rw [Stmt.findings, Stmt.heads, flatten_singleton]
    exact lines_unless ..
  | .return_ _ (some e) => by
    rw [Stmt.findings, Stmt.heads, flatten_singleton]
    exact lines_append (e.lines_findings env) (lines_unless ..)

theorem Block.lines_findings (returns : Ty) (env : TyEnv) :
    (b : Block) → (lines (b.findings returns env)).Sublist b.heads.flatten
  | .nil => by
    rw [Block.findings, Block.heads]
    exact .refl _
  | .decl d rest => by
    rw [Block.findings, Block.heads, flatten_append]
    exact lines_append (d.lines_judge env) (rest.lines_findings returns _)
  | .stmt s rest => by
    rw [Block.findings, Block.heads, flatten_append]
    exact lines_append (s.lines_findings returns env) (rest.lines_findings returns env)

theorem Otherwise.lines_findings (returns : Ty) (env : TyEnv) :
    (o : Otherwise) → (lines (o.findings returns env)).Sublist o.heads.flatten
  | .done => by
    rw [Otherwise.findings, Otherwise.heads]
    exact .refl _
  | .else_ s => by
    rw [Otherwise.findings, Otherwise.heads]
    exact s.lines_findings returns env
  | .elseIf c s rest => by
    rw [Otherwise.findings, Otherwise.heads, flatten_cons, flatten_append,
      ← append_assoc]
    exact lines_append (lines_append (c.lines_findings env)
      (s.lines_findings returns env)) (rest.lines_findings returns env)

end

theorem Parameter.lines_judge (env : TyEnv) (p : Parameter) :
    (lines (p.judge env).2).Sublist p.places := by
  rw [Parameter.judge, Parameter.places]
  split
  next => exact (nil_sublist _).cons_cons _
  next env' _ => exact (Expr.lines_findingsAll fun e _ => e.lines_findings env').cons _

theorem FunctionDef.lines_judge (env : TyEnv) (f : FunctionDef) :
    (lines (f.judge env).2).Sublist f.heads.flatten := by
  rw [FunctionDef.judge, FunctionDef.heads, flatten_cons, flatten_append,
    ← flatMap_def]
  split
  next => exact sublist_append_left _ _
  next env' _ =>
    exact (lines_append (TyEnv.lines_judgeAll Parameter.lines_judge env'.enter f.params)
      (f.body.lines_findings _ _)).trans (sublist_append_right _ _)

/-- **What is found is on lines that can be named**, and in their order. -/
theorem Program.lines_findings (p : Program) :
    (lines p.findings).Sublist p.heads.flatten := by
  rw [Program.heads, ← flatMap_id, flatMap_assoc]
  refine TyEnv.lines_judgeAll (fun env u => ?_) [[]] p.units
  rw [flatMap_id]
  cases u with
  | decl d => exact d.lines_judge env
  | function f => exact f.lines_judge env

end SysY
