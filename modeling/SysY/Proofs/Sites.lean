import SysY.Check
import SysY.Proofs.Lower.Constant

/-!
# Places where the lowering relies on more than is judged

The lowering takes names for variables and puts values into words. Mostly the
judgement has seen to it that a name is that of a variable and that a value is
an integer, but not at every place: a subscript, an item of a list and a
statement may be any expression, an array may be assigned to an array and be
the initial value of one, and a name counts as declared in its own dimensions
and initial value although some of these are evaluated before.

`Program.sites` lists all places of a program where a name is taken for a
variable or a value goes into a word, each with the environment in which this
happens.
-/

namespace SysY

/-- How a place of a program uses what stands there. -/
inductive Use where
  /-- A name is taken for a variable. -/
  | variable (name : String)
  /-- The value of an expression is taken for an integer: as a subscript, or to
  put it into a word. -/
  | word (e : Expr)

/-- A place of a program, with the names in scope. -/
structure Site where
  env : TyEnv
  use : Use

/-- Whether a name is that of a variable. -/
def TyEnv.isVariable (env : TyEnv) (name : String) : Bool :=
  match env.lookup name with
  | none | some (.function ..) => false
  | some _ => true

/-- Whether a name that is taken for a variable is one. -/
def Site.named (s : Site) : Bool :=
  match s.use with
  | .variable name => s.env.isVariable name
  | .word _ => true

/-- Whether an expression that is taken for an integer is no array. -/
def Site.scalar (s : Site) : Bool :=
  match s.use with
  | .variable _ => true
  | .word e => !(e.type? s.env).any (·.isArray)

mutual

/-- The places of an expression. -/
def Expr.sites (env : TyEnv) : Expr → List Site
  | number .. => []
  | lval _ x is => ⟨env, .variable x.value⟩ :: (is.map (⟨env, .word ·⟩) ++ Expr.sitesAll env is)
  | call _ _ args => Expr.sitesAll env args
  | unary _ _ e | paren _ e => e.sites env
  | binary _ _ a b => a.sites env ++ b.sites env

def Expr.sitesAll (env : TyEnv) : List Expr → List Site
  | [] => []
  | e :: es => e.sites env ++ Expr.sitesAll env es

end

def Cond.sites (env : TyEnv) : Cond → List Site
  | expr e => e.sites env
  | compare _ _ a b | logic _ _ a b => a.sites env ++ b.sites env

/-- The places of an initial value: every expression of it may go into a
word. -/
def InitVal.sites (env : TyEnv) (i : InitVal) : List Site :=
  i.exprs.map (⟨env, .word ·⟩) ++ Expr.sitesAll env i.exprs

/-- The places of a definition. The dimensions are evaluated before the name
means anything, and so is the initial value if it is to be known `early`. -/
def Definition.sites (early : Bool) (env : TyEnv) (d : Definition) : List Site :=
  Expr.sitesAll env d.dims ++
    match d.init with
    | none => []
    | some i => i.value.sites (if early then env else (d.judge env).1)

/-- The places of definitions one after the other. -/
def Definition.sitesAll (early : Bool) (env : TyEnv) : List Definition → List Site
  | [] => []
  | d :: ds => d.sites early env ++ Definition.sitesAll early (d.judge env).1 ds

mutual

def Stmt.sites (env : TyEnv) : Stmt → List Site
  | .assign target _ value =>
    ⟨env, .word value⟩ :: (value.sites env ++ (Expr.lval target.span target.name target.indices).sites env)
  | .eval none | .break_ _ | .continue_ _ | .return_ _ none => []
  | .eval (some e) | .return_ _ (some e) => e.sites env
  | .block b => b.sites env.enter
  | .if_ c s rest => c.sites env ++ s.sites env ++ rest.sites env
  | .while_ c s => c.sites env ++ s.sites env

/-- The places of the items of a block, whose frame is open. -/
def Block.sites (env : TyEnv) : Block → List Site
  | .nil => []
  | .decl d rest => Definition.sitesAll d.constant env d.definitions ++ rest.sites (d.judge env).1
  | .stmt s rest => s.sites env ++ rest.sites env

def Otherwise.sites (env : TyEnv) : Otherwise → List Site
  | .done => []
  | .else_ s => s.sites env
  | .elseIf c s rest => c.sites env ++ s.sites env ++ rest.sites env

end

/-- The places of parameters, whose dimensions are evaluated before the name
means anything. -/
def Parameter.sitesAll (env : TyEnv) : List Parameter → List Site
  | [] => []
  | p :: ps => Expr.sitesAll env (p.array.getD []) ++ Parameter.sitesAll (p.judge env).1 ps

/-- The places of a function, in an environment that has its name. -/
def FunctionDef.sites (env : TyEnv) (f : FunctionDef) : List Site :=
  Parameter.sitesAll env.enter f.params ++
    f.body.sites (TyEnv.judgeAll Parameter.judge env.enter f.params).1.enter

/-- The places at the top level. Global variables are evaluated before they
mean anything. -/
def TopLevel.sitesAll (env : TyEnv) : List TopLevel → List Site
  | [] => []
  | .decl d :: us => Definition.sitesAll true env d.definitions ++ TopLevel.sitesAll (d.judge env).1 us
  | .function f :: us => f.sites (f.judge env).1 ++ TopLevel.sitesAll (f.judge env).1 us

/-- **The places of a program.** -/
def Program.sites (p : Program) : List Site := TopLevel.sitesAll [[]] p.units

theorem Expr.mem_sitesAll {env : TyEnv} {es : List Expr} {s : Site} :
    s ∈ Expr.sitesAll env es ↔ ∃ e ∈ es, s ∈ e.sites env := by
  induction es with
  | nil => simp [Expr.sitesAll]
  | cons e es ih => simp [Expr.sitesAll, ih]

/-- What holds at the places of an initial value holds at those of its
expressions. -/
theorem InitVal.forall_sites {env : TyEnv} {i : InitVal} {P : Site → Prop} :
    (∀ s ∈ i.sites env, P s) ↔ ∀ e ∈ i.exprs, P ⟨env, .word e⟩ ∧ ∀ s ∈ e.sites env, P s := by
  simp only [InitVal.sites, List.mem_append, List.mem_map, Expr.mem_sitesAll]
  constructor
  · intro h e he
    exact ⟨h _ (.inl ⟨e, he, rfl⟩), fun s hs => h s (.inr ⟨e, he, hs⟩)⟩
  · rintro h s (⟨e, he, rfl⟩ | ⟨e, he, hs⟩)
    · exact (h e he).1
    · exact (h e he).2 s hs

end SysY
