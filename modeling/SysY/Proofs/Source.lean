import SysY.Check
import SysY.Lower.Program

/-!
# The meaning of programs

What a program does when it is run, said on its syntax tree. This is the
meaning that lowering has to keep.

A run is an evaluation: of an expression to a value, of a condition to an
integer, of a statement to the way in which it is left. Memory is a sequence
of words that grows by the words of each variable when its declaration, or the
call whose parameter it is, is executed. Everything that has no meaning has no
value: to read a word that was never written, a subscript out of range, a
division by zero, and an array or the result of a `void` function where an
integer is needed.

Evaluation is by recursion over the tree. What a tree does not bound, the
number of turns of a loop and the depth of calls, is bounded by a *fuel*; that
a run ends means that there is a fuel with which it has a value.
-/

namespace SysY.Source

open Lower (volume maxWords roundUp)

/-! ## Values and memory -/

/-- Some words of memory that follow each other: an array, or a row of one. -/
structure Region where
  start : Nat
  length : Nat
  /-- No array is larger than an object may be. -/
  fits : length ≤ maxWords
deriving DecidableEq, Repr

/-- What an expression comes to. -/
inductive Val where
  | int (n : Int32)
  /-- An array, which is passed by its place in memory. -/
  | array (r : Region)
  /-- The result of a function that gives nothing back. -/
  | void
deriving DecidableEq, Repr

/-- Memory: its words, of which some were never written. -/
abbrev Memory := List (Option Val)

namespace Memory

/-- What a word holds, if it was written. -/
def read (mem : Memory) (a : Nat) : Option Val := mem[a]?.join

/-- Memory after a word is written. -/
def write (mem : Memory) (a : Nat) (v : Val) : Option Memory :=
  if a < mem.length then some (mem.set a (some v)) else none

/-- Memory with so many words more, which are not written yet. -/
def grow (mem : Memory) (words : Nat) : Memory := mem ++ List.replicate words none

end Memory

/-- Where the words of an array are. -/
inductive Base where
  /-- Here. -/
  | words (r : Region)
  /-- At the array that this word refers to: an array parameter. -/
  | reference (slot : Nat)
deriving DecidableEq, Repr

/-- What a name of a variable means when a program runs. Constants have the
values that are known when the program is compiled, and a place in memory like
other variables. -/
inductive Variable where
  /-- A scalar, in a word of memory. -/
  | scalar (address : Nat) (constant : Option Int32)
  /-- An array. The first dimension of an array parameter is not known from
  its declaration, and is zero. -/
  | array (base : Base) (dims : List Nat) (constant : Option (List Int32))
deriving DecidableEq, Repr

/-- The variables in scope. -/
abbrev Scope := Env Variable

/-- What is known of a variable when the program is compiled. -/
def Variable.symbol : Variable → Lower.Symbol
  | scalar _ constant => .scalar (.const 0) constant
  | array (.words _) dims constant => .array (.address (.const 0)) dims constant
  | array (.reference _) dims constant => .array (.pointer (.const 0)) dims constant

/-- What is known of the variables in scope when the program is compiled. -/
def Scope.known (env : Scope) : Lower.Symbols :=
  env.map fun frame => frame.map fun (name, v) => (name, v.symbol)

/-! ## Places -/

/-- What an assignable expression designates. -/
inductive Place where
  /-- A word. -/
  | word (a : Nat)
  /-- An array or a row of one. -/
  | row (r : Region)
deriving DecidableEq, Repr

/-- The position, counted in elements or rows, that subscripts select in an
array, row by row. There is none if a subscript is out of range, or if there
are more subscripts than dimensions. -/
def position (offset : Nat) : List Int32 → List Nat → Option Nat
  | [], _ => some offset
  | i :: is, size :: sizes => do
    let offset ← Lower.offsetStep offset size i
    position offset is sizes
  | _ :: _, [] => none

/-- How often the first dimension of an array is there, given the others. -/
def Region.extent (r : Region) (dims : List Nat) : Nat := r.length / volume dims.tail

/-- **What subscripts select** in an array of dimensions `dims`. -/
def Region.select (r : Region) (dims : List Nat) (indices : List Int32) : Option Place := do
  let k ← position 0 indices (r.extent dims :: dims.tail)
  let rest := dims.drop indices.length
  let stride := volume rest
  if inside : k * stride + stride ≤ r.length then
    if rest.isEmpty then return .word (r.start + k)
    else return .row ⟨r.start + k * stride, stride, by have := r.fits; omega⟩
  else none

/-- The array that a base stands for. -/
def Base.region (mem : Memory) : Base → Option Region
  | words r => some r
  | reference slot =>
    match mem.read slot with
    | some (.array r) => some r
    | _ => none

/-- What is found at a place. -/
def Place.fetch (mem : Memory) : Place → Option Val
  | word a => mem.read a
  | row r => some (.array r)

/-! ## Expressions -/

/-- What it means to call a function: what the name and the arguments give,
and what becomes of memory. -/
abbrev Caller := String → List Val → Memory → Option (Val × Memory)

/-- The integer that an expression came to, if it is one. -/
def expectInt : Val × Memory → Option (Int32 × Memory)
  | (.int n, mem) => some (n, mem)
  | _ => none

section

variable (call : Caller) (env : Scope)

mutual

/-- **The value of an expression.** -/
def evalExpr : Expr → Memory → Option (Val × Memory)
  | .number _ text, mem => do
    let n ← (Literal.decode text).toOption
    return (.int n, mem)
  | .paren _ e, mem => evalExpr e mem
  | .lval _ name indices, mem => do
    let (place, mem) ← evalPlace name indices mem
    let v ← place.fetch mem
    return (v, mem)
  | .call _ callee args, mem => do
    let (values, mem) ← evalArgs args mem
    call callee.value values mem
  | .unary _ op e, mem => do
    let (n, mem) ← (evalExpr e mem).bind expectInt
    return (.int (Lower.unaryValue op.value n), mem)
  | .binary _ op a b, mem => do
    let (x, mem) ← (evalExpr a mem).bind expectInt
    let (y, mem) ← (evalExpr b mem).bind expectInt
    let n ← Lower.binaryValue op x y
    return (.int n, mem)

/-- The values of arguments, from left to right. -/
def evalArgs : List Expr → Memory → Option (List Val × Memory)
  | [], mem => some ([], mem)
  | e :: es, mem => do
    let (v, mem) ← evalExpr e mem
    let (vs, mem) ← evalArgs es mem
    return (v :: vs, mem)

/-- The values of subscripts, from left to right. -/
def evalIndices : List Expr → Memory → Option (List Int32 × Memory)
  | [], mem => some ([], mem)
  | e :: es, mem => do
    let (i, mem) ← (evalExpr e mem).bind expectInt
    let (is, mem) ← evalIndices es mem
    return (i :: is, mem)

/-- What a name with subscripts designates. -/
def evalPlace (name : Ident) (indices : List Expr) (mem : Memory) : Option (Place × Memory) :=
  match env.lookup name.value with
  | some (.scalar a _) => if indices.isEmpty then some (.word a, mem) else none
  | some (.array base dims _) => do
    let r ← base.region mem
    match indices with
    | [] => return (.row r, mem)
    | e :: es =>
      let (i, mem) ← (evalExpr e mem).bind expectInt
      let (is, mem) ← evalIndices es mem
      let place ← r.select dims (i :: is)
      return (place, mem)
  | none => none

end

/-! ## Conditions -/

def compares (op : CmpOp) (a b : Int32) : Bool :=
  match op with
  | .equal => a = b
  | .notEqual => a ≠ b
  | .less => a < b
  | .greater => b < a
  | .lessEqual => a ≤ b
  | .greaterEqual => b ≤ a

def truthValue (b : Bool) : Int32 := if b then 1 else 0

/-- Whether the left operand of a connective settles its truth. -/
def settles (op : LogicOp) (left : Int32) : Bool :=
  match op with
  | .and => left = 0
  | .or => left ≠ 0

/-- **The value of a condition.** The right operand of a connective is
evaluated only if the left one does not settle the matter. -/
def evalCond : Cond → Memory → Option (Int32 × Memory)
  | .expr e, mem => (evalExpr call env e mem).bind expectInt
  | .compare _ op a b, mem => do
    let (x, mem) ← evalCond a mem
    let (y, mem) ← evalCond b mem
    return (truthValue (compares op x y), mem)
  | .logic _ op a b, mem => do
    let (x, mem) ← evalCond a mem
    if settles op x then return (truthValue (x ≠ 0), mem)
    else
      let (y, mem) ← evalCond b mem
      return (truthValue (y ≠ 0), mem)

/-! ## Declarations -/

/-- How many words an item of a list is for, where rows have dimensions `dims`. -/
def itemSize (dims : List Nat) : InitVal → Nat
  | .expr _ => 1
  | .list .. => volume dims

mutual

/-- What word `n` of those that an item is for is initialised with. -/
def itemAt (dims : List Nat) (n : Nat) : InitVal → Option Expr
  | .expr e => if n = 0 then some e else none
  | .list _ items => listAt dims n 0 items

/-- What word `n` of an array is initialised with, where the words before
number `next` are taken. An expression is for the next word, and a list for the
next row of which no word is taken. -/
def listAt (dims : List Nat) (n next : Nat) : List InitVal → Option Expr
  | [] => none
  | i :: is =>
    let size := itemSize dims.tail i
    let start := roundUp next size
    if n < start then none
    else if n < start + size then itemAt dims.tail (n - start) i
    else listAt dims n (start + size) is

end

/-- **Where initial values go**: what each word of a variable is initialised
with. -/
def initialWords (dims : List Nat) (i : InitVal) : List (Option Expr) :=
  (List.range (volume dims)).map (itemAt dims · i)

/-- The value of a word that is initialised: the constant if it is known, else
what the expression comes to, else zero. -/
def initialValue (constant : Option Int32) (item : Option Expr) (mem : Memory) :
    Option (Int32 × Memory) :=
  match constant, item with
  | some n, _ => some (n, mem)
  | none, some e => (evalExpr call env e mem).bind expectInt
  | none, none => some (0, mem)

/-- Memory after the words from `a` on are initialised, one after the other. -/
def initialise (a : Nat) (constants : Option (List Int32)) :
    List (Option Expr) → Memory → Option Memory
  | [], mem => some mem
  | item :: items, mem => do
    let (n, mem) ← initialValue call env (constants.bind (·.head?)) item mem
    let mem ← mem.write a (.int n)
    initialise (a + 1) (constants.map (·.tail)) items mem

/-- The values of the words of a constant, if it has an initial value. -/
def constantValues (constant : Bool) (env : Scope) (items : Option (List (Option Expr))) :
    Option (Option (List Int32)) :=
  match constant, items with
  | true, some items => (Lower.evalItems env.known items).toOption.map some
  | _, _ => some none

/-- The variable of dimensions `dims` whose words are given. -/
def Variable.at (r : Region) (dims : List Nat) (constants : Option (List Int32)) : Variable :=
  if dims.isEmpty then scalar r.start (constants.bind (·.head?))
  else array (.words r) dims constants

/-- **The effect of a local definition**: the variable takes new words, and
they are given their initial values in order. The name is in scope in its own
initial value. Without one, the words are not written. -/
def declare (constant : Bool) (env : Scope) (d : Definition) (mem : Memory) :
    Option (Scope × Memory) := do
  let dims ← (Lower.evalDims env.known d.dims).toOption
  let items := d.init.map (initialWords dims ·.value)
  let constants ← constantValues constant env items
  let a := mem.length
  if fits : volume dims ≤ maxWords then
    let env := env.bind d.name.value (.at ⟨a, volume dims, fits⟩ dims constants)
    let mem ← initialise call env a constants (items.getD []) (mem.grow (volume dims))
    return (env, mem)
  else none

/-- The effect of definitions, one after the other. -/
def declareAll (constant : Bool) (env : Scope) :
    List Definition → Memory → Option (Scope × Memory)
  | [], mem => some (env, mem)
  | d :: ds, mem => do
    let (env, mem) ← declare call constant env d mem
    declareAll constant env ds mem

/-! ## Statements -/

/-- The ways to leave a statement. -/
inductive Outcome where
  /-- At its end. -/
  | normal
  /-- To the end of the innermost loop. -/
  | break_
  /-- To the next turn of the innermost loop. -/
  | continue_
  /-- To the end of the function, with a value. -/
  | return_ (v : Val)
deriving DecidableEq, Repr

/-- **The turns of a loop**, at most so many. -/
def turns (cond : Memory → Option (Int32 × Memory)) (body : Memory → Option (Outcome × Memory)) :
    Nat → Memory → Option (Outcome × Memory)
  | 0, _ => none
  | n + 1, mem => do
    let (c, mem) ← cond mem
    if c = 0 then return (.normal, mem)
    else
      let (o, mem) ← body mem
      match o with
      | .normal | .continue_ => turns cond body n mem
      | .break_ => return (.normal, mem)
      | .return_ v => return (.return_ v, mem)

/-- What `break` and `continue` do: nothing outside of a loop. -/
def leave (inLoop : Bool) (o : Outcome) : Outcome := if inLoop then o else .normal

variable (fuel : Nat)

mutual

/-- **The effect of a statement.** -/
def execStmt (inLoop : Bool) (env : Scope) : Stmt → Memory → Option (Outcome × Memory)
  | .assign target _ value, mem => do
    let (n, mem) ← (evalExpr call env value mem).bind expectInt
    let (place, mem) ← evalPlace call env target.name target.indices mem
    match place with
    | .word a => do
      let mem ← mem.write a (.int n)
      return (.normal, mem)
    | .row _ => none
  | .eval none, mem => some (.normal, mem)
  | .eval (some e), mem => do
    let (_, mem) ← evalExpr call env e mem
    return (.normal, mem)
  | .block b, mem => execBlock inLoop env.enter b mem
  | .if_ cond body rest, mem => do
    let (c, mem) ← evalCond call env cond mem
    if c = 0 then execOtherwise inLoop env rest mem
    else execStmt inLoop env body mem
  | .while_ cond body, mem =>
    turns (evalCond call env cond) (execStmt true env body) fuel mem
  | .break_ _, mem => some (leave inLoop .break_, mem)
  | .continue_ _, mem => some (leave inLoop .continue_, mem)
  | .return_ _ none, mem => some (.return_ .void, mem)
  | .return_ _ (some e), mem => do
    let (n, mem) ← (evalExpr call env e mem).bind expectInt
    return (.return_ (.int n), mem)

/-- The effect of the items of a block, whose frame is open. -/
def execBlock (inLoop : Bool) (env : Scope) : Block → Memory → Option (Outcome × Memory)
  | .nil, mem => some (.normal, mem)
  | .decl d rest, mem => do
    let (env, mem) ← declareAll call d.constant env d.definitions mem
    execBlock inLoop env rest mem
  | .stmt s rest, mem => do
    let (o, mem) ← execStmt inLoop env s mem
    match o with
    | .normal => execBlock inLoop env rest mem
    | o => return (o, mem)

def execOtherwise (inLoop : Bool) (env : Scope) : Otherwise → Memory → Option (Outcome × Memory)
  | .done, mem => some (.normal, mem)
  | .else_ s, mem => execStmt inLoop env s mem
  | .elseIf cond body rest, mem => do
    let (c, mem) ← evalCond call env cond mem
    if c = 0 then execOtherwise inLoop env rest mem
    else execStmt inLoop env body mem

end

end

/-! ## Functions and programs -/

/-- The variable of a parameter whose argument is in a word of memory. -/
def Parameter.variable? (env : Scope) (slot : Nat) (p : Parameter) (v : Val) : Option Variable :=
  match p.array, v with
  | none, .int _ => some (.scalar slot none)
  | some dims, .array _ => do
    let dims ← (Lower.evalDims env.known dims).toOption
    return .array (.reference slot) (0 :: dims) none
  | _, _ => none

/-- The scope of a function's body: every parameter is a variable that takes a
word, which holds the argument. -/
def bindParams (env : Scope) : List Parameter → List Val → Memory → Option (Scope × Memory)
  | [], [], mem => some (env, mem)
  | p :: ps, v :: vs, mem => do
    let meaning ← Parameter.variable? env mem.length p v
    bindParams (env.bind p.name.value meaning) ps vs (mem ++ [some v])
  | _, _, _ => none

/-- What a function gives back, by the way in which its body is left. A
function that gives back an integer and reaches its end gives zero. -/
def result (returns : ReturnType) (o : Outcome) : Option Val :=
  match returns, o with
  | .int, .return_ (.int n) => some (.int n)
  | .int, .normal => some (.int 0)
  | .void, .return_ .void => some .void
  | .void, .normal => some .void
  | _, _ => none

/-- A function and the global variables that it sees. -/
structure Closure where
  definition : FunctionDef
  /-- The global variables. -/
  globals : Scope

/-- **The meaning of a call** of one of the functions, with a fuel. -/
def callWith (closures : List Closure) : Nat → Caller
  | 0, _, _, _ => none
  | fuel + 1, name, args, mem => do
    let c ← closures.find? (·.definition.name.value = name)
    let (env, mem) ← bindParams c.globals.enter c.definition.params args mem
    let (o, mem) ← execBlock (callWith closures fuel) fuel false env.enter c.definition.body mem
    let v ← result c.definition.returns o
    return (v, mem)

/-- The scope after global definitions, whose words begin at `next`, and where
the words of what follows begin. -/
def declareGlobals (constant : Bool) (env : Scope) (next : Nat) :
    List Definition → Option (Scope × Nat)
  | [] => some (env, next)
  | d :: ds => do
    let dims ← (Lower.evalDims env.known d.dims).toOption
    if fits : volume dims ≤ maxWords then
      let init ← constantValues true env (d.init.map (initialWords dims ·.value))
      let constants := if constant then some (init.getD (List.replicate (volume dims) 0)) else none
      declareGlobals constant (env.bind d.name.value (.at ⟨next, volume dims, fits⟩ dims constants))
        (next + volume dims) ds
    else none

/-- The functions of what stands at the top level, each with the global
variables before it. -/
def closures (env : Scope) (next : Nat) : List TopLevel → Option (List Closure)
  | [] => some []
  | .decl d :: us => do
    let (env, next) ← declareGlobals d.constant env next d.definitions
    closures env next us
  | .function f :: us => do
    let rest ← closures env next us
    return ⟨f, env⟩ :: rest

/-- **A run of a function of a program** that ends: the arguments, memory at the
start, the result, and memory at the end. Memory begins with the words of the
global variables, in the order of their declarations. -/
def Runs (p : Program) (name : String) (args : List Val) (mem : Memory) (v : Val)
    (final : Memory) : Prop :=
  ∃ cs fuel, closures [[]] 0 p.units = some cs ∧ callWith cs fuel name args mem = some (v, final)

/-! ## A program -/

namespace Sample

def ident (name : String) : Ident := ⟨name, default⟩

def num (text : String) : Expr := .number default text

/-- A variable, or an element of an array. -/
def get (name : String) (indices : List Expr := []) : Expr := .lval default (ident name) indices

def add : Expr → Expr → Expr := .binary default .add

def call (callee : String) : List Expr → Expr := .call default (ident callee)

def set (name : String) (indices : List Expr) (value : Expr) : Stmt :=
  .assign ⟨default, ident name, indices⟩ default value

/-- The end of a block that returns a value. -/
def ret (value : Expr) : Block := .stmt (.return_ default (some value)) .nil

/-- Expressions between braces. -/
def row (es : List Expr) : InitVal := .list default (es.map .expr)

/-- The definition of a scalar. -/
def scalar (name : String) (value : Expr) : Definition :=
  ⟨ident name, [], some ⟨default, .expr value⟩⟩

/-- The definition of an array. -/
def array (name : String) (dims : List Expr) (init : Option InitVal := none) : Definition :=
  ⟨ident name, dims, init.map (⟨default, ·⟩)⟩

/-- A function that gives back an integer. -/
def function (name : String) (params : List Parameter) (body : Block) : FunctionDef :=
  ⟨.int, ident name, params, body⟩

/-- The body of the loop of `sum`. -/
def sumBody : Block :=
  let previous : Expr := get "a" [.binary default .sub (get "i") (num "1")]
  .stmt (set "i" [] (add (get "i") (num "1"))) <|
  .stmt (.if_ (.compare default .equal (.expr previous) (.expr (num "2"))) (.continue_ default)
    .done) <|
  .stmt (set "s" [] (add (get "s") previous)) .nil

def sum : FunctionDef :=
  function "sum" [⟨ident "a", some []⟩, ⟨ident "n", none⟩] <|
    .decl ⟨false, scalar "i" (num "0"), [scalar "s" (num "0")]⟩ <|
    .stmt (.while_ (.logic default .and
      (.compare default .less (.expr (get "i")) (.expr (get "n"))) (.expr (get "a" [get "i"])))
      (.block sumBody)) <|
    ret (get "s")

def main : FunctionDef :=
  function "main" [] <|
    .stmt (set "g" [num "2"] (call "sum" [get "g", num "3"])) <| ret (get "g" [num "2"])

/-- A program with a loop that has a connective in its condition and is
continued from its middle, on an array that is passed to a function:

    int g[3] = {1, 2};
    int sum(int a[], int n) {
      int i = 0, s = 0;
      while (i < n && a[i]) {
        i = i + 1;
        if (a[i - 1] == 2) continue;
        s = s + a[i - 1];
      }
      return s;
    }
    int main() { g[2] = sum(g, 3); return g[2]; }
-/
def program : Program where
  units := [
    .decl ⟨false, array "g" [num "3"] (row [num "1", num "2"]), []⟩,
    .function sum, .function main]

theorem program_accepted : program.accepted = true := by decide +kernel

theorem exists_ok {ε α : Type} {x : Except ε α} (h : x.toOption.isSome = true) : ∃ a, x = .ok a := by
  cases x with
  | ok a => exact ⟨a, rfl⟩
  | error e => cases h

theorem program_lowers : ∃ m, program.lower.result = .ok m := exists_ok (by decide +kernel)

/-- What can be computed of the first lowered function of a program holds of
it. -/
theorem head_lowers {p : Program} (P : IR.Function → Prop) [DecidablePred P]
    (h : (p.lower.result.toOption.bind (·.functions.head?)).any P = true) :
    ∃ m f, p.lower.result = .ok m ∧ f ∈ m.functions ∧ P f := by
  cases hm : p.lower.result with
  | error e => simp [Except.toOption, hm] at h
  | ok m =>
    rw [hm] at h
    cases hf : m.functions.head? with
    | none => simp [Except.toOption, hf] at h
    | some f => exact ⟨m, f, rfl, List.mem_of_head? hf, by simpa [Except.toOption, hf] using h⟩

/-- The words of `g` at the start, as initialised. -/
def before : Memory := [some (.int 1), some (.int 2), some (.int 0)]

/-- Memory when `main` has ended: `g`, and the variables of `sum`. -/
def after : Memory :=
  [some (.int 1), some (.int 2), some (.int 1), some (.array ⟨0, 3, by decide⟩), some (.int 3),
    some (.int 2), some (.int 1)]

theorem program_runs : Runs program "main" [] before (.int 1) after := by
  have h : (closures [[]] 0 program.units).bind (fun cs => callWith cs 9 "main" [] before)
      = some (.int 1, after) := by decide +kernel
  obtain ⟨cs, hcs, hcall⟩ := Option.bind_eq_some_iff.1 h
  exact ⟨cs, 9, hcs, hcall⟩

end Sample

end SysY.Source
