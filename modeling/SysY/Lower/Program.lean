import SysY.Event
import SysY.Lower.Stmt

/-!
# Lowering programs

A program becomes a module: its global variables with their words, and its
functions. Global definitions and functions are lowered in order, each with
the names before it in scope; a function is in scope in its own body.
-/

namespace SysY

namespace Lower

open IR (Value Op Instr Label Temp)

/-! ## Functions -/

/-- What is known of a parameter that has a slot of its own. -/
def parameterSymbol (symbols : Symbols) (slot : Value) (p : Parameter) : Except Stop Symbol :=
  match p.array with
  | none => return .scalar slot none
  | some dims => return .array (.pointer slot) (0 :: (← evalDims symbols dims)) none

/-- The code that stores a parameter into a slot of its own, and the
environment in which the slot is the parameter. -/
def lowerParameter (symbols : Symbols) (i : Nat) (p : Parameter) :
    Gen (List Instr × Symbols) := do
  let (room, slot) ← define .alloca
  let symbol ← parameterSymbol symbols slot p
  return (room ++ [⟨none, .store (.arg i) slot⟩], symbols.bind p.name.value symbol)

/-- The code that stores the parameters from number `i` on. -/
def lowerParameters (symbols : Symbols) (i : Nat) : List Parameter → Gen (List Instr × Symbols)
  | [] => return ([], symbols)
  | p :: ps => do
    let (c1, symbols) ← lowerParameter symbols i p
    let (c2, symbols) ← lowerParameters symbols (i + 1) ps
    return (c1 ++ c2, symbols)

/-- The code of a function. A body that does not return gives zero, or
nothing. -/
def functionCode (symbols : Symbols) (functions : Frame Signature) (f : FunctionDef) : Gen Code := do
  let entry ← newBlock "entry"
  let start ← startBlock entry
  let (params, symbols) ← lowerParameters symbols.enter 0 f.params
  let body ← lowerBlock { symbols := symbols.enter, functions } f.body
  let last := match f.returns with
    | .int => Op.ret (.const 0)
    | .void => .retVoid
  return start ++ straight params ++ body ++ perform last

/-- **The function of a definition**, in a scope that has its name already. -/
def lowerFunction (symbols : Symbols) (functions : Frame Signature) (f : FunctionDef) :
    Except Stop IR.Function := do
  let (code, supply) ← functionCode symbols functions f {}
  return {
    name := f.name.value
    void := f.returns = .void
    params := f.params.length
    blocks := code.blocks supply.names.toList
    layout := code.layout
    temps := supply.temps }

/-! ## Globals -/

def globalSymbol (constant : Bool) (name : String) (dims : List Nat) (init : List Int32) : Symbol :=
  if dims.isEmpty then .scalar (.global name) (if constant then init.head? else none)
  else .array (.address (.global name)) dims (if constant then some init else none)

/-- The words of a global variable at the start: constant, and zero where
nothing is given. -/
def globalInit (symbols : Symbols) (dims : List Nat) (words : Nat) :
    Option Initializer → Except Stop (List Int32)
  | none => return List.replicate words 0
  | some init => evalItems symbols (layOut dims init.value)

/-- **The global variables of definitions**, and the environment after them. -/
def lowerGlobals (constant : Bool) (symbols : Symbols) :
    List Definition → Except Stop (List IR.Global × Symbols)
  | [] => return ([], symbols)
  | d :: ds => do
    let dims ← evalDims symbols d.dims
    let words ← checkedWords dims d.name
    let init ← globalInit symbols dims words d.init
    let symbol := globalSymbol constant d.name.value dims init
    let (globals, symbols) ← lowerGlobals constant (symbols.bind d.name.value symbol) ds
    return (⟨d.name.value, init⟩ :: globals, symbols)

/-! ## Programs -/

/-- What lowering comes to: the events on the way, which are kept when it
stops, and the module. -/
structure Outcome where
  events : List Event
  result : Except Stop IR.Module

/-- The outcome with a function before the others. -/
def Outcome.withFunction (f : IR.Function) (o : Outcome) : Outcome where
  events := .lowering f.name :: .lowered f.name f.blocks.length f.temps :: o.events
  result := o.result.map fun m => { m with functions := f :: m.functions }

/-- The outcome with global variables before the others. -/
def Outcome.withGlobals (gs : List IR.Global) (o : Outcome) : Outcome where
  events := o.events
  result := o.result.map fun m => { m with globals := gs ++ m.globals }

/-- Lower what stands at the top level, in order. -/
def lowerUnits (symbols : Symbols) (functions : Frame Signature) : List TopLevel → Outcome
  | [] => ⟨[], .ok ⟨[], []⟩⟩
  | .decl d :: us =>
    match lowerGlobals d.constant symbols d.definitions with
    | .ok (globals, symbols) => (lowerUnits symbols functions us).withGlobals globals
    | .error e => ⟨[], .error e⟩
  | .function f :: us =>
    let functions := (f.name.value, ⟨f.returns = .void, f.params.length⟩) :: functions
    match lowerFunction symbols functions f with
    | .ok function => (lowerUnits symbols functions us).withFunction function
    | .error e => ⟨[.lowering f.name.value], .error e⟩

end Lower

/-- **Lower a program.** -/
def Program.lower (p : Program) : Lower.Outcome := Lower.lowerUnits [[]] [] p.units

end SysY
