import SysY.Event
import SysY.Live.Analysis
import SysY.Rv32.Select

/-!
# Emitting assembly

A module as lines of assembly: its globals as data, then the code, function
by function. Each function is flattened, its live intervals are given places
in as many saved registers as the options allow, its frame is laid out, and
its blocks are written in order.
-/

namespace SysY.Rv32

open IR (Line Label FlatBlock)

/-- How a module is to be emitted. -/
structure Options where
  /-- How many saved registers to use; there are twelve. -/
  registers : Nat := 12
  /-- Whether to write an entry point that calls `main` and ends the process
  with its result. -/
  startStub : Bool := true
  /-- Whether to remark on the line that code comes from. -/
  annotate : Bool := false
deriving DecidableEq, Repr

/-- The registers that may be used. -/
def Options.pool (o : Options) : List Reg := Reg.saved.take o.registers

/-- The entry point. -/
def startStub : List AsmLine :=
  [.globl "_start", .label "_start", .instr (.call "main"), .instr (.li (.a (Fin.last 7)) 93), .instr .ecall]

def dataSection (globals : List IR.Global) : List AsmLine :=
  if globals.isEmpty then []
  else .data ::
    (globals.flatMap fun g => [.alignWord, .label g.name] ++ g.init.map .word) ++ [.blank]

namespace Home

/-- The code of a line, after a remark if one is asked for. -/
def lineCode (h : Home) (annotate : Bool) (next : Option Label) (line : Line) :
    Except Fault (List AsmLine) := do
  let remark ← if annotate then do pure [.comment (← line.text h.function)] else pure []
  let code ← h.line next line
  return remark ++ code.map .instr

/-- The code of lines, one after the other. -/
def linesCode (h : Home) (annotate : Bool) (next : Option Label) :
    List Line → Except Fault (List AsmLine)
  | [] => return []
  | line :: lines => do
    let here ← h.lineCode annotate next line
    return here ++ (← h.linesCode annotate next lines)

/-- The code of blocks, in the order in which they are laid out. -/
def blocksCode (h : Home) (annotate : Bool) : List FlatBlock → Except Fault (List AsmLine)
  | [] => return []
  | b :: bs => do
    let symbol ← h.symbol b.label
    let code ← h.linesCode annotate (bs.head?.map (·.label)) b.lines
    return .label symbol :: code ++ (← h.blocksCode annotate bs)

def body (h : Home) (annotate : Bool) (flat : IR.Flat) : Except Fault (List AsmLine) := do
  let prologue ← h.prologue
  return prologue.map .instr ++ (← h.blocksCode annotate flat.blocks)

end Home

/-- What emission comes to: the events on the way, which are kept when it
fails, and the lines. -/
structure Emission where
  events : List Event
  result : Except Fault (List AsmLine)

def planned (live : Liveness) (pool : List Reg) (plan : Plan Reg) : Event :=
  .planned (live.intervals.toList.filterMap id).length live.maxLive plan.used.length plan.slots
    (Plan.reserved pool live.maxLive)

/-- A function, flattened, with the lives of its temporaries. -/
def analyzed (f : IR.Function) : Except Fault (IR.Flat × Liveness) := do
  let flat ← f.flatten
  return (flat, ← Liveness.analyze f.temps flat)

/-- **Emit a function.** -/
def emitFunction (o : Options) (f : IR.Function) : Emission :=
  match analyzed f with
  | .error e => ⟨[], .error e⟩
  | .ok (flat, live) =>
    let plan := Plan.make live.intervals o.pool live.maxLive
    let lines := flat.lines
    let events := [planned live o.pool plan, .flattened f.name lines.length flat.blocks.length]
    match Frame.make lines plan with
    | .error e => ⟨events, .error e⟩
    | .ok frame =>
      let kinds := tempKinds 0 (Array.replicate f.temps .value) lines
      let home : Home := { function := f, plan, kinds, frame }
      let framed := Event.framed f.name frame.size plan.slots (arrayWords lines)
        frame.preserved.length
      ⟨events ++ [framed], (home.body o.annotate flat).map fun body =>
        [.blank, .globl f.name, .label f.name] ++ body⟩

def emitFunctions (o : Options) : List IR.Function → Emission
  | [] => ⟨[], .ok []⟩
  | f :: fs =>
    let here := emitFunction o f
    match here.result with
    | .error e => ⟨here.events, .error e⟩
    | .ok lines =>
      let rest := emitFunctions o fs
      ⟨here.events ++ rest.events, rest.result.map (lines ++ ·)⟩

/-- **Emit a module.** -/
def emit (o : Options) (m : IR.Module) : Emission :=
  let functions := emitFunctions o m.functions
  { functions with
    result := functions.result.map fun code =>
      dataSection m.globals ++ [.code] ++ (if o.startStub then startStub else []) ++ code }

end SysY.Rv32
