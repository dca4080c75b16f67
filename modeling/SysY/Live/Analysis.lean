import SysY.IR.Flat
import SysY.Live.Interval

/-!
# Liveness of temporaries

Which lines of a flattened function each temporary is live at. A temporary is
live from the first line that reads or assigns it to the last one, extended
over the loops it crosses. Arrays have no interval: they live in the stack
frame and their address is computed where it is needed.
-/

namespace SysY

open IR

/-- What is known of the lives of a function's temporaries. -/
structure Liveness where
  /-- The interval of each temporary, if it has one. -/
  intervals : Array (Option Interval)
  /-- The largest number of temporaries that are live at one line. -/
  maxLive : Nat
deriving DecidableEq, Repr

namespace Liveness

/-- The temporaries that stand for arrays. -/
def arrayTemps (lines : List Line) : List Temp :=
  lines.filterMap fun
    | .instr ⟨some t, .array _⟩ => some t
    | _ => none

/-- The temporaries of lines with the numbers of those lines, in order. -/
def touches (lines : List Line) : List (Temp × Nat) :=
  lines.zipIdx.flatMap fun (line, n) => line.temps.map (·, n)

/-- The intervals from first to last touch. -/
def spans (temps : Nat) (touched : List (Temp × Nat)) : Array (Option Interval) :=
  touched.foldl (fun intervals (t, n) => intervals.modify t fun i => some (.including i n))
    (Array.replicate temps none)

/-- The jumps back of a flattened function. A jump has to lead to a block
that is laid out. -/
def backEdges (flat : Flat) : Except Fault (List BackEdge) := do
  let jumps := flat.lines.zipIdx.flatMap fun (line, n) => line.successors.map (·, n)
  let edges ← jumps.mapM fun (l, n) =>
    match flat.start? l with
    | some header => pure (BackEdge.mk header n)
    | none => throw (Fault.unplacedBlock l)
  return edges.filter fun e => e.header ≤ e.back

/-- **Analyse a flattened function** with a number of temporaries, which its
lines have to respect. -/
def analyze (temps : Nat) (flat : Flat) : Except Fault Liveness := do
  let lines := flat.lines
  let touched := touches lines
  match touched.find? (temps ≤ ·.1) with
  | some (t, _) => throw (.unknownTemp t)
  | none =>
    let arrays := arrayTemps lines
    let intervals := spans temps (touched.filter (!arrays.contains ·.1))
    let edges ← backEdges flat
    let intervals := intervals.map (·.map (·.extend edges))
    return ⟨intervals, maxOverlap lines.length (intervals.toList.filterMap id)⟩

end Liveness

end SysY
