import SysY.Finding

/-!
# Events

What the stages of the compiler tell about their progress. An event is data;
its level and wording are what a log shows of it.
-/

namespace SysY

/-- How much an event matters. -/
inductive Level where
  | debug
  | trace
deriving DecidableEq, Repr

/-- One thing that happened. -/
inductive Event where
  | checking (units : Nat)
  | reported (f : Finding)
  /-- A finding is covered by an earlier one of its line. -/
  | covered (f : Finding) (by_ : FindingKind)
  | checked (errors : Nat)
  | lowering (function : String)
  | lowered (function : String) (blocks locals : Nat)
  /-- Live ranges were given places. -/
  | planned (ranges maxLive registers slots estimated : Nat)
  | flattened (function : String) (lines blocks : Nat)
  | framed (function : String) (bytes slots words saved : Nat)
deriving DecidableEq, Repr

namespace Event

def level : Event → Level
  | lowered .. => .trace
  | _ => .debug

def message : Event → String
  | checking n => s!"checking {n} top-level units"
  | reported f => s!"line {f.line}: {f.kind.name}"
  | covered f by_ => s!"line {f.line}: {f.kind.name} covered by {by_.name}"
  | checked n => s!"semantic analysis found {n} errors"
  | lowering f => s!"lowering function `{f}`"
  | lowered f blocks locals => s!"function `{f}`: {blocks} blocks, {locals} locals"
  | planned ranges maxLive registers slots estimated =>
    s!"{ranges} live ranges, max live {maxLive}, {registers} registers, {slots} spill slots " ++
      s!"({estimated} estimated)"
  | flattened f lines blocks => s!"{f}: {lines} lines, {blocks} blocks"
  | framed f bytes slots words saved =>
    s!"frame of {f}: {bytes} bytes, {slots} spill slots, {words} array words, " ++
      s!"{saved} preserved registers"

/-- An event as a line of a log: its level and its wording. -/
def text (e : Event) : String :=
  (match e.level with
    | .debug => "DEBUG "
    | .trace => "TRACE ") ++ e.message

end Event

end SysY
