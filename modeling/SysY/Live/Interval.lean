/-!
# Live intervals

The lines of a flattened function at which a temporary has to keep its
value, as a closed interval of line numbers. One interval covers the whole
life of a temporary.

A temporary that is live when a loop is entered has to live until the loop
jumps back, since the next turn may read it. So an interval that begins
before the head of a loop and reaches it is extended to the jump back, and
again for every other loop that this makes it reach.
-/

namespace SysY

/-- A closed interval of lines. -/
structure Interval where
  start : Nat
  stop : Nat
deriving DecidableEq, Repr, Inhabited

/-- A jump back: the line it leads to and the line it stands on. -/
structure BackEdge where
  header : Nat
  back : Nat
deriving DecidableEq, Repr

namespace Interval

/-- Whether a line is in an interval. -/
def covers (i : Interval) (line : Nat) : Bool := i.start ≤ line && line ≤ i.stop

/-- The smallest interval that has another one, if there is one, and a
line. -/
def including (i : Option Interval) (line : Nat) : Interval :=
  match i with
  | none => ⟨line, line⟩
  | some i => ⟨min i.start line, max i.stop line⟩

/-- Whether an interval begins before a loop and reaches it, but ends before
the jump back. -/
def crosses (i : Interval) (e : BackEdge) : Bool :=
  i.start < e.header && e.header ≤ i.stop && i.stop < e.back

/-- Extend an interval over loops that it crosses, at most so many times. -/
def extendWithin (edges : List BackEdge) : Nat → Interval → Interval
  | 0, i => i
  | n + 1, i =>
    match edges.find? i.crosses with
    | some e => extendWithin edges n { i with stop := e.back }
    | none => i

/-- **Extend an interval over the loops it crosses,** until it crosses none.
No jump back is crossed twice, so their number bounds the steps. -/
def extend (edges : List BackEdge) (i : Interval) : Interval := extendWithin edges edges.length i

end Interval

/-- The changes in the number of intervals, by line: one more at each start,
one less after each end. -/
def coverageChanges (lines : Nat) (intervals : List Interval) : Array Int :=
  intervals.foldl (fun delta i => (delta.modify i.start (· + 1)).modify (i.stop + 1) (· - 1))
    (Array.replicate (lines + 1) 0)

/-- The largest number that is reached by adding up changes from `live`. -/
def peakFrom (live : Int) : List Int → Int
  | [] => 0
  | d :: ds => max (live + d) (peakFrom (live + d) ds)

/-- **The largest number of intervals that share a line.** -/
def maxOverlap (lines : Nat) (intervals : List Interval) : Nat :=
  (peakFrom 0 (coverageChanges lines intervals).toList).toNat

end SysY
