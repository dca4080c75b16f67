import SysY.Lower.Symbol
import SysY.Syntax

/-!
# Initial values of arrays

An initial value is laid out over the words of the variable, row by row. A
list fills its array from the front: an expression takes the next word, and a
nested list begins at the next row of the array and fills that row. Words that
nothing is given for stay empty, and what is left over when the array is full
is dropped.
-/

namespace SysY.Lower

/-- The number of words of an array. -/
def volume : List Nat → Nat
  | [] => 1
  | d :: ds => d * volume ds

/-- The most words that an object may have: its size in bytes is a positive
signed integer of 32 bits. -/
def maxWords : Nat := (0x7fffffff) / 4

/-- The number of words of the array `name`. One that is too large is an error
as long as the number can be told, in 64 bits. -/
def checkedWords (dims : List Nat) (name : Ident) : Except Stop Nat :=
  let words := volume dims
  if words ≤ maxWords then .ok words
  else if words < 0x8000000000000000 then fail name.span (.badDimension words)
  else .error (.fault .sizeOverflow)

/-- The number of words of an array or of a row, if it fits in 32 bits. -/
def wordVolume (dims : List Nat) : Except Stop Nat :=
  if volume dims < 0x100000000 then .ok (volume dims) else .error (.fault .sizeOverflow)

/-- The first multiple of `stride` that is not below `n`. -/
def roundUp (n stride : Nat) : Nat := (n + stride - 1) / stride * stride

def isList : InitVal → Bool
  | .expr _ => false
  | .list .. => true

mutual

/-- The words that an item fills: a word for an expression, and for a list the
array of dimensions `dims`. -/
def layItem (dims : List Nat) : InitVal → List (Option Expr)
  | .expr e => [some e]
  | .list _ items => layItems dims 0 items

/-- The words of an array of dimensions `dims` from number `filled` on, when
the items are what is left of its list. -/
def layItems (dims : List Nat) (filled : Nat) : List InitVal → List (Option Expr)
  | [] => List.replicate (volume dims - filled) none
  | i :: is =>
    let row := dims.tail
    let start := if isList i then roundUp filled (volume row) else filled
    if start < volume dims then
      let words := if isList i then volume row else 1
      List.replicate (start - filled) none ++ layItem row i ++ layItems dims (start + words) is
    else List.replicate (volume dims - filled) none

end

/-- **The words of a variable**: what each of them is initialised with, if
anything. -/
def layOut (dims : List Nat) : InitVal → List (Option Expr)
  | .expr e => some e :: List.replicate (volume dims - 1) none
  | .list _ items => layItems dims 0 items

end SysY.Lower
