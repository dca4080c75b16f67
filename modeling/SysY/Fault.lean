/-!
# Faults and failures

A stage of the compiler can refuse its input for a reason the user is told,
an *error*; or it can meet a situation it has no answer for, a *fault*: a
size that does not fit its width, a block that is laid out nowhere, a value
that was given no place. Faults are kept apart from errors and from each
other, so that which of them can arise is a statement about the stage.
-/

namespace SysY

/-- The situations in which a stage has no answer. -/
inductive Fault where
  /-- The first two bytes of a literal end inside a character. -/
  | splitCharacter
  /-- The size of an array, or of a part of one, does not fit its width. -/
  | sizeOverflow
  /-- A function names a block that it does not have. -/
  | unknownBlock (label : Nat)
  /-- A jump leads to a block that is laid out nowhere. -/
  | unplacedBlock (label : Nat)
  /-- A function names a temporary beyond the number it declares. -/
  | unknownTemp (index : Nat)
  /-- A temporary that is live nowhere is asked for its place. -/
  | noPlace (index : Nat)
  /-- An instruction that produces a value has no temporary to put it in. -/
  | noOutput
  /-- The stack frame of a function does not fit in a word. -/
  | frameOverflow
deriving DecidableEq, Repr

/-- Why a stage that reports errors of type `ε` gave no result. -/
inductive Failure (ε : Type) where
  /-- An error of the input. -/
  | error (e : ε)
  /-- A situation without an answer. -/
  | fault (f : Fault)
deriving DecidableEq, Repr

end SysY
