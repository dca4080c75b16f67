import SysY.Alloc.Plan
import SysY.IR.Flat
import SysY.Rv32.Asm

/-!
# Stack frames

What a function keeps on the stack, from the stack pointer upward: the
arguments beyond the eighth of the functions it calls, the spill slots, its
arrays, the saved registers that it uses, and the return address. The size is
a multiple of sixteen bytes. The arguments beyond the eighth of the function
itself lie just above the frame, where its caller has put them.

What a temporary stands for decides how it is reached: the place of a scalar
variable holds the variable's *contents*, so its address is never needed; an
array has an address in the frame; any other temporary is its value.
-/

namespace SysY.Rv32

open IR

/-- The size of a word in bytes. -/
def wordSize : Nat := 4

/-- The number of arguments that are passed in registers. -/
def registerArgs : Nat := 8

/-- What a temporary stands for. -/
inductive TempKind where
  | value
  | scalar
  /-- An array, by its first word in the area of arrays. -/
  | array (firstWord : Nat)
deriving DecidableEq, Repr

/-- The layout of a stack frame, in bytes from the stack pointer. -/
structure Frame where
  size : Nat
  /-- Where the spill slots begin. -/
  spills : Nat
  /-- Where the arrays begin. -/
  arrays : Nat
  /-- Where the saved registers begin. -/
  saved : Nat
  /-- Where the return address is. -/
  ra : Nat
  /-- The registers that are saved. -/
  preserved : List Reg
deriving DecidableEq, Repr

/-- The bytes that a line needs for arguments beyond the eighth. -/
def outgoingBytes : Line → Nat
  | .instr ⟨_, .call _ args⟩ => (args.length - registerArgs) * wordSize
  | _ => 0

/-- The number of words of the array that a line makes room for. -/
def lineWords : Line → Nat
  | .instr ⟨some _, .array words⟩ => words
  | _ => 0

/-- The number of words of the arrays that lines make room for. -/
def arrayWords : List Line → Nat
  | [] => 0
  | line :: lines => lineWords line + arrayWords lines

/-- What temporaries stand for after lines, given what they stood for before
and the words that arrays have taken. -/
def tempKinds (words : Nat) (kinds : Array TempKind) : List Line → Array TempKind
  | [] => kinds
  | .instr ⟨some t, .alloca⟩ :: lines => tempKinds words (kinds.setIfInBounds t .scalar) lines
  | .instr ⟨some t, .array n⟩ :: lines =>
    tempKinds (words + n) (kinds.setIfInBounds t (.array words)) lines
  | _ :: lines => tempKinds words kinds lines

/-- The first multiple of sixteen that is not below `n`. -/
def roundTo16 (n : Nat) : Nat := (n + 15) / 16 * 16

namespace Frame

/-- The frame for so many bytes of outgoing arguments, slots and words of
arrays, and for these registers. -/
def layOut (outgoing slots words : Nat) (preserved : List Reg) : Frame :=
  let spills := outgoing
  let arrays := spills + slots * wordSize
  let saved := arrays + words * wordSize
  let ra := saved + preserved.length * wordSize
  { size := roundTo16 (ra + wordSize), spills, arrays, saved, ra, preserved }

/-- **The frame of a function**, if its bytes can be counted in 32 bits. -/
def make (lines : List Line) (plan : Plan Reg) : Except Fault Frame :=
  let outgoing := (lines.map outgoingBytes).foldl max 0
  let frame := layOut outgoing plan.slots (arrayWords lines) plan.used
  if frame.ra + wordSize + 15 < 0x100000000 then .ok frame else .error .frameOverflow

/-- Where a spill slot is. -/
def slotOffset (f : Frame) (slot : Nat) : Nat := f.spills + slot * wordSize

/-- Where an array is, by its first word. -/
def arrayOffset (f : Frame) (firstWord : Nat) : Nat := f.arrays + firstWord * wordSize

/-- Where an argument beyond the eighth of the function itself is. -/
def incomingOffset (f : Frame) (index : Nat) : Except Fault Nat :=
  let offset := f.size + (index - registerArgs) * wordSize
  if offset < 0x100000000 then .ok offset else .error .frameOverflow

end Frame

end SysY.Rv32
