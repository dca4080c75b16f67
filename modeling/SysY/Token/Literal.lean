import SysY.Checked
import SysY.Fault

/-!
# Integer literals

A literal is hexadecimal after `0x` or `0X`, octal after a leading `0`, and
decimal otherwise. Its value is an unsigned number of 32 bits, read as a
signed one: `0xffffffff` is `-1`.
-/

namespace SysY.Literal

/-- Why a text is no integer literal. -/
inductive Error where
  /-- A character is no digit of the radix, or there are no digits. -/
  | malformed (text : String)
  /-- The value needs more than 32 bits. -/
  | overflow
deriving DecidableEq, Repr

/-- The value of a character as a digit of `radix`, up to hexadecimal; letters
count in either case. -/
def digit? (radix : Nat) (c : Char) : Option Nat :=
  let value? :=
    if '0' ≤ c ∧ c ≤ '9' then some (c.toNat - '0'.toNat)
    else if 'a' ≤ c ∧ c ≤ 'f' then some (c.toNat - 'a'.toNat + 10)
    else if 'A' ≤ c ∧ c ≤ 'F' then some (c.toNat - 'A'.toNat + 10)
    else none
  value?.filter (· < radix)

/-- The radix that a literal announces, and the digits after the mark that
announces it. A `0x` without anything after it announces octal digits. -/
def split : List Char → Nat × List Char
  | '0' :: x :: d :: ds => if x = 'x' ∨ x = 'X' then (16, d :: ds) else (8, x :: d :: ds)
  | '0' :: d :: ds => (8, d :: ds)
  | cs => (10, cs)

/-- The digits of a text, if all its characters are digits of `radix` and
there is at least one. -/
def digits? (radix : Nat) (cs : List Char) : Option (List Nat) :=
  if cs.isEmpty then none else cs.mapM (digit? radix)

/-- The number that a list of digits denotes, most significant first, if it
has no more than 32 bits: every product and every sum is checked. -/
def ofDigits? (radix : Nat) (ds : List Nat) : Option Nat :=
  ds.foldlM (fun n d => (checked wordLimit (n * radix)).bind fun n => checked wordLimit (n + d)) 0

/-- The value of a literal. A text with a wrong digit is malformed, however
large the number before it. -/
def value (cs : List Char) : Except Error Int32 :=
  let (radix, rest) := split cs
  match digits? radix rest with
  | none => .error (.malformed (String.ofList cs))
  | some ds =>
    match ofDigits? radix ds with
    | some n => .ok (Int32.ofNat n)
    | none => .error .overflow

/-- Whether the first `n` bytes of a text end at a character's end. -/
def boundary : Nat → List Char → Bool
  | 0, _ => true
  | _, [] => true
  | n, c :: cs => c.utf8Size ≤ n && boundary (n - c.utf8Size) cs

/-- **Decode a literal.** The radix mark is looked for in the first two bytes,
which have to end between two characters. -/
def decode (text : String) : Except (Failure Error) Int32 :=
  if boundary 2 text.toList then
    match value text.toList with
    | .ok n => .ok n
    | .error e => .error (.error e)
  else .error (.fault .splitCharacter)

end SysY.Literal
