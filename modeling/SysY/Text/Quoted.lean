import SysY.Text.Invisible

/-!
# Quoted characters

How a message shows a single character: between quotes, with an escape in
place of a character that would not show, or that would end the quotation.
-/

namespace SysY.Text

/-- The characters that have an escape by letter, and that letter. -/
def letterEscape? : Char → Option Char
  | '\x00' => some '0'
  | '\t' => some 't'
  | '\r' => some 'r'
  | '\n' => some 'n'
  | '\'' => some '\''
  | '\\' => some '\\'
  | _ => none

/-- A character between quotes. One without a form of its own is written by
its code point, in hexadecimal without leading zeros. -/
def quote (c : Char) : String :=
  let body :=
    match letterEscape? c with
    | some letter => "\\" ++ String.singleton letter
    | none =>
      if isInvisible c then "\\u\x7b" ++ String.ofList (Nat.toDigits 16 c.toNat) ++ "\x7d"
      else String.singleton c
  "'" ++ body ++ "'"

end SysY.Text
