import SysY.Text.Input
import SysY.Text.Quoted
import SysY.Token
import SysY.Token.Literal

/-!
# Scanning

The scanner reads input items one at a time. Between two items it is in a
`Mode`: at a token boundary, inside a word, a literal, a comment, or after a
mark that the next character may extend. What it does with a character is
decided by the mode alone (`Mode.react`); a token that ends *before* the
character leaves it to be read again from the boundary.

After an error the rest of the line is skipped, so that one line gives at
most one error and scanning goes on with the next line. An unreadable item
is an error in every mode: it is reported where the latest token or blank
began, and the line *after* it is skipped.

`Scan.items` gives tokens and errors in the order they are found;
`Scan.tokens` gives the tokens if there is no error.
-/

namespace SysY.Scan

/-- What can be wrong with an input. -/
inductive Error where
  /-- A line could not be read. -/
  | input
  /-- A character that starts no token. -/
  | badChar (c : Char)
  /-- A mark that has to be doubled stands alone. -/
  | expected (c : Char)
  /-- A word of digits and letters that is no literal. -/
  | literal (e : Literal.Error)
  | unterminatedComment
deriving DecidableEq, Repr

def Error.message : Error → String
  | input => "I/O error"
  | badChar c => "Bad character " ++ Text.quote c ++ " in input stream"
  | expected c => "Expected " ++ Text.quote c
  | literal .overflow => "Integer literal overflow, valid range is [0, 4294967295]"
  | literal (.malformed text) => "Malformed integer literal `" ++ text ++ "`"
  | unterminatedComment => "Unterminated block comment"

/-! ## Character classes -/

/-- Blanks between tokens: space, tab, newline, form feed and carriage
return. -/
def isBlank (c : Char) : Bool :=
  c == ' ' || c == '\t' || c == '\n' || c == '\x0c' || c == '\r'

/-- The characters a word starts with. -/
def isWordStart (c : Char) : Bool := c.isAlpha || c == '_'

/-- The characters a word goes on with. -/
def isWordChar (c : Char) : Bool := c.isAlphanum || c == '_'

/-- The marks that are complete after one character. -/
def shortMark? : Char → Option Mark
  | ',' => some .comma
  | ';' => some .semicolon
  | '+' => some .plus
  | '-' => some .minus
  | '*' => some .times
  | '%' => some .percent
  | '(' => some .openParen
  | ')' => some .closeParen
  | '{' => some .openBrace
  | '}' => some .closeBrace
  | '[' => some .openBracket
  | ']' => some .closeBracket
  | _ => none

/-- The marks that an `=` extends: the mark as it is, and the extended one. -/
def relational? : Char → Option (Mark × Mark)
  | '=' => some (.assign, .equal)
  | '!' => some (.not, .notEqual)
  | '<' => some (.less, .lessEqual)
  | '>' => some (.greater, .greaterEqual)
  | _ => none

/-- The marks that consist of one character twice. -/
def doubled? : Char → Option Mark
  | '&' => some .and
  | '|' => some .or
  | _ => none

/-! ## Modes -/

/-- Where the scanner is between two items. -/
inductive Mode where
  | boundary
  /-- After an error, until the line ends. -/
  | skip
  /-- After a mark that is `short`, or `long` if `=` follows. -/
  | relational (short long : Mark)
  /-- After the first of two equal characters. -/
  | doubled (c : Char) (m : Mark)
  | slash
  /-- In a comment that the line ends. -/
  | lineComment
  /-- In a comment that `*/` ends; `star` says whether the last character was
  an asterisk. -/
  | blockComment (star : Bool)
  /-- In a word of digits and letters that began with a digit. -/
  | number (text : String)
  | word (text : String)
deriving DecidableEq, Repr

/-- What becomes of a character that is taken. -/
inductive Step where
  | shift (m : Mode)
  /-- It is the last character of a token. -/
  | complete (t : Token)
  | fail (e : Error)
deriving DecidableEq, Repr

/-- What the scanner does in a mode with the next character. -/
inductive Reaction where
  | take (s : Step)
  /-- A token has ended before the character, which is left for the
  boundary. -/
  | endBefore (t : Token)
deriving DecidableEq, Repr

/-- What a character does at a token boundary. -/
def begin (c : Char) : Step :=
  if let some m := shortMark? c then .complete (.mark m)
  else if let some (short, long) := relational? c then .shift (.relational short long)
  else if let some m := doubled? c then .shift (.doubled c m)
  else if c == '/' then .shift .slash
  else if isWordStart c then .shift (.word (String.singleton c))
  else if c.isDigit then .shift (.number (String.singleton c))
  else if isBlank c then .shift .boundary
  else .fail (.badChar c)

/-- The token that a word of digits and letters is, or why it is none. -/
def number (text : String) : Except Error Token :=
  match Literal.value text.toList with
  | .ok _ => .ok (.number text)
  | .error e => .error (.literal e)

/-- **What a character does in a mode.** -/
def Mode.react (c : Char) : Mode → Reaction
  | boundary => .take (begin c)
  | skip => .take (.shift (if c == '\n' then boundary else skip))
  | relational short long =>
    if c == '=' then .take (.complete (.mark long)) else .endBefore (.mark short)
  | doubled d m => .take (if c == d then .complete (.mark m) else .fail (.expected d))
  | slash =>
    if c == '/' then .take (.shift lineComment)
    else if c == '*' then .take (.shift (blockComment false))
    else .endBefore (.mark .slash)
  | lineComment => .take (.shift (if c == '\n' then boundary else lineComment))
  | blockComment star =>
    .take (.shift (if star && c == '/' then boundary else blockComment (c == '*')))
  | number text =>
    if c.isAlphanum then .take (.shift (number (text.push c)))
    else
      match Scan.number text with
      | .ok t => .endBefore t
      | .error e => .take (.fail e)
  | word text =>
    if isWordChar c then .take (.shift (word (text.push c))) else .endBefore (Token.ofWord text)

/-- What the end of the input does in a mode; `none` if nothing is pending. -/
def Mode.close : Mode → Option (Except Error Token)
  | boundary | skip | lineComment => none
  | relational short _ => some (.ok (.mark short))
  | doubled d _ => some (.error (.expected d))
  | slash => some (.ok (.mark .slash))
  | blockComment _ => some (.error .unterminatedComment)
  | number text => some (Scan.number text)
  | word text => some (.ok (Token.ofWord text))

/-! ## Runs -/

/-- One thing that scanning yields: a token or an error, with its place. -/
abbrev Found := Except (Located Error) (Located Token)

/-- The scanner between two items. -/
structure State where
  mode : Mode := .boundary
  /-- Where the latest token or blank began. -/
  start : Position := Position.origin
  /-- Where the latest character taken stands. -/
  last : Position := Position.origin
deriving Repr

namespace State

/-- The pending token, from its first character to the latest one taken. -/
def token (s : State) (t : Token) : Found :=
  .ok ⟨t, (Span.single s.start).join (Span.single s.last)⟩

/-- An error, reported where the pending token began. -/
def error (s : State) (e : Error) : Found := .error ⟨e, Span.single s.start⟩

/-- Take character `c`, which stands at `p`. After an error the line is given
up, unless `c` ends it. -/
def take (s : State) (c : Char) (p : Position) : Step → State × List Found
  | .shift m => ({ s with mode := m, last := p }, [])
  | .complete t => ({ s with mode := .boundary, last := p }, [{ s with last := p }.token t])
  | .fail e => ({ s with mode := if c == '\n' then .boundary else .skip }, [s.error e])

/-- **Read one item.** At a boundary a new token or blank begins with it. -/
def feed (s : State) : Input.Item → State × List Found
  | .unreadable => ({ s with mode := .skip }, [s.error .input])
  | .char c p =>
    match s.mode.react c with
    | .take step => { s with start := if s.mode = Mode.boundary then p else s.start }.take c p step
    | .endBefore t =>
      let (s', found) := { s with start := p }.take c p (begin c)
      (s', s.token t :: found)

/-- What is found at the end of the input. -/
def finish (s : State) : List Found :=
  match s.mode.close with
  | none => []
  | some (.ok t) => [s.token t]
  | some (.error e) => [s.error e]

/-- All that is found from a state on. -/
def run (s : State) : List Input.Item → List Found
  | [] => s.finish
  | i :: is =>
    let (s', found) := s.feed i
    found ++ s'.run is

end State

/-- **All tokens and errors of an input,** in the order they are found. -/
def items (input : List Input.Item) : List Found := State.run {} input

def errors (found : List Found) : List (Located Error) :=
  found.filterMap fun
    | .ok _ => none
    | .error e => some e

/-- The tokens of an input, or all its errors if there are any. -/
def tokens (input : List Input.Item) : Except (List (Located Error)) (List (Located Token)) :=
  let found := items input
  match errors found with
  | [] => .ok (found.filterMap fun
      | .ok t => some t
      | .error _ => none)
  | es => .error es

end SysY.Scan
