import SysY.Check
import SysY.Diagnostic
import SysY.Lower.Program

/-!
# The front end

From the text of a program to its module: the text is scanned, parsed,
checked and lowered, and the first of these stages that refuses it gives the
answer. Checking can be left out, and then lowering may be the stage that
finds a name undefined.

Events come out beside the result, also when there is none: what a stage has
noted before it stopped is kept.
-/

namespace SysY

/-- The errors for which a text has no module. -/
inductive Rejection where
  /-- The scanner found errors; these are all of them. -/
  | scan (errors : List (Located Scan.Error))
  | parse (error : Located Parser.Error)
  | check (errors : List Finding)
  | lower (error : Located Lower.Error)
deriving Repr

namespace Rejection

def entries : Rejection → List Diagnostic
  | scan es => es.map .ofScan
  | parse e => [.ofParse e]
  | check es => es.map .ofFinding
  | lower e => [.ofLower e]

/-- The errors as they are shown: those of the scanner are of class `A` and
those of the parser of class `B`. -/
def diagnostics (r : Rejection) : Diagnostics :=
  match r with
  | scan _ => { kind := "A", entries := r.entries }
  | parse _ => { kind := "B", entries := r.entries }
  | _ => { entries := r.entries }

end Rejection

/-- The program that a text spells. -/
def Program.ofText (text : String) : Except Rejection Program :=
  match Scan.tokens (Input.ofString text) with
  | .error es => .error (.scan es)
  | .ok tokens =>
    match Program.parse tokens with
    | .error e => .error (.parse e)
    | .ok p => .ok p

/-- The events of a computation, and its result or why there is none: the
text is rejected, or a stage met a situation without an answer. -/
structure Progress (α : Type) where
  events : List Event
  result : Except (Failure Rejection) α

/-- The program that a text spells, checked if that is asked for. -/
def Program.examine (text : String) (check : Bool) : Progress Program :=
  match Program.ofText text with
  | .error r => ⟨[], .error (.error r)⟩
  | .ok p =>
    if check then
      let verdict := p.check
      ⟨verdict.events,
        if verdict.errors.isEmpty then .ok p else .error (.error (.check verdict.errors))⟩
    else ⟨[], .ok p⟩

/-- **The module of a text**, checked first if that is asked for. -/
def IR.Module.ofText (text : String) (check : Bool) : Progress IR.Module :=
  let examined := Program.examine text check
  match examined.result with
  | .error failure => ⟨examined.events, .error failure⟩
  | .ok p =>
    let outcome := p.lower
    ⟨examined.events ++ outcome.events, match outcome.result with
      | .ok m => .ok m
      | .error (.error e) => .error (.error (.lower e))
      | .error (.fault f) => .error (.fault f)⟩

end SysY
