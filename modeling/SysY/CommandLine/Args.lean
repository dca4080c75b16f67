import SysY.Platform

/-!
# Arguments of the command line

Arguments are read one by one, from the left. One that starts with `--` is a
long option, one that starts with `-` a cluster of short ones, and any other,
`-` alone among them, names the source. After `--` every argument names the
source. An option that takes a value finds it in the rest of its own argument
or else in the next one, which then must not look like an option.

Some faults end the reading where they stand: an argument that has no
meaning, a value that its option refuses, a second source. The others are
noticed at the end: an option without its value, an option with a value that
is given twice, no source. The difference shows when the version is asked
for, since that ends the reading too.
-/

namespace SysY.CommandLine

/-- What the command line asks to compile, and how. -/
structure Job where
  source : String
  /-- The file to write; `-` is the standard output. -/
  output : String := "a.out"
  platform : Platform := .linux
  /-- Whether to write assembly instead of an executable. -/
  asm : Bool := false
  /-- Whether to write the intermediate representation instead. -/
  emitIR : Bool := false
  /-- Whether the assembly has remarks. -/
  annotate : Bool := false
  strip : Bool := false
  registers : Nat := 12
deriving DecidableEq, Repr

/-- What the command line asks for. -/
inductive Request where
  | version
  | compile (job : Job)
deriving DecidableEq, Repr

/-- The options that take a value. -/
inductive Valued where
  | output
  | target
  | registers
deriving DecidableEq, Repr

/-- The options that take none. -/
inductive Flag where
  | asm
  | emitIR
  | annotate
  | strip
deriving DecidableEq, Repr

/-- What an option is. -/
inductive Switch where
  /-- An option without a value. -/
  | flag (f : Flag)
  /-- An option with a value. -/
  | valued (v : Valued)
  | version
deriving DecidableEq, Repr

def Switch.ofLetter? : Char → Option Switch
  | 'S' => some (.flag .asm)
  | 's' => some (.flag .strip)
  | 'o' => some (.valued .output)
  | 't' => some (.valued .target)
  | 'V' => some .version
  | _ => none

def Switch.ofName? : String → Option Switch
  | "emit-ir" => some (.flag .emitIR)
  | "annotate" => some (.flag .annotate)
  | "target" => some (.valued .target)
  | "registers" => some (.valued .registers)
  | "version" => some .version
  | _ => none

/-- The arguments read so far. -/
structure Draft where
  source : Option String := none
  output : Option String := none
  platform : Option Platform := none
  registers : Option Nat := none
  /-- The options without a value that are given. -/
  flags : List Flag := []
  /-- Whether a fault was met that shows at the end. -/
  faulty : Bool := false
deriving DecidableEq, Repr

/-- The number that decimal digits, perhaps after a plus sign, spell. -/
def number? (s : String) : Option Nat :=
  let digits := match s.toList with
    | '+' :: cs => cs
    | cs => cs
  if digits.isEmpty || !digits.all Char.isDigit then none
  else some (digits.foldl (fun n c => n * 10 + (c.toNat - '0'.toNat)) 0)

/-- The number of registers that a text asks for, which is from 1 to 12. -/
def registers? (s : String) : Option Nat :=
  (number? s).filter fun n => 1 ≤ n && n ≤ 12

namespace Draft

/-- The draft with a value of an option, if the option takes that value. -/
def give (d : Draft) (v : Valued) (s : String) : Option Draft :=
  match v with
  | .output => some { d with output := some s, faulty := d.faulty || d.output.isSome }
  | .target => (Platform.ofName? s).map fun p =>
      { d with platform := some p, faulty := d.faulty || d.platform.isSome }
  | .registers => (registers? s).map fun n =>
      { d with registers := some n, faulty := d.faulty || d.registers.isSome }

/-- The draft with a source, if it has none yet. -/
def name (d : Draft) (s : String) : Option Draft :=
  if d.source.isSome then none else some { d with source := some s }

/-- The draft with an option without a value. -/
def raise (d : Draft) (f : Flag) : Draft := { d with flags := f :: d.flags }

/-- What a whole command line asks for, if nothing is wrong with it. -/
def finish (d : Draft) : Option Request :=
  if d.faulty then none
  else d.source.map fun source => .compile {
    source
    output := d.output.getD "a.out"
    platform := d.platform.getD .linux
    asm := d.flags.contains .asm
    emitIR := d.flags.contains .emitIR
    annotate := d.flags.contains .annotate
    strip := d.flags.contains .strip
    registers := d.registers.getD 12 }

end Draft

/-- What an argument leads to. -/
inductive Step where
  /-- To go on, perhaps with an option that waits for its value. -/
  | next (d : Draft) (waiting : Option Valued)
  | version
  | refuse
deriving DecidableEq, Repr

/-- Go on with a draft, if there is one. -/
def Step.ofDraft? : Option Draft → Step
  | some d => .next d none
  | none => .refuse

/-- A cluster of short options. The first that takes a value has the rest of
the cluster for it, less an equals sign in front, or else waits for the next
argument. -/
def cluster (d : Draft) : List Char → Step
  | [] => .next d none
  | c :: cs =>
    match Switch.ofLetter? c with
    | some (.flag f) => cluster (d.raise f) cs
    | some .version => .version
    | some (.valued v) =>
      match cs with
      | [] => .next d (some v)
      | '=' :: rest => .ofDraft? (d.give v (String.ofList rest))
      | rest => .ofDraft? (d.give v (String.ofList rest))
    | none => .refuse

/-- A long option, after its dashes: a name, and a value after an equals
sign if there is one. -/
def long (d : Draft) (cs : List Char) : Step :=
  let name := String.ofList (cs.takeWhile (· ≠ '='))
  match Switch.ofName? name, cs.dropWhile (· ≠ '=') with
  | some (.flag f), [] => .next (d.raise f) none
  | some .version, [] => .version
  | some (.valued v), [] => .next d (some v)
  | some (.valued v), _ :: rest => .ofDraft? (d.give v (String.ofList rest))
  | _, _ => .refuse

/-- The arguments after `--`, which are sources. -/
def sources (d : Draft) : List String → Option Request
  | [] => d.finish
  | s :: rest => (d.name s).bind (sources · rest)

/-- The draft when the next argument is an option, or there is none: an
option that still waits for its value does not get it. -/
def Draft.abandon (d : Draft) (waiting : Option Valued) : Draft :=
  { d with faulty := d.faulty || waiting.isSome }

/-- The step that one argument makes. -/
def step (d : Draft) (waiting : Option Valued) (arg : String) : Step :=
  match arg.toList, waiting with
  | '-' :: '-' :: cs, _ => long (d.abandon waiting) cs
  | '-' :: c :: cs, _ => cluster (d.abandon waiting) (c :: cs)
  | _, some v => .ofDraft? (d.give v arg)
  | _, none => .ofDraft? (d.name arg)

/-- What the rest of a command line asks for. -/
def readFrom (d : Draft) (waiting : Option Valued) : List String → Option Request
  | [] => (d.abandon waiting).finish
  | arg :: rest =>
    if arg = "--" then sources (d.abandon waiting) rest
    else
      match step d waiting arg with
      | .next d waiting => readFrom d waiting rest
      | .version => some .version
      | .refuse => none

/-- **What a command line asks for**, if it is well formed. -/
def Request.ofArgs? (args : List String) : Option Request := readFrom {} none args

end SysY.CommandLine
