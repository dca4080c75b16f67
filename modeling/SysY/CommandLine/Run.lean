import SysY.CommandLine.Args
import SysY.FrontEnd
import SysY.IR.Text
import SysY.Rv32.Emit

/-!
# Running the command line

A command line is run in a world that can do three things for it: read a
file, open a file for writing, and start a toolchain. What a run does is
computed from the answers of that world; carrying it out, on the files of a
real machine or on listed ones, is left to the world.

A run ends with an exit code: 0 if all went well, 1 if the program or the
world refused, 2 if the command line is not well formed, 101 at a fault.
-/

namespace SysY.CommandLine

/-- Why the world does not open a file or start a program. -/
inductive HostError where
  | notFound
  | denied
  | notDirectory
  | isDirectory
  | notText
deriving DecidableEq, Repr

def HostError.message : HostError → String
  | notFound => "No such file or directory (os error 2)"
  | denied => "Permission denied (os error 13)"
  | notDirectory => "Not a directory (os error 20)"
  | isDirectory => "Is a directory (os error 21)"
  | notText => "stream did not contain valid UTF-8"

/-- Why a run failed: what went wrong, and the causes, outermost first. -/
structure Trouble where
  message : String
  causes : List String := []
deriving DecidableEq, Repr

/-- The text of a failure. Causes are numbered if there are several. -/
def Trouble.text (t : Trouble) : String :=
  let causes := match t.causes with
    | [] => ""
    | [c] => "\n\nCaused by:\n    " ++ c
    | cs => "\n\nCaused by:" ++
        String.join (cs.zipIdx.map fun (c, i) => "\n    " ++ toString i ++ ": " ++ c)
  "Error: " ++ t.message ++ causes ++ "\n"

/-- A run of the toolchain, which assembles and links what it is given to
read. -/
structure Link where
  platform : Platform
  output : String
  strip : Bool
deriving DecidableEq, Repr

def Link.args (l : Link) : List String :=
  ["-march=rv32im", "-mabi=ilp32", "-nostdlib", "-static", "-o", l.output, "-xassembler", "-"] ++
    if l.strip then ["-s"] else []

/-- The run of the toolchain that a job asks for. -/
def Job.link (job : Job) : Link where
  platform := job.platform
  output := job.output
  strip := job.strip

/-- How a job emits its module. -/
def Job.options (job : Job) : Rv32.Options where
  registers := job.registers
  annotate := job.annotate

structure Ending where
  exit : Nat
  stdout : String := ""
  stderr : String := ""
  /-- The file it writes, with its content. -/
  written : Option (String × String) := none
  /-- The toolchain it starts, with what that is given to read. -/
  linked : Option (Link × String) := none
deriving DecidableEq, Repr

namespace Ending

def failed (t : Trouble) : Ending where
  exit := 1
  stderr := t.text

def faulted : Ending where
  exit := 101
  stderr := "Internal error\n"

/-- The end of a run whose program is rejected. An error of the lowering is
shown as a failure of the run, the others in the form of diagnostics. -/
def rejected : Rejection → Ending
  | .lower e => failed { message := s!"Line {e.line}: " ++ e.value.message }
  | r => { exit := 1, stderr := r.diagnostics.text }

def version : Ending where
  exit := 0
  stdout := "SysY compiler 1.0.0\n"

/-- The end of a run whose command line is not well formed. -/
def misused : Ending where
  exit := 2
  stderr := "Usage: [-S] [-s] [--emit-ir] [--annotate] [--registers N] [-t PLATFORM] [-o FILE] SOURCE\n"

end Ending

/-- What is left to do once the source is read and compiled. The text is a
fault if the module has none; the place to write it to is opened first. -/
inductive Action where
  /-- Nothing: the run has ended. -/
  | stop (ending : Ending)
  | print (text : Except Fault String)
  | write (path : String) (text : Except Fault String)
  /-- Have the toolchain build an executable. -/
  | build (link : Link) (text : Except Fault String)

/-- The action that writes a text where the job asks. -/
def Job.deliver (job : Job) (text : Except Fault String) : Action :=
  if job.output = "-" then .print text else .write job.output text

def Job.assembly (job : Job) (m : IR.Module) : Except Fault String :=
  (Rv32.emit job.options m).result.map Rv32.asmText

/-- What a job does with a module. The intermediate representation goes
before assembly, and an executable never goes to the standard output. -/
def Job.produce (job : Job) (m : IR.Module) : Action :=
  if job.emitIR then job.deliver m.text
  else if job.asm then job.deliver (job.assembly m)
  else if job.output = "-" then
    .stop (.failed { message := "Refusing to write executable to stdout" })
  else .build job.link (job.assembly m)

/-- What a job does, given its source or why that cannot be read. -/
def Job.action (job : Job) (source : Except HostError String) : Action :=
  match source with
  | .error e =>
    .stop (.failed { message := "Failed to read: " ++ job.source, causes := [e.message] })
  | .ok text =>
    match (IR.Module.ofText text true).result with
    | .error (.error r) => .stop (.rejected r)
    | .error (.fault _) => .stop .faulted
    | .ok m => job.produce m

/-- What the world can do for a run. -/
structure Host where
  read : String → Except HostError String
  /-- Open a file for writing. -/
  create : String → Except HostError Unit
  /-- Start a toolchain, and its exit status once it has read its input. -/
  start : Link → Except HostError Nat

def Action.run (host : Host) : Action → Ending
  | .stop ending => ending
  | .print (.ok text) => { exit := 0, stdout := text }
  | .print (.error _) => .faulted
  | .write path text =>
    match host.create path, text with
    | .error e, _ =>
      .failed { message := "Failed to open for writing: " ++ path, causes := [e.message] }
    | .ok (), .ok text => { exit := 0, written := some (path, text) }
    | .ok (), .error _ => .faulted
  | .build link text =>
    match host.start link, text with
    | .error e, _ => .failed { message := "Failed to link", causes := ["I/O error", e.message] }
    | .ok _, .error _ => .faulted
    | .ok status, .ok text =>
      let ending : Ending :=
        if status = 0 then { exit := 0 }
        else .failed {
          message := "Failed to generate executable: " ++ link.output
          causes := ["Linker exited with status code " ++
            s!"ExitStatus(unix_wait_status({256 * status}))"] }
      { ending with linked := some (link, text) }

/-- **How a command line ends.** -/
def run (host : Host) (args : List String) : Ending :=
  match Request.ofArgs? args with
  | none => .misused
  | some .version => .version
  | some (.compile job) => (job.action (host.read job.source)).run host

end SysY.CommandLine
