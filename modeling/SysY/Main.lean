import SysY.CommandLine.Run

/-!
# The program

Runs the command line on the files of the machine. It starts no other
program, so an executable is refused as it is where no toolchain is found.
-/

namespace SysY.CommandLine

/-- The error of the world behind an error of the system. -/
def HostError.ofSystem : IO.Error → HostError
  | .permissionDenied .. => denied
  | .inappropriateType _ 20 _ => notDirectory
  | .inappropriateType .. => isDirectory
  | _ => notFound

def readText (path : String) : IO (Except HostError String) := do
  match ← (IO.FS.readBinFile path).toBaseIO with
  | .error e => return .error (.ofSystem e)
  | .ok bytes =>
    match String.fromUTF8? bytes with
    | some text => return .ok text
    | none => return .error .notText

/-- Open the file that an action writes, if it writes one. -/
def openTarget (action : Action) : IO (Except HostError Unit) := do
  match action with
  | .write path _ =>
    match ← (IO.FS.writeFile path "").toBaseIO with
    | .error e => return .error (.ofSystem e)
    | .ok () => return .ok ()
  | _ => return .ok ()

/-- Do what a run ends with. -/
def conclude (ending : Ending) : IO UInt32 := do
  match ending.written with
  | some (path, text) => IO.FS.writeFile path text
  | none => pure ()
  IO.print ending.stdout
  IO.eprint ending.stderr
  return ending.exit.toUInt32

end SysY.CommandLine

open SysY.CommandLine in
def main (args : List String) : IO UInt32 := do
  match Request.ofArgs? args with
  | some (.compile job) =>
    let source ← readText job.source
    let action := job.action source
    let target ← openTarget action
    let host : Host := ⟨fun _ => source, fun _ => target, fun _ => .error .notFound⟩
    conclude (action.run host)
  | _ => conclude (run ⟨fun _ => .error .notFound, fun _ => .ok (), fun _ => .error .notFound⟩ args)
