/-!
# Platforms

What an executable can be built for. Both platforms share the instruction
set and the calling convention; they differ in the toolchain that assembles
and links for them.
-/

namespace SysY

/-- What an executable is built for. -/
inductive Platform where
  /-- Linux on a 32-bit machine. -/
  | linux
  /-- A machine without an operating system, such as a simulator. -/
  | elf
deriving DecidableEq, Repr

namespace Platform

/-- The name of a platform on the command line. -/
def name : Platform → String
  | linux => "linux"
  | elf => "elf"

def ofName? (s : String) : Option Platform := [linux, elf].find? (·.name = s)

/-- The compiler driver that assembles and links for a platform. -/
def command : Platform → String
  | linux => "riscv32-linux-gnu-gcc"
  | elf => "riscv32-unknown-elf-gcc"

end Platform

end SysY
