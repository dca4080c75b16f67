import Mathlib.Logic.Relation
import SysY.Rv32.Emit

/-!
# A machine for the assembly

What the instructions that the compiler writes do on an RV32IM processor. A
program is *loaded* as a list of lines: the words of its data stand one after
the other from some address on, and every line of code has an address, at
which `ret` finds it again.

The machine is strict where the processor or the assembler would be. It gets
stuck on an address that is not a multiple of four, an immediate that does not
fit its twelve bits, a symbol that is not defined, and where control runs into
data.
-/

namespace SysY.Rv32

open List

/-! ## Registers and memory -/

/-- The address that a word stands for. -/
def address (w : Int32) : Nat := w.toBitVec.toNat

/-- The registers and the memory of the machine; memory is a word at each
address that is a multiple of four. -/
structure Cpu where
  regs : Reg → Int32
  /-- The words of memory, by their addresses. -/
  mem : Nat → Int32

namespace Cpu

/-- What a register holds. -/
def get (c : Cpu) (r : Reg) : Int32 := if r = .zero then 0 else c.regs r

def set (c : Cpu) (r : Reg) (w : Int32) : Cpu :=
  { c with regs := fun q => if q = r then w else c.regs q }

def poke (c : Cpu) (a : Nat) (w : Int32) : Cpu :=
  { c with mem := fun b => if b = a then w else c.mem b }

variable {c : Cpu} {q r : Reg} {w : Int32} {a b : Nat}

theorem get_set_self (h : r ≠ .zero) : (c.set r w).get r = w := by
  simp [get, set, h]

theorem get_set_of_ne (h : q ≠ r) : (c.set r w).get q = c.get q := by
  simp [get, set, h]

@[simp] theorem get_poke (c : Cpu) (a : Nat) (w : Int32) (r : Reg) : (c.poke a w).get r = c.get r :=
  rfl

@[simp] theorem mem_poke_self (c : Cpu) (a : Nat) (w : Int32) : (c.poke a w).mem a = w := if_pos rfl

theorem mem_poke_of_ne (h : b ≠ a) : (c.poke a w).mem b = c.mem b := if_neg h

end Cpu

/-! ## Programs -/

/-- A program in memory. -/
structure Image where
  lines : List AsmLine
  /-- The address of its first word of data. -/
  data : Nat
  /-- The address of each line of code. -/
  code : Nat → Int32
  /-- The line of code at an address. -/
  line? : Int32 → Option Nat

namespace Image

/-- The line that a label marks. -/
def label? (img : Image) (name : String) : Option Nat := img.lines.findIdx? (· = .label name)

/-- Whether a line is a word of data. -/
def isWord : AsmLine → Bool
  | .word _ => true
  | _ => false

/-- The address of a symbol of data: it comes after the words before it. -/
def symbol? (img : Image) (name : String) : Option Int32 :=
  (img.label? name).map fun k => Int32.ofNat (img.data + 4 * (img.lines.take k).countP isWord)

/-- Lines of code are found at their addresses. -/
def Loaded (img : Image) : Prop := ∀ k ≤ img.lines.length, img.line? (img.code k) = some k

end Image

/-! ## Instructions -/

/-- What an operation on two registers computes. A division by zero gives -1,
or the dividend as remainder. -/
def AluOp.apply (op : AluOp) (a b : Int32) : Int32 :=
  match op with
  | add => a + b
  | sub => a - b
  | mul => a * b
  | div => if b = 0 then -1 else a / b
  | rem => if b = 0 then a else a % b
  | slt => if a < b then 1 else 0

/-- An immediate, if it fits. -/
def immediate? (n : Int) : Option Int32 :=
  if fitsImmediate (Int32.ofInt n) then some (Int32.ofInt n) else none

/-- The address at an offset from a register, if it is one of a word. -/
def Cpu.address? (c : Cpu) (base : Reg) (offset : Int) : Option Nat := do
  let n ← immediate? offset
  let a := address (c.get base + n)
  if a % 4 = 0 then some a else none

/-- **What an instruction does** that goes on with the next line. -/
def Instr.exec (img : Image) (c : Cpu) : Instr → Option Cpu
  | li rd n => some (c.set rd (Int32.ofInt n))
  | la rd name => (img.symbol? name).map (c.set rd)
  | mv rd rs => some (c.set rd (c.get rs))
  | alu op rd a b => some (c.set rd (op.apply (c.get a) (c.get b)))
  | addi rd rs n => (immediate? n).map fun n => c.set rd (c.get rs + n)
  | xori rd rs n => (immediate? n).map fun n => c.set rd (c.get rs ^^^ n)
  | slli rd rs n => if n < 32 then some (c.set rd (c.get rs <<< Int32.ofNat n)) else none
  | seqz rd rs => some (c.set rd (if c.get rs = 0 then 1 else 0))
  | snez rd rs => some (c.set rd (if c.get rs = 0 then 0 else 1))
  | lw rd offset base => (c.address? base offset).map fun a => c.set rd (c.mem a)
  | sw rs offset base => (c.address? base offset).map fun a => c.poke a (c.get rs)
  | j _ | beqz .. | bnez .. | call _ | ret | ecall => none

/-- What instructions do, one after the other. -/
def execAll (img : Image) : List Instr → Cpu → Option Cpu
  | [], c => some c
  | i :: is, c => (i.exec img c).bind (execAll img is)

/-! ## Steps -/

structure State where
  /-- The line that is next. -/
  pc : Nat
  cpu : Cpu

namespace Image

variable (img : Image)

/-- Go on at a label. -/
def goto (name : String) (c : Cpu) : Option State := (img.label? name).map (⟨·, c⟩)

/-- What an instruction does. The services of the environment are not
modelled. -/
def perform (s : State) : Instr → Option State
  | .j l => img.goto l s.cpu
  | .beqz r l => if s.cpu.get r = 0 then img.goto l s.cpu else some ⟨s.pc + 1, s.cpu⟩
  | .bnez r l => if s.cpu.get r = 0 then some ⟨s.pc + 1, s.cpu⟩ else img.goto l s.cpu
  | .call f => img.goto f (s.cpu.set .ra (img.code (s.pc + 1)))
  | .ret => (img.line? (s.cpu.get .ra)).map (⟨·, s.cpu⟩)
  | i => (i.exec img s.cpu).map (⟨s.pc + 1, ·⟩)

/-- **One step of the machine.** Lines that are neither instructions nor data
do nothing. -/
def step (s : State) : Option State :=
  match img.lines[s.pc]? with
  | some (.instr i) => img.perform s i
  | some (.label _) | some (.globl _) | some (.comment _) | some .blank => some { s with pc := s.pc + 1 }
  | _ => none

/-- The machine comes from one state to another. -/
def Reaches : State → State → Prop := Relation.ReflTransGen fun s s' => img.step s = some s'

/-- Lines stand in the program from a place on. -/
def At (pc : Nat) (lines : List AsmLine) : Prop :=
  ∃ before after, img.lines = before ++ (lines ++ after) ∧ before.length = pc

end Image

/-! ## Code in its place -/

variable {img : Image} {pc : Nat} {line : AsmLine} {lines lines' : List AsmLine} {c c' : Cpu}
  {s s' s'' : State} {is is' : List Instr} {name : String}

namespace Image.At

theorem head (h : img.At pc (line :: lines)) : img.lines[pc]? = some line := by
  obtain ⟨before, after, heq, rfl⟩ := h
  rw [heq, getElem?_append_right (Nat.le_refl _), Nat.sub_self]
  rfl

theorem append_left (h : img.At pc (lines ++ lines')) : img.At pc lines := by
  obtain ⟨before, after, heq, hlen⟩ := h
  exact ⟨before, lines' ++ after, by rw [heq, append_assoc], hlen⟩

theorem append_right (h : img.At pc (lines ++ lines')) : img.At (pc + lines.length) lines' := by
  obtain ⟨before, after, heq, rfl⟩ := h
  exact ⟨before ++ lines, after, by simp [heq], length_append⟩

theorem tail (h : img.At pc (line :: lines)) : img.At (pc + 1) lines :=
  (show img.At pc ([line] ++ lines) from h).append_right

theorem le_length (h : img.At pc lines) : pc + lines.length ≤ img.lines.length := by
  obtain ⟨before, after, heq, rfl⟩ := h
  rw [heq, length_append, length_append]
  omega

end Image.At

theorem Instr.perform_of_exec {i : Instr} (h : i.exec img s.cpu = some c) :
    img.perform s i = some ⟨s.pc + 1, c⟩ := by
  cases i with
  | j | beqz | bnez | call | ret | ecall => cases h
  | _ => exact congrArg (Option.map _) h

namespace Image.Reaches

protected theorem refl (s : State) : img.Reaches s s := Relation.ReflTransGen.refl

protected theorem trans (h : img.Reaches s s') (h' : img.Reaches s' s'') : img.Reaches s s'' :=
  Relation.ReflTransGen.trans h h'

theorem head (h : img.step s = some s') (h' : img.Reaches s' s'') : img.Reaches s s'' :=
  Relation.ReflTransGen.head h h'

theorem single (h : img.step s = some s') : img.Reaches s s' := Relation.ReflTransGen.single h

end Image.Reaches

theorem step_instr {i : Instr} (h : img.At pc (.instr i :: lines)) :
    img.step ⟨pc, c⟩ = img.perform ⟨pc, c⟩ i := by
  unfold Image.step
  rw [show img.lines[(⟨pc, c⟩ : State).pc]? = _ from h.head]

/-- A label does nothing. -/
theorem reaches_label (h : img.At pc (.label name :: lines)) :
    img.Reaches ⟨pc, c⟩ ⟨pc + 1, c⟩ := by
  refine .single ?_
  unfold Image.step
  rw [show img.lines[(⟨pc, c⟩ : State).pc]? = _ from h.head]

/-- A remark does nothing. -/
theorem reaches_comment {text : String} (h : img.At pc (.comment text :: lines)) :
    img.Reaches ⟨pc, c⟩ ⟨pc + 1, c⟩ := by
  refine .single ?_
  unfold Image.step
  rw [show img.lines[(⟨pc, c⟩ : State).pc]? = _ from h.head]

@[simp] theorem execAll_singleton (i : Instr) (c : Cpu) : execAll img [i] c = i.exec img c := by
  cases h : i.exec img c <;> simp [execAll, h]

theorem execAll_append : execAll img (is ++ is') c = (execAll img is c).bind (execAll img is') := by
  induction is generalizing c with
  | nil => rfl
  | cons i is ih =>
    show (i.exec img c).bind _ = ((i.exec img c).bind _).bind _
    rw [Option.bind_assoc]
    exact congrArg _ (funext fun c => ih)

theorem execAll_trans {c'' : Cpu} (h : execAll img is c = some c') (h' : execAll img is' c' = some c'') :
    execAll img (is ++ is') c = some c'' := by
  rw [execAll_append, h]
  exact h'

/-- Instructions run to a state with a property. -/
def Runs (img : Image) (is : List Instr) (c : Cpu) (Q : Cpu → Prop) : Prop :=
  ∃ c', execAll img is c = some c' ∧ Q c'

theorem Runs.seq {P Q : Cpu → Prop} (h : Runs img is c P) (h' : ∀ c1, P c1 → Runs img is' c1 Q) :
    Runs img (is ++ is') c Q := by
  obtain ⟨c1, hexec, hP⟩ := h
  obtain ⟨c', hexec', hQ⟩ := h' c1 hP
  exact ⟨c', execAll_trans hexec hexec', hQ⟩

/-- **Instructions are executed one after the other.** -/
theorem reaches_of_execAll (hat : img.At pc (is.map .instr ++ lines))
    (h : execAll img is c = some c') : img.Reaches ⟨pc, c⟩ ⟨pc + is.length, c'⟩ := by
  induction is generalizing pc c with
  | nil =>
    cases h
    exact .refl _
  | cons i is ih =>
    obtain ⟨c1, hexec, hrest⟩ := Option.bind_eq_some_iff.1 h
    refine .head ((step_instr hat).trans (Instr.perform_of_exec hexec)) ?_
    have hnext := ih hat.tail hrest
    rwa [Nat.add_assoc, Nat.add_comm 1] at hnext

/-! ## Labels -/

def labels (lines : List AsmLine) : List String :=
  lines.filterMap fun
    | .label name => some name
    | _ => none

/-- A label marks the line where it stands, if it stands nowhere else. -/
theorem label?_of_at (hnodup : (labels img.lines).Nodup) (h : img.At pc (.label name :: lines)) :
    img.label? name = some pc := by
  obtain ⟨before, after, heq, rfl⟩ := h
  rw [heq, labels, filterMap_append, nodup_append] at hnodup
  unfold Image.label?
  rw [heq, findIdx?_append]
  have hnone : before.findIdx? (· = .label name) = none := by
    rw [findIdx?_eq_none_iff]
    intro line hline
    refine decide_eq_false fun heq => ?_
    refine hnodup.2.2 name ?_ name ?_ rfl
    · exact mem_filterMap.2 ⟨line, hline, by rw [heq]⟩
    · exact mem_filterMap.2 ⟨.label name, by simp, rfl⟩
  rw [hnone, cons_append, findIdx?_cons]
  simp

end SysY.Rv32
