import SysY.IR.Basic

/-!
# Running a module

What a module of the intermediate representation does when it is run. Memory
is a growing sequence of words: the global variables come first, and every
`alloca` or `array` that is executed adds the words of a new object at the
end. A function is run block by block, and a phi looks at the block that
control came from.

The machine is strict about what a word may be. A word is either an integer
or an address, and an address knows the object that it points into. So the
machine gets stuck, rather than go on in some arbitrary way, when a program

* reads a word that was never written,
* reads or writes outside of the object that an address points into,
* divides by zero, or
* computes with an address as if it were an integer.

It is a *partial* machine: that a run ends is a derivation of `Run`.
-/

namespace SysY.IR

/-! ## Words and memory -/

/-- An address: an object and a position in it. -/
structure Pointer where
  /-- The word of memory with which the object begins. -/
  base : Nat
  size : Nat
  /-- The position, in words from the beginning of the object. It need not be
  inside the object. -/
  offset : Int
deriving DecidableEq, Repr

/-- What a temporary or a word of memory holds. -/
inductive Val where
  | int (n : Int32)
  | addr (p : Pointer)
deriving DecidableEq, Repr

/-- Memory: its words, of which some were never written. -/
abbrev Memory := List (Option Val)

/-- The address of the first word of an object. -/
def Pointer.first (base size : Nat) : Pointer := ⟨base, size, 0⟩

/-- The word of memory at an address, if it is one of the object's. -/
def Pointer.word? (p : Pointer) : Option Nat :=
  if 0 ≤ p.offset ∧ p.offset < p.size then some (p.base + p.offset.toNat) else none

/-- The address some words further on. -/
def Pointer.shift (p : Pointer) (n : Int32) : Pointer := { p with offset := p.offset + n.toInt }

namespace Memory

/-- What is at an address. -/
def load (mem : Memory) (p : Pointer) : Option Val := do
  let a ← p.word?
  mem[a]?.join

/-- Memory after a word is written at an address. -/
def store (mem : Memory) (p : Pointer) (v : Val) : Option Memory := do
  let a ← p.word?
  if a < mem.length then some (mem.set a (some v)) else none

/-- Memory with a new object of so many words, which are not written yet. -/
def grow (mem : Memory) (words : Nat) : Memory := mem ++ List.replicate words none

end Memory

/-! ## Operations -/

/-- The result of an arithmetic operation, in 32 bits with wrap-around; none
for a division by zero. -/
def BinOp.apply (op : BinOp) (a b : Int32) : Option Int32 :=
  match op with
  | add => some (a + b)
  | sub => some (a - b)
  | mul => some (a * b)
  | div => if b = 0 then none else some (a / b)
  | rem => if b = 0 then none else some (a % b)

def CmpOp.holds (op : CmpOp) (a b : Int32) : Bool :=
  match op with
  | eq => a = b
  | ne => a ≠ b
  | lt => a < b
  | le => a ≤ b
  | gt => b < a
  | ge => b ≤ a

def truthValue (b : Bool) : Int32 := if b then 1 else 0

/-- What the temporaries hold. -/
abbrev Temps := Temp → Val

/-- The temporaries after an instruction gave a result. -/
def Temps.assign (temps : Temps) (output : Option Temp) (v : Val) : Temps :=
  match output with
  | some t => fun u => if u = t then v else temps u
  | none => temps

/-- The address of a global variable, when the first of the given ones begins
at the word `base`. -/
def globalFrom (base : Nat) (name : String) : List Global → Option Pointer
  | [] => none
  | g :: gs =>
    if g.name = name then some (.first base g.init.length)
    else globalFrom (base + g.init.length) name gs

variable (m : Module)

def Module.global? (name : String) : Option Pointer := globalFrom 0 name m.globals

def Module.function? (name : String) : Option Function :=
  m.functions.find? (·.name = name)

section

variable (args : List Val) (temps : Temps)

/-- What a value stands for, given the arguments and the temporaries. -/
def Value.eval : Value → Option Val
  | const n => some (.int n)
  | global name => (m.global? name).map .addr
  | arg i => args[i]?
  | temp t => some (temps t)

/-- What a value stands for, if that is an integer. -/
def Value.int? (v : Value) : Option Int32 :=
  match v.eval m args temps with
  | some (.int n) => some n
  | _ => none

/-- What a value stands for, if that is an address. -/
def Value.addr? (v : Value) : Option Pointer :=
  match v.eval m args temps with
  | some (.addr p) => some p
  | _ => none

/-- **What an operation does** that neither calls a function nor leaves the
block: its result, and memory after it. `previous` is the block that control
came from. -/
def Op.eval (args : List Val) (previous : Option Label) (temps : Temps)
    (mem : Memory) : Op → Option (Val × Memory)
  | alloca => some (.addr (.first mem.length 1), mem.grow 1)
  | array words => some (.addr (.first mem.length words), mem.grow words)
  | load source => do
    let p ← source.addr? m args temps
    let v ← mem.load p
    return (v, mem)
  | store value target => do
    let v ← value.eval m args temps
    let p ← target.addr? m args temps
    let mem ← mem.store p v
    return (.int 0, mem)
  | binary op lhs rhs => do
    let a ← lhs.int? m args temps
    let b ← rhs.int? m args temps
    let n ← op.apply a b
    return (.int n, mem)
  | compare op lhs rhs => do
    let a ← lhs.int? m args temps
    let b ← rhs.int? m args temps
    return (.int (truthValue (op.holds a b)), mem)
  | zext value => do
    let v ← value.eval m args temps
    return (v, mem)
  | phi a fromA b fromB =>
    if previous = some fromA then (a.eval m args temps).map (·, mem)
    else if previous = some fromB then (b.eval m args temps).map (·, mem)
    else none
  | element base offset => do
    let p ← base.addr? m args temps
    let n ← offset.int? m args temps
    return (.addr (p.shift n), mem)
  | jump _ | branch .. | call .. | ret _ | retVoid => none

/-- Where an operation goes on that leads to another block. -/
def Op.target? : Op → Option Label
  | jump l => some l
  | branch cond yes no => (cond.int? m args temps).map fun n => if n = 0 then no else yes
  | _ => none

def evalArgs : List Value → Option (List Val)
  | [] => some []
  | v :: vs => do
    let w ← v.eval m args temps
    let ws ← evalArgs vs
    return w :: ws

end

/-! ## Runs -/

/-- A point of the run of a function. -/
structure Point where
  /-- The block that control came from, if it came from one. -/
  previous : Option Label
  current : Label
  /-- What is left of it. -/
  rest : List Instr
  temps : Temps

def Function.code? (f : Function) (l : Label) : Option (List Instr) := (f.blocks[l]?).map (·.code)

/-- The point at which a function begins. -/
def Function.entry? (f : Function) : Option Point := do
  let l ← f.layout.head?
  let code ← f.code? l
  return ⟨none, l, code, fun _ => .int 0⟩

/-- The temporaries after a call: the result has to be there if it is used. -/
def Temps.receive (temps : Temps) : Option Temp → Option Val → Option Temps
  | none, _ => some temps
  | some t, some v => some (temps.assign (some t) v)
  | some _, none => none

/-- **The runs of a function that end**: from a point and a memory to what is
returned and the memory then. -/
inductive Run : Function → List Val → Point → Memory → Option Val → Memory → Prop
  | step {f args prev cur i rest temps mem v mem' r final} :
    i.op.eval m args prev temps mem = some (v, mem') →
    Run f args ⟨prev, cur, rest, temps.assign i.output v⟩ mem' r final →
    Run f args ⟨prev, cur, i :: rest, temps⟩ mem r final
  | goto {f args prev cur i rest temps mem l code r final} :
    i.op.target? m args temps = some l → f.code? l = some code →
    Run f args ⟨some cur, l, code, temps⟩ mem r final →
    Run f args ⟨prev, cur, i :: rest, temps⟩ mem r final
  | call {f args prev cur output callee vs rest temps mem ws g start v mem' temps' r final} :
    evalArgs m args temps vs = some ws → m.function? callee = some g → g.entry? = some start →
    Run g ws start mem v mem' → temps.receive output v = some temps' →
    Run f args ⟨prev, cur, rest, temps'⟩ mem' r final →
    Run f args ⟨prev, cur, ⟨output, .call callee vs⟩ :: rest, temps⟩ mem r final
  | ret {f args prev cur output value rest temps mem v} :
    value.eval m args temps = some v →
    Run f args ⟨prev, cur, ⟨output, .ret value⟩ :: rest, temps⟩ mem (some v) mem
  | retVoid {f args prev cur output rest temps mem} :
    Run f args ⟨prev, cur, ⟨output, .retVoid⟩ :: rest, temps⟩ mem none mem

/-- **A call of a function** from outside: it ends, with a result and a
memory. -/
def Calls (name : String) (args : List Val) (mem : Memory) (r : Option Val)
    (final : Memory) : Prop :=
  ∃ f start, m.function? name = some f ∧ f.entry? = some start ∧ Run m f args start mem r final

/-! ## What was evaluated -/

section Inversion

variable {m : Module} {args : List Val} {prev : Option Label} {temps : Temps} {mem mem' : Memory}
  {v target : Value} {p : Pointer} {w r : Val}

/-- A global variable is pointed to at its first word. -/
theorem globalFrom_offset {base : Nat} {name : String} {gs : List Global}
    (h : globalFrom base name gs = some p) : p.offset = 0 := by
  induction gs generalizing base with
  | nil => cases h
  | cons g gs ih =>
    rw [globalFrom] at h
    split at h
    · cases h
      rfl
    · exact ih h

theorem Value.eval_of_int? {n : Int32} (h : v.int? m args temps = some n) :
    v.eval m args temps = some (.int n) := by
  unfold int? at h
  split at h
  next hv =>
    cases h
    exact hv
  next => cases h

theorem Value.eval_of_addr? (h : v.addr? m args temps = some p) :
    v.eval m args temps = some (.addr p) := by
  unfold addr? at h
  split at h
  next hv =>
    cases h
    exact hv
  next => cases h

theorem Memory.store_eq_some (h : mem.store p w = some mem') :
    ∃ a, p.word? = some a ∧ a < mem.length ∧ mem' = mem.set a (some w) := by
  obtain ⟨a, ha, h⟩ := Option.bind_eq_some_iff.1 h
  split at h
  next hlt => exact ⟨a, ha, hlt, (Option.some.inj h).symm⟩
  next => cases h

theorem Op.exists_load (h : (load v).eval m args prev temps mem = some (w, mem')) :
    mem' = mem ∧ ∃ p, v.addr? m args temps = some p ∧ mem.load p = some w := by
  obtain ⟨p, hp, h⟩ := Option.bind_eq_some_iff.1 h
  obtain ⟨w, hw, h⟩ := Option.bind_eq_some_iff.1 h
  cases h
  exact ⟨rfl, p, hp, hw⟩

theorem Op.exists_store (h : (store v target).eval m args prev temps mem = some (r, mem')) :
    r = .int 0 ∧ ∃ w p, v.eval m args temps = some w ∧ target.addr? m args temps = some p ∧
      mem.store p w = some mem' := by
  obtain ⟨w, hw, h⟩ := Option.bind_eq_some_iff.1 h
  obtain ⟨p, hp, h⟩ := Option.bind_eq_some_iff.1 h
  obtain ⟨mem1, hstore, h⟩ := Option.bind_eq_some_iff.1 h
  cases h
  exact ⟨rfl, w, p, hw, hp, hstore⟩

end Inversion

end SysY.IR
