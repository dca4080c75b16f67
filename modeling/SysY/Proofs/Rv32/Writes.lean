import SysY.Proofs.Rv32.Access
import SysY.Proofs.Rv32.Path

/-!
# The shape of emitted code

The instructions that lines can become, with where their immediates and symbols
come from (`Home.Writes`). An immediate is a constant, or an offset of something
that the function keeps on the stack; a symbol is a global variable that a line
reads, a function that it calls, or a block.

And what the code of a function consists of after its prologue, as far as its
caller is concerned (`Home.Flows`). Most instructions compute a word in a register,
which is never the stack pointer, nor a saved register that the prologue has not
saved. Then there are stores to the stack, all below the area of saved registers;
stores of the program; calls; jumps to blocks of the function; and, at each return
statement, the whole epilogue. Statements about all instructions of such code
follow from here by cases (`Home.Flows.instr`), without another look at how
instructions are selected.
-/

namespace SysY.Rv32

open IR (Value Line Label Temp Op FlatBlock Flat)
open List

/-! ## Code for the stack -/

section

variable {P : Instr → Prop} {h : Home} {code : List Instr}

theorem forall_atStack {access : Int → Reg → Instr} {offset : Nat}
    (hnear : fitsImmediate (Int32.ofNat offset) = true → P (access offset .sp))
    (hli : P (.li addressReg offset)) (hadd : P (.alu .add addressReg addressReg .sp))
    (hfar : P (access 0 addressReg)) : ∀ i ∈ atStack access offset, P i := by
  unfold atStack
  split
  next hfits => simpa using hnear hfits
  next => simpa using ⟨hli, hadd, hfar⟩

theorem forall_stackAddress {rd : Reg} {offset : Nat}
    (hnear : fitsImmediate (Int32.ofNat offset) = true → P (.addi rd .sp offset))
    (hli : P (.li rd offset)) (hadd : P (.alu .add rd rd .sp)) :
    ∀ i ∈ stackAddress rd offset, P i := by
  unfold stackAddress
  split
  next hfits => simpa using hnear hfits
  next => simpa using ⟨hli, hadd⟩

theorem forall_moveStack {w : Int32} (hnear : fitsImmediate w = true → P (.addi .sp .sp w.toInt))
    (hli : P (.li frameReg w.toInt)) (hadd : P (.alu .add .sp .sp frameReg)) :
    ∀ i ∈ moveStack w, P i := by
  unfold moveStack
  split
  next hfits => simpa using hnear hfits
  next => simpa using ⟨hli, hadd⟩

theorem forall_prologue (hcode : h.prologue = .ok code) (hmove : ∀ w, ∀ i ∈ moveStack w, P i)
    (hstore : ∀ x ∈ h.cells, ∀ i ∈ storeStack x.1 x.2, P i) : ∀ i ∈ code, P i := by
  intro i hi
  rw [Home.prologue_ok hcode, mem_append, mem_flatMap] at hi
  obtain hi | ⟨x, hx, hi⟩ := hi
  · exact hmove _ i hi
  · exact hstore x hx i hi

theorem forall_restore (hmove : ∀ w, ∀ i ∈ moveStack w, P i)
    (hload : ∀ x ∈ h.cells, ∀ i ∈ loadStack x.1 x.2, P i) : ∀ i ∈ h.restore, P i := by
  intro i hi
  rw [Home.restore_eq, mem_append, mem_flatMap] at hi
  obtain ⟨x, hx, hi⟩ | hi := hi
  · exact hload x (Home.mem_loadedCells.1 hx) i hi
  · exact hmove _ i hi

end

/-! ## Registers that are written -/

/-- The register that an instruction writes. -/
def Instr.target? : Instr → Option Reg
  | li rd _ | la rd _ | mv rd _ | alu _ rd _ _ | addi rd _ _ | xori rd _ _ | slli rd _ _ | seqz rd _
  | snez rd _ | lw rd _ _ => some rd
  | call _ => some .ra
  | sw .. | j _ | beqz .. | bnez .. | ret | ecall => none

/-- All that an instruction does that writes a register. -/
theorem exec_of_target? {img : Image} {c c' : Cpu} {i : Instr} {rd : Reg} (ht : i.target? = some rd)
    (h : i.exec img c = some c') : ∃ w, c' = c.set rd w := by
  cases i with
  | li | mv | alu | seqz | snez =>
    cases ht
    cases h
    exact ⟨_, rfl⟩
  | la | addi | xori | lw =>
    cases ht
    obtain ⟨_, -, rfl⟩ := Option.map_eq_some_iff.1 h
    exact ⟨_, rfl⟩
  | slli =>
    cases ht
    simp only [Instr.exec] at h
    split at h
    · cases h
      exact ⟨_, rfl⟩
    · cases h
  | call => cases h
  | sw | j | beqz | bnez | ret | ecall => cases ht

/-- The registers that an instruction names. -/
def Instr.registers : Instr → List Reg
  | li rd _ | la rd _ => [rd]
  | mv rd rs | addi rd rs _ | xori rd rs _ | slli rd rs _ | seqz rd rs | snez rd rs | lw rd _ rs
  | sw rd _ rs => [rd, rs]
  | alu _ rd rs1 rs2 => [rd, rs1, rs2]
  | beqz rs _ | bnez rs _ => [rs]
  | j _ | call _ | ret | ecall => []

/-! ## Instructions -/

namespace Home

variable (h : Home) (flat : Flat) (lines : List Line)

/-- **The instructions that lines may become.** -/
inductive Writes : Instr → Prop
  | const (rd : Reg) (n : Int32) : Writes (.li rd n.toInt)
  | global {name} (hname : IsRead lines (.global name)) (rd : Reg) : Writes (.la rd name)
  /-- A word on the stack is read or written. -/
  | stack {obj offset} (hk : h.Keeps lines obj offset 4) {r i}
      (hi : i ∈ loadStack r offset ∨ i ∈ storeStack r offset) : Writes i
  /-- An array is pointed to. -/
  | address {obj offset n} (hk : h.Keeps lines obj offset n) {r i}
      (hi : i ∈ stackAddress r offset) : Writes i
  /-- The stack pointer moves. -/
  | leave {by_ i} (hi : i ∈ moveStack by_) : Writes i
  | mv (rd rs : Reg) : Writes (.mv rd rs)
  | alu (op : AluOp) (rd a b : Reg) : Writes (.alu op rd a b)
  | negate (rd : Reg) : Writes (.xori rd rd 1)
  | scale (rd rs : Reg) : Writes (.slli rd rs 2)
  | seqz (rd rs : Reg) : Writes (.seqz rd rs)
  | snez (rd rs : Reg) : Writes (.snez rd rs)
  | load (rd base : Reg) : Writes (.lw rd 0 base)
  | store (rs base : Reg) : Writes (.sw rs 0 base)
  | branch {l name} (hname : h.symbol l = .ok name) {r i}
      (hi : i = .j name ∨ i = .beqz r name ∨ i = .bnez r name) : Writes i
  | call {output callee args} (hline : .instr ⟨output, .call callee args⟩ ∈ lines) :
      Writes (.call callee)
  | ret : Writes .ret

/-- The registers that the body of a function may write. -/
def Writable (r : Reg) : Prop :=
  r ≠ .sp ∧ r ≠ .zero ∧ ∀ k, r = .s k → r ∈ h.frame.preserved

/-- An instruction that computes a word in a register that may be written. -/
structure Computes (i : Instr) : Prop where
  straight : i.isStraight = true
  target : ∃ rd, i.target? = some rd ∧ h.Writable rd
  writes : h.Writes lines i

/-- **Code that computes words in registers that may be written**, with what it accesses on
the stack, in order. It loads the words of objects and takes their addresses, at the offsets
where they are, and has otherwise nothing to do with the stack pointer. -/
inductive Computing : List Access → List Instr → Prop
  | nil : Computing [] []
  | cons {i acc code} (hi : h.Computes lines i) (hsp : .sp ∉ i.registers)
      (tail : Computing acc code) : Computing acc (i :: code)
  | load {obj offset rd acc code} (hk : h.Keeps lines obj offset 4) (hrd : h.Writable rd)
      (tail : Computing acc code) :
      Computing (.load obj :: acc) (loadStack rd offset ++ code)
  | address {obj offset n rd acc code} (hk : h.Keeps lines obj offset n) (hrd : h.Writable rd)
      (tail : Computing acc code) :
      Computing (.address obj :: acc) (stackAddress rd offset ++ code)

/-- **The shape of code**, from some line of a function to its end, with what it accesses on
the stack, in order; the flag says whether control may run on after the end. -/
inductive Flows : List Access → Bool → List AsmLine → Prop
  | nil : Flows [] true []
  | label (name : String) {acc b rest} (tail : Flows acc b rest) :
      Flows acc b (.label name :: rest)
  | remark (text : String) {acc b rest} (tail : Flows acc b rest) :
      Flows acc b (.comment text :: rest)
  /-- Words are computed in registers. -/
  | compute {acc acc' code b rest} (hcode : h.Computing flat.lines acc code) (hne : code ≠ [])
      (tail : Flows acc' b rest) : Flows (acc ++ acc') b (code.map .instr ++ rest)
  /-- The word of an object is stored, below the area of saved registers. -/
  | spill {r offset obj acc b rest} (hr : r ≠ addressReg) (hoffset : offset < h.frame.saved)
      (hk : h.Keeps flat.lines obj offset 4) (tail : Flows acc b rest) :
      Flows (.store obj :: acc) b ((storeStack r offset).map .instr ++ rest)
  /-- A word is stored at an address that the program has computed. -/
  | store {r base acc b rest} (hr : r ≠ .sp) (hsp : base ≠ .sp) (haddress : base ≠ addressReg)
      (tail : Flows acc b rest) : Flows acc b (.instr (.sw r 0 base) :: rest)
  /-- A word is stored in a global variable. -/
  | global {r name acc b rest} (hr : r ≠ .sp) (hname : IsRead flat.lines (.global name))
      (tail : Flows acc b rest) :
      Flows acc b (.instr (.la addressReg name) :: .instr (.sw r 0 addressReg) :: rest)
  | call {output callee args acc b rest} (hline : .instr ⟨output, .call callee args⟩ ∈ flat.lines)
      (tail : Flows acc b rest) : Flows acc b (.instr (.call callee) :: rest)
  | branch {r l name i acc b rest} (hr : r ≠ .sp) (hl : l ∈ flat.blocks.map (·.label))
      (hname : h.symbol l = .ok name) (hi : i = .beqz r name ∨ i = .bnez r name)
      (tail : Flows acc b rest) : Flows acc b (.instr i :: rest)
  | jump {l name acc b rest} (hl : l ∈ flat.blocks.map (·.label)) (hname : h.symbol l = .ok name)
      (tail : Flows acc b rest) : Flows acc false (.instr (.j name) :: rest)
  /-- A value is brought into the register for results, and the function returns. -/
  | ret {output v acc acc' code b rest} (hline : .instr ⟨output, .ret v⟩ ∈ flat.lines)
      (hcode : h.readInto v returnReg = .ok code) (hcomputing : h.Computing flat.lines acc code)
      (tail : Flows acc' b rest) :
      Flows (acc ++ h.exitAccess ++ acc') false ((code ++ h.epilogue).map .instr ++ rest)
  | retVoid {output acc b rest} (hline : .instr ⟨output, .retVoid⟩ ∈ flat.lines)
      (tail : Flows acc b rest) :
      Flows (h.exitAccess ++ acc) false (h.epilogue.map .instr ++ rest)

variable {h flat lines} {i : Instr} {r rd : Reg} {code code' : List Instr} {offset : Nat} {b b' : Bool} {asm asm' : List AsmLine} {acc acc' : List Access}
  {obj : StackObject}

/-! ## Computing -/

theorem writable_t (h : Home) (n : Fin 7) : h.Writable (.t n) :=
  ⟨Reg.noConfusion, Reg.noConfusion, fun _ => Reg.noConfusion⟩

theorem writable_a (h : Home) (n : Fin 8) : h.Writable (.a n) :=
  ⟨Reg.noConfusion, Reg.noConfusion, fun _ => Reg.noConfusion⟩

namespace Computing

theorem single (hi : h.Computes lines i) (hsp : .sp ∉ i.registers) : h.Computing lines [] [i] :=
  .cons hi hsp .nil

theorem append (hcode : h.Computing lines acc code) (hcode' : h.Computing lines acc' code') :
    h.Computing lines (acc ++ acc') (code ++ code') := by
  induction hcode with
  | nil => exact hcode'
  | cons hi hsp _ ih => exact .cons hi hsp ih
  | load hk hrd _ ih =>
    rw [append_assoc]
    exact .load hk hrd ih
  | address hk hrd _ ih =>
    rw [append_assoc]
    exact .address hk hrd ih

/-- Every instruction computes a word. -/
theorem computes (hcode : h.Computing lines acc code) : ∀ i ∈ code, h.Computes lines i := by
  induction hcode with
  | nil => exact forall_mem_nil _
  | cons hi _ _ ih => exact forall_mem_cons.2 ⟨hi, ih⟩
  | @load _ offset rd _ _ hk hrd _ ih =>
    have hshape : ∀ i ∈ loadStack rd offset,
        i.isStraight = true ∧ ∃ r, i.target? = some r ∧ h.Writable r :=
      forall_atStack (fun _ => ⟨rfl, rd, rfl, hrd⟩) ⟨rfl, _, rfl, h.writable_t 3⟩
        ⟨rfl, _, rfl, h.writable_t 3⟩ ⟨rfl, rd, rfl, hrd⟩
    exact forall_mem_append.2
      ⟨fun i hi => ⟨(hshape i hi).1, (hshape i hi).2, .stack hk (.inl hi)⟩, ih⟩
  | @address _ offset _ rd _ _ hk hrd _ ih =>
    have hshape : ∀ i ∈ stackAddress rd offset,
        i.isStraight = true ∧ ∃ r, i.target? = some r ∧ h.Writable r :=
      forall_stackAddress (fun _ => ⟨rfl, rd, rfl, hrd⟩) ⟨rfl, rd, rfl, hrd⟩ ⟨rfl, rd, rfl, hrd⟩
    exact forall_mem_append.2
      ⟨fun i hi => ⟨(hshape i hi).1, (hshape i hi).2, .address hk hi⟩, ih⟩

/-- Nothing is accessed without an instruction. -/
theorem eq_nil (hcode : h.Computing lines acc []) : acc = [] := by
  generalize hnone : ([] : List Instr) = code at hcode
  cases hcode with
  | nil => rfl
  | cons => cases hnone
  | load | address =>
    simp only [loadStack, atStack, stackAddress] at hnone
    split at hnone <;> cases hnone

theorem of_load (hk : h.Keeps lines obj offset 4) (hrd : h.Writable rd) :
    h.Computing lines [.load obj] (loadStack rd offset) := by
  have hload := Computing.load hk hrd .nil
  rwa [append_nil] at hload

theorem of_address {n : Nat} (hk : h.Keeps lines obj offset n) (hrd : h.Writable rd) :
    h.Computing lines [.address obj] (stackAddress rd offset) := by
  have haddress := Computing.address hk hrd .nil
  rwa [append_nil] at haddress

theorem of_move (hrd : h.Writable rd) {rs : Reg} (hrs : rs ≠ .sp) :
    h.Computing lines [] (move rd rs) := by
  unfold move
  split
  · exact .nil
  · exact .single ⟨rfl, ⟨rd, rfl, hrd⟩, .mv rd rs⟩ (by simp [Instr.registers, hrd.1.symm, hrs.symm])

end Computing

theorem computing_compare (hrd : h.Writable rd) {x y : Reg} (hx : x ≠ .sp) (hy : y ≠ .sp)
    (op : IR.CmpOp) : h.Computing lines [] (compare op rd x y) := by
  have halu : ∀ op {p q : Reg}, p ≠ .sp → q ≠ .sp → ∀ {code}, h.Computing lines [] code →
      h.Computing lines [] (.alu op rd p q :: code) := fun op _ _ hp hq _ =>
    .cons ⟨rfl, ⟨rd, rfl, hrd⟩, .alu ..⟩ (by simp [Instr.registers, hrd.1.symm, hp.symm, hq.symm])
  have hself : .sp ∉ [rd, rd] := by simp [hrd.1.symm]
  cases op with
  | lt => exact halu _ hx hy .nil
  | gt => exact halu _ hy hx .nil
  | le => exact halu _ hy hx (.single ⟨rfl, ⟨rd, rfl, hrd⟩, .negate rd⟩ hself)
  | ge => exact halu _ hx hy (.single ⟨rfl, ⟨rd, rfl, hrd⟩, .negate rd⟩ hself)
  | eq => exact halu _ hx hy (.single ⟨rfl, ⟨rd, rfl, hrd⟩, .seqz rd rd⟩ hself)
  | ne => exact halu _ hx hy (.single ⟨rfl, ⟨rd, rfl, hrd⟩, .snez rd rd⟩ hself)

theorem computing_elementAddress {x y : Reg} (hrd : h.Writable rd) (hx : x ≠ .sp) (hy : y ≠ .sp) :
    h.Computing lines [] (elementAddress rd x y) :=
  .cons ⟨rfl, ⟨_, rfl, h.writable_t 1⟩, .scale ..⟩ (by simp [Instr.registers, rhsReg, hy.symm])
    (.single ⟨rfl, ⟨rd, rfl, hrd⟩, .alu ..⟩ (by simp [Instr.registers, rhsReg, hrd.1.symm, hx.symm]))

/-! ## Shapes -/

namespace Flows

/-- Control that runs on after code comes to the code after it. -/
theorem append (hasm : h.Flows flat acc b asm) (hasm' : h.Flows flat acc' b' asm') :
    h.Flows flat (acc ++ acc') (b && b') (asm ++ asm') := by
  induction hasm with
  | nil => exact (Bool.true_and b').symm ▸ hasm'
  | label name _ ih => exact .label name ih
  | remark text _ ih => exact .remark text ih
  | compute hcode hne _ ih =>
    rw [append_assoc, append_assoc]
    exact .compute hcode hne ih
  | spill hr hoffset hk _ ih =>
    rw [append_assoc]
    exact .spill hr hoffset hk ih
  | store hr hsp haddress _ ih => exact .store hr hsp haddress ih
  | global hr hname _ ih => exact .global hr hname ih
  | call hline _ ih => exact .call hline ih
  | branch hr hl hname hi _ ih => exact .branch hr hl hname hi ih
  | jump hl hname _ ih => exact .jump hl hname ih
  | ret hline hcode hcomputing _ ih =>
    rw [append_assoc _ _ acc', append_assoc _ _ asm']
    exact .ret hline hcode hcomputing ih
  | retVoid hline _ ih =>
    rw [append_assoc, append_assoc]
    exact .retVoid hline ih

/-- The same of instructions only. -/
theorem append_map (hcode : h.Flows flat acc true (code.map .instr))
    (hcode' : h.Flows flat acc' b (code'.map .instr)) :
    h.Flows flat (acc ++ acc') b ((code ++ code').map .instr) := by
  have happend := hcode.append hcode'
  rwa [← map_append, Bool.true_and] at happend

theorem of_computing (hcode : h.Computing flat.lines acc code) :
    h.Flows flat acc true (code.map .instr) := by
  by_cases hne : code = []
  · subst hne
    cases hcode.eq_nil
    exact .nil
  · have hcompute := Flows.compute hcode hne .nil
    rwa [append_nil, append_nil] at hcompute

theorem of_spill (hr : r ≠ addressReg) (hoffset : offset < h.frame.saved)
    (hk : h.Keeps flat.lines obj offset 4) :
    h.Flows flat [.store obj] true ((storeStack r offset).map .instr) := by
  have hspill := Flows.spill hr hoffset hk (nil : h.Flows flat [] true [])
  rwa [append_nil] at hspill

end Flows

/-! ## Saved registers -/

theorem target_moveStack (w : Int32) (k : Fin 12) : ∀ i ∈ moveStack w, i.target? ≠ some (.s k) :=
  forall_moveStack (fun _ => by simp [Instr.target?]) (by simp [Instr.target?, frameReg])
    (by simp [Instr.target?])

theorem target_storeStack (r : Reg) (offset : Nat) (k : Fin 12) :
    ∀ i ∈ storeStack r offset, i.target? ≠ some (.s k) :=
  forall_atStack (fun _ => by simp [Instr.target?]) (by simp [Instr.target?, addressReg])
    (by simp [Instr.target?, addressReg]) (by simp [Instr.target?])

theorem mem_preserved_of_cell {x : Reg × Nat} (hx : x ∈ h.cells) :
    x.1 = .ra ∨ x.1 ∈ h.frame.preserved := by
  obtain rfl | hx := mem_cons.1 hx
  · exact .inl rfl
  · exact .inr (map_savedCells h ▸ mem_map_of_mem hx)

/-- A saved register that an instruction writes is one that is restored. -/
def Spares (h : Home) (i : Instr) : Prop := ∀ k, i.target? = some (.s k) → .s k ∈ h.frame.preserved

theorem Computes.spares (hi : h.Computes lines i) : h.Spares i := by
  intro k hk
  obtain ⟨rd, hrd, hwritable⟩ := hi.target
  cases hrd.symm.trans hk
  exact hwritable.2.2 k rfl

theorem spares_of_cell {x : Reg × Nat} (hx : x ∈ h.cells) : ∀ i ∈ loadStack x.1 x.2, h.Spares i := by
  have hload : ∀ n base, h.Spares (.lw x.1 n base) := fun n base k hk => by
    obtain heq : x.1 = .s k := Option.some.inj hk
    exact heq ▸ (mem_preserved_of_cell hx).resolve_left (heq ▸ Reg.noConfusion)
  refine forall_atStack (fun _ => hload _ _) ?_ ?_ (hload _ _)
  · rintro k ⟨⟩
  · rintro k ⟨⟩

/-- An epilogue consists of what lines may become. -/
theorem epilogue_instr : ∀ i ∈ h.epilogue, h.Writes lines i ∧ h.Spares i := by
  intro i hi
  rw [epilogue_eq] at hi
  obtain hi | hi := mem_append.1 hi
  · exact forall_restore (P := fun i => h.Writes lines i ∧ h.Spares i)
      (fun w i hi => ⟨.leave hi, fun k hk => absurd hk (target_moveStack w k i hi)⟩)
      (fun x hx i hi => ⟨.stack (.cell hx) (.inl hi), spares_of_cell hx i hi⟩) i hi
  · cases mem_singleton.1 hi
    exact ⟨.ret, by rintro k ⟨⟩⟩

/-- **The instructions of emitted code** are what the lines of the function may become,
and write no saved register that is not restored. -/
theorem Flows.instr (hflows : h.Flows flat acc b asm) (hi : .instr i ∈ asm) :
    h.Writes flat.lines i ∧ h.Spares i := by
  have hinstr : ∀ {code : List Instr} {rest : List AsmLine}, .instr i ∈ code.map .instr ++ rest →
      i ∈ code ∨ .instr i ∈ rest := by
    intro code rest hmem
    refine (mem_append.1 hmem).imp_left fun hmem => ?_
    obtain ⟨j, hj, heq⟩ := mem_map.1 hmem
    exact AsmLine.instr.inj heq ▸ hj
  induction hflows with
  | nil => cases hi
  | label _ _ ih | remark _ _ ih =>
    obtain heq | hi := mem_cons.1 hi
    · cases heq
    · exact ih hi
  | compute hcode _ _ ih =>
    obtain hi | hi := hinstr hi
    · exact ⟨(hcode.computes i hi).writes, (hcode.computes i hi).spares⟩
    · exact ih hi
  | spill _ _ hk _ ih =>
    obtain hi | hi := hinstr hi
    · exact ⟨.stack hk (.inr hi), fun k hk => absurd hk (target_storeStack _ _ k i hi)⟩
    · exact ih hi
  | store _ _ _ _ ih =>
    obtain heq | hi := mem_cons.1 hi
    · cases heq
      exact ⟨.store .., by rintro k ⟨⟩⟩
    · exact ih hi
  | global _ hname _ ih =>
    rw [mem_cons, mem_cons] at hi
    obtain heq | heq | hi := hi
    · cases heq
      exact ⟨.global hname _, by rintro k ⟨⟩⟩
    · cases heq
      exact ⟨.store .., by rintro k ⟨⟩⟩
    · exact ih hi
  | call hline _ ih =>
    obtain heq | hi := mem_cons.1 hi
    · cases heq
      exact ⟨.call hline, by rintro k ⟨⟩⟩
    · exact ih hi
  | branch _ _ hname hj _ ih =>
    obtain heq | hi := mem_cons.1 hi
    · cases heq
      refine ⟨.branch hname (.inr hj), ?_⟩
      obtain rfl | rfl := hj <;> rintro k ⟨⟩
    · exact ih hi
  | jump _ hname _ ih =>
    obtain heq | hi := mem_cons.1 hi
    · cases heq
      exact ⟨.branch (r := .zero) hname (.inl rfl), by rintro k ⟨⟩⟩
    · exact ih hi
  | ret _ _ hcode _ ih =>
    obtain hi | hi := hinstr hi
    · obtain hi | hi := mem_append.1 hi
      · exact ⟨(hcode.computes i hi).writes, (hcode.computes i hi).spares⟩
      · exact epilogue_instr i hi
    · exact ih hi
  | retVoid _ _ ih =>
    obtain hi | hi := hinstr hi
    · exact epilogue_instr i hi
    · exact ih hi

end Home

end SysY.Rv32
