import SysY.Proofs.Rv32.Call

/-!
# Paths through the code of a function

An execution of a function, seen from the function itself: it goes from
instruction to instruction, and over a call in one step, of which it knows only
that the callee has kept the calling convention (`Cpu.Preserves`). The function
does not get to know either which addresses its program computes. What it may
count on is that stores through them go where memory is `free` to be changed; the
stores that the compiler makes on its own are those relative to the stack pointer
(`Image.ToStack`).

Nothing is said here of the room that there is on the stack. Addresses are those of
the machine and wrap around, so that a frame has a word at each offset wherever
the stack pointer is (`cell`).
-/

namespace SysY.Rv32

variable {img : Image} {free : Nat → Prop} {c : Cpu}

/-! ## The calling convention -/

/-- The registers that a function preserves for its caller. -/
def Reg.isPreserved : Reg → Bool
  | .ra | .sp | .s _ => true
  | .zero | .t _ | .a _ => false

/-- **The calling convention is kept** from the entry of a function to its exit: the
registers that it has to preserve are the same, and memory is where it is not free
to be changed. -/
structure Cpu.Preserves (free : Nat → Prop) (c c' : Cpu) : Prop where
  get : ∀ ⦃r⦄, r.isPreserved = true → c'.get r = c.get r
  /-- Memory is the same where it is not free. -/
  mem : ∀ ⦃a⦄, ¬ free a → c'.mem a = c.mem a

/-! ## Paths -/

/-- Whether a store at a line goes to the stack: its address is relative to the
stack pointer, or in the scratch register to which the line before has added the
stack pointer. All other stores are those of the program. -/
def Image.ToStack (img : Image) (k : Nat) (base : Reg) : Prop :=
  base = .sp ∨ base = addressReg ∧ 0 < k ∧
    img.lines[k - 1]? = some (.instr (.alu .add addressReg addressReg .sp))

instance (img : Image) (k : Nat) (base : Reg) : Decidable (img.ToStack k base) :=
  inferInstanceAs (Decidable (_ ∨ _))

/-- **One step of a function.** Stores of the program go where memory is free, and a
call is over when the callee, which has kept the convention, has returned. -/
inductive Image.Pass (img : Image) (free : Nat → Prop) : State → State → Prop
  | step {s : State} {s'} (hstep : img.step s = some s')
      (hcall : ∀ g, img.lines[s.pc]? ≠ some (.instr (.call g)))
      (hret : img.lines[s.pc]? ≠ some (.instr .ret))
      (hstore : ∀ r offset base a, img.lines[s.pc]? = some (.instr (.sw r offset base)) →
        ¬ img.ToStack s.pc base → s.cpu.address? base offset = some a → free a) :
      Pass img free s s'
  | call {s : State} {g c} (hcall : img.lines[s.pc]? = some (.instr (.call g)))
      (hcallee : (s.cpu.set .ra (img.code (s.pc + 1))).Preserves free c) :
      Pass img free s ⟨s.pc + 1, c⟩

/-- **A path of so many steps through the code of a function.** -/
inductive Image.Path (img : Image) (free : Nat → Prop) : Nat → State → State → Prop
  | nil (s : State) : Path img free 0 s s
  | cons {n s s1 s'} (head : img.Pass free s s1) (tail : Path img free n s1 s') :
      Path img free (n + 1) s s'

/-- The machine is about to return. -/
def Image.Returning (img : Image) (s : State) : Prop := img.lines[s.pc]? = some (.instr .ret)

variable {n pc : Nat} {s s1 s' : State} {i : Instr} {is : List Instr} {line : AsmLine}
  {lines : List AsmLine}

/-- Whether an instruction goes on with the next line. -/
def Instr.isStraight : Instr → Bool
  | j _ | beqz .. | bnez .. | call _ | ret | ecall => false
  | _ => true

theorem perform_straight (h : i.isStraight = true) :
    img.perform s i = (i.exec img s.cpu).map (⟨s.pc + 1, ·⟩) := by
  cases i <;> first | rfl | cases h

namespace Image.Path

protected theorem trans {m : Nat} (h : img.Path free m s s1) (h' : img.Path free n s1 s') :
    img.Path free (m + n) s s' := by
  induction h with
  | nil s => exact (Nat.zero_add n).symm ▸ h'
  | cons head _ ih =>
    rw [Nat.add_right_comm]
    exact .cons head (ih h')

theorem single (h : img.Pass free s s') : img.Path free 1 s s' := .cons h (.nil s')

/-- A path to a return goes on, as long as it has not come there. -/
theorem exists_pass (h : img.Path free n s s') (hend : img.Returning s') (hs : ¬ img.Returning s) :
    ∃ m s1, n = m + 1 ∧ img.Pass free s s1 ∧ img.Path free m s1 s' := by
  cases h with
  | nil => exact absurd hend hs
  | @cons m _ s1 _ head tail => exact ⟨m, s1, rfl, head, tail⟩

/-- A path ends where the function returns. -/
theorem eq_of_returning (h : img.Path free n s s') (hs : img.Returning s) : s' = s := by
  cases h with
  | nil => rfl
  | cons head _ =>
    cases head with
    | step _ _ hret => exact absurd hs hret
    | call hcall => cases hcall.symm.trans hs

end Image.Path

theorem not_returning_of_at (hat : img.At pc (line :: lines)) (hline : line ≠ .instr .ret) (c : Cpu) :
    ¬ img.Returning ⟨pc, c⟩ :=
  fun h => hline (Option.some.inj (hat.head.symm.trans h))

/-- A step over a line that does nothing. -/
theorem pass_idle (hat : img.At pc (line :: lines))
    (hidle : (∃ name, line = .label name) ∨ ∃ text, line = .comment text)
    (h : img.Pass free ⟨pc, c⟩ s1) : s1 = ⟨pc + 1, c⟩ := by
  have hhead := hat.head
  cases h with
  | step hstep =>
    unfold Image.step at hstep
    obtain ⟨name, rfl⟩ | ⟨text, rfl⟩ := hidle
    · rw [show img.lines[(⟨pc, c⟩ : State).pc]? = _ from hhead] at hstep
      exact (Option.some.inj hstep).symm
    · rw [show img.lines[(⟨pc, c⟩ : State).pc]? = _ from hhead] at hstep
      exact (Option.some.inj hstep).symm
  | call hcall =>
    have heq := Option.some.inj (hhead.symm.trans hcall)
    obtain ⟨name, rfl⟩ | ⟨text, rfl⟩ := hidle <;> cases heq

/-- A step over an instruction that goes on with the next line. -/
theorem pass_straight (hat : img.At pc (.instr i :: lines)) (hi : i.isStraight = true)
    (h : img.Pass free ⟨pc, c⟩ s1) :
    ∃ c1, s1 = ⟨pc + 1, c1⟩ ∧ i.exec img c = some c1 ∧
      ∀ r offset base a, i = .sw r offset base → ¬ img.ToStack pc base →
        c.address? base offset = some a → free a := by
  cases h with
  | step hstep _ _ hstore =>
    rw [step_instr hat, perform_straight hi] at hstep
    obtain ⟨c1, hexec, rfl⟩ := Option.map_eq_some_iff.1 hstep
    refine ⟨c1, rfl, hexec, fun r offset base a heq => hstore r offset base a ?_⟩
    rw [← heq]
    exact hat.head
  | call hcall =>
    cases Option.some.inj (hat.head.symm.trans hcall)
    cases hi

/-- **A path goes through instructions one after the other.** -/
theorem path_straight (hat : img.At pc (is.map .instr ++ lines)) (his : ∀ i ∈ is, i.isStraight = true)
    (h : img.Path free n ⟨pc, c⟩ s') (hend : img.Returning s') :
    ∃ m c1, n = is.length + m ∧ execAll img is c = some c1 ∧
      img.Path free is.length ⟨pc, c⟩ ⟨pc + is.length, c1⟩ ∧
      img.Path free m ⟨pc + is.length, c1⟩ s' := by
  induction is generalizing n pc c with
  | nil => exact ⟨n, c, (Nat.zero_add n).symm, rfl, .nil _, h⟩
  | cons i is ih =>
    obtain ⟨hi, his⟩ := List.forall_mem_cons.1 his
    have hne : AsmLine.instr i ≠ .instr .ret := by
      rintro ⟨⟩
      cases hi
    obtain ⟨m, s1, rfl, hpass, htail⟩ := h.exists_pass hend (not_returning_of_at hat hne c)
    obtain ⟨c1, rfl, hexec, -⟩ := pass_straight hat hi hpass
    obtain ⟨m', c2, rfl, hexec', hpath, hrest⟩ := ih hat.tail his htail
    have hpc : pc + 1 + is.length = pc + (i :: is).length := by
      rw [List.length_cons, Nat.add_right_comm, Nat.add_assoc]
    rw [hpc] at hpath hrest
    refine ⟨m', c2, by rw [List.length_cons]; omega, ?_, .cons hpass hpath, hrest⟩
    rw [execAll, hexec]
    exact hexec'

end SysY.Rv32
