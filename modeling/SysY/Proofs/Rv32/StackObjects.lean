import SysY.Proofs.Rv32.Abi

/-!
# What is on the stack

The objects that an emitted function keeps in its frame do not overlap
(`Compiled.keeps_apart`), and its code reaches them where they are. Line by line
the body accesses what the line is about and nothing else (`Home.Flows` with
`Home.accesses`); a temporary in a slot is read from that slot and written to
it; and a register is restored from the cell in which it was saved.

The function finds its own arguments beyond the eighth just above the frame.
That is where its caller, emitted in the same way, has put them.
-/

namespace SysY

open IR (Value Line Temp Flat)
open List

namespace Rv32

/-! ## Code -/

/-- Instructions that bring the word at an offset from the stack pointer into a
register. -/
def Loads (is : List Instr) (r : Reg) (offset : Nat) : Prop :=
  ∀ img c, cell (c.get .sp) offset % 4 = 0 →
    ∃ c', execAll img is c = some c' ∧ c.Brings r (c.mem (cell (c.get .sp) offset)) c'

/-- Instructions that store a register in the word at an offset from the stack
pointer. -/
def Saves (is : List Instr) (r : Reg) (offset : Nat) : Prop :=
  ∀ img c, cell (c.get .sp) offset % 4 = 0 →
    ∃ c', execAll img is c = some c' ∧ c.Stores (cell (c.get .sp) offset) (c.get r) c'

/-- Instructions that bring the address at an offset from the stack pointer into a
register. -/
def Points (is : List Instr) (r : Reg) (offset : Nat) : Prop :=
  ∀ img c, ∃ c', execAll img is c = some c' ∧ c.Brings r (c.get .sp + Int32.ofNat offset) c'

variable {F : Compiled} {code : List Instr} {sp : Nat}

namespace Compiled

/-! ## Arguments -/

/-- The code of a call stores each argument beyond the eighth in its word. -/
theorem stackArgs_stores {output : Option Temp} {callee : String} {args vs : List Value} {k : Nat}
    (hline : .instr ⟨output, .call callee args⟩ ∈ F.flat.lines) (hvs : ∀ v ∈ vs, v ∈ args)
    (hcode : F.home.stackArgs k vs = .ok code) {i : Nat} {v : Value} (hi : vs[i]? = some v) :
    ∃ before read r after, code = before ++ (read ++ storeStack r (4 * (k + i))) ++ after ∧
      F.home.read v lhsReg = .ok (read, r) ∧ r ≠ addressReg := by
  induction vs generalizing k i code with
  | nil => cases hi
  | cons w vs ih =>
    obtain ⟨hw, hvs⟩ := forall_mem_cons.1 hvs
    obtain ⟨⟨read, r⟩, hread, hcode⟩ := except_bind_ok.1 hcode
    obtain ⟨rest, hrest, hcode⟩ := except_bind_ok.1 hcode
    cases hcode
    cases i with
    | zero =>
      cases hi
      have hends := read_lhs F.bounded_any ⟨_, hline, hw⟩
      rw [hread] at hends
      refine ⟨[], read, r, rest, ?_, hread, hends.2.2⟩
      rw [Nat.mul_comm 4]
      rfl
    | succ i =>
      obtain ⟨before, read', r', after, rfl, hread', hr⟩ := ih hvs hrest hi
      refine ⟨read ++ storeStack r (k * wordSize) ++ before, read', r', after, ?_, hread', hr⟩
      rw [Nat.add_assoc, Nat.add_comm 1]
      simp only [append_assoc]

end Compiled

/-- What is above the frame of a callee is at the stack pointer of its caller. -/
theorem cell_above (h : Home) (sp : Int32) (k : Nat) :
    cell (sp + -h.frameWord) (h.frame.size + k) = cell sp k := by
  rw [cell, cell, Int32.ofNat_add, Home.frameWord]
  congr 1
  grind

/-! ## Functions -/

/-- **How a function uses its stack.** -/
structure Home.UsesStack (h : Home) (flat : Flat) (body : List AsmLine) : Prop where
  aligned : h.frame.size % 16 = 0
  /-- Objects consist of words in the frame, but for the arguments just above it. -/
  within : ∀ ⦃obj a n⦄, h.Keeps flat.lines obj a n → a % 4 = 0 ∧ n % 4 = 0 ∧
    (a + n ≤ h.frame.size ∨ ∃ i, obj = .incoming i ∧ a = h.frame.size + 4 * (i - 8))
  /-- Objects do not overlap. -/
  apart : ∀ ⦃obj obj' a a' n n'⦄, h.Keeps flat.lines obj a n → h.Keeps flat.lines obj' a' n' →
    obj = obj' ∧ a = a' ∧ n = n' ∨ a + n ≤ a' ∨ a' + n' ≤ a
  /-- The body accesses what its lines are about, at the offsets where that is. -/
  body : h.Flows flat (flat.lines.flatMap h.accesses) false body
  /-- A temporary in a slot is written to that slot, and read from it. -/
  slot : ∀ ⦃t n⦄, h.place t = .ok (.slot n) → h.Keeps flat.lines (.slot n) (h.frame.slotOffset n) 4 ∧
    h.write t = .ok (resultReg, storeStack resultReg (h.frame.slotOffset n)) ∧
    (∀ v c r, h.read v lhsReg = .ok (c, r) →
      h.assign t v = .ok (c ++ storeStack r (h.frame.slotOffset n))) ∧
    ∀ k r, h.kind t = .ok k → (∀ first, k ≠ .array first) →
      h.read (.temp t) r = .ok (loadStack r (h.frame.slotOffset n), r)
  /-- An array is pointed to where it is. -/
  array : ∀ ⦃t first⦄, h.kind t = .ok (.array first) →
    (∃ n, h.Keeps flat.lines (.array t) (h.frame.arrayOffset first) n) ∧
      ∀ r, h.read (.temp t) r = .ok (stackAddress r (h.frame.arrayOffset first), r)
  /-- The epilogue loads the registers that were saved, each from its own cell. -/
  exit : ∃ order : List (Reg × Nat), order.Perm h.cells ∧
    h.epilogue = (order.flatMap fun x => loadStack x.1 x.2) ++ moveStack h.frameWord ++ [.ret]
  cells : ∀ x ∈ h.cells, h.Keeps flat.lines (.cell x.1) x.2 4
  /-- The function's own arguments beyond the eighth are read above the frame. -/
  incoming : ∀ ⦃i r code⦄, 8 ≤ i → h.read (.arg i) r = .ok code →
    code = (loadStack r (h.frame.size + 4 * (i - 8)), r)
  /-- A call stores the arguments beyond the eighth from the stack pointer on. -/
  outgoing : ∀ ⦃output callee args⦄, .instr ⟨output, .call callee args⟩ ∈ flat.lines →
    ∀ ⦃code⦄, h.call output callee args = .ok code → ∀ i v, 8 ≤ i → args[i]? = some v →
      ∃ before read r after, code = before ++ (read ++ storeStack r (4 * (i - 8))) ++ after ∧
        h.read v lhsReg = .ok (read, r) ∧ r ≠ addressReg

/-- A compiled function uses its stack in this way. -/
theorem Compiled.usesStack (hs : F.home.Stands F.flat.lines sp) {annotate : Bool}
    {body : List AsmLine} (hbody : F.home.blocksCode annotate F.flat.blocks = .ok body) :
    F.home.UsesStack F.flat body where
  aligned := F.frame.aligned
  within := by
    intro obj a n hk
    obtain ⟨-, hhigh, hmod⟩ := F.keeps_within hs hk
    have hareas := F.frame.areas
    refine ⟨hmod.1, hmod.2, ?_⟩
    cases hk with
    | incoming => exact .inr ⟨_, rfl, rfl⟩
    | _ =>
      simp only [StackObject.area] at hhigh
      exact .inl (by omega)
  apart := fun _ _ _ _ _ _ => F.keeps_apart hs
  body := F.flows_all hbody
  slot := by
    intro t n hpl
    refine ⟨.slot (F.slot (Home.placeAt_of_place hpl)), except_bind_ok.2 ⟨_, hpl, rfl⟩,
      fun v c r hread => ?_, fun k r hk hne => ?_⟩
    · exact except_bind_ok.2 ⟨_, hpl, except_bind_ok.2 ⟨_, hread, rfl⟩⟩
    · refine except_bind_ok.2 ⟨k, hk, ?_⟩
      cases k with
      | array first => exact absurd rfl (hne first)
      | value | scalar => exact except_bind_ok.2 ⟨_, hpl, rfl⟩
  array := by
    intro t first ht
    obtain ⟨n, words, hline, rfl⟩ := F.exists_array (Home.kinds_of_kind ht)
    exact ⟨⟨_, .array hline⟩, fun r => except_bind_ok.2 ⟨_, ht, rfl⟩⟩
  exit := ⟨F.home.loadedCells, perm_append_singleton _ _, by rw [Home.epilogue_eq, Home.restore_eq]⟩
  cells := fun _ => .cell
  incoming := by
    intro i r code hi hread
    rw [Home.read, dif_neg (Nat.not_lt.2 hi)] at hread
    obtain ⟨offset, hoffset, hread⟩ := except_bind_ok.1 hread
    cases hread
    rw [Home.incomingOffset_ok hoffset]
  outgoing := by
    intro output callee args hline code hcode i v hi hv
    obtain ⟨code1, code2, code3, hstack, -, -, rfl⟩ := Home.call_ok hcode
    obtain ⟨before, read, r, after, rfl, hread, hr⟩ :=
      stackArgs_stores hline (fun v => mem_of_mem_drop) hstack (i := i - 8) (v := v)
        (by rwa [getElem?_drop, registerArgs, Nat.add_sub_cancel' hi])
    rw [Nat.zero_add]
    exact ⟨before, read, r, after ++ code2 ++ [.call callee] ++ code3,
      by simp only [append_assoc], hread, hr⟩

end Rv32

/-- **Objects on the stack do not overlap, and the code reaches them where they
are.** For every function of a lowered program that is emitted, whatever the
options: the words for outgoing arguments, the slots, the arrays, the cells of
saved registers and that of the return address are different words of the frame,
whose size is a multiple of sixteen. The emitted code fills the cells, and then
uses the stack pointer only to access the objects that the lines are about, each
at its own offset (`Rv32.Home.UsesStack`). The offsets mean what they say: the
instructions load, store or point to that word. The arguments beyond the eighth
are read just above the frame, and that is where a call stores them. -/
theorem Program.stack_objects_apart {p : Program} {m : IR.Module} (hlower : p.lower.result = .ok m)
    {f : IR.Function} (hf : f ∈ m.functions) {o : Rv32.Options} {lines : List Rv32.AsmLine}
    (hlines : (Rv32.emitFunction o f).result = .ok lines) :
    ∃ flat home body, Rv32.housed o f = .ok (flat, home) ∧
      lines = [.blank, .globl f.name, .label f.name] ++ ((Rv32.moveStack (-home.frameWord) ++
        home.cells.flatMap fun x => Rv32.storeStack x.1 x.2).map .instr ++ body) ∧
      home.UsesStack flat body ∧
      (∀ r offset, r ≠ .zero → Rv32.Loads (Rv32.loadStack r offset) r offset) ∧
      (∀ r offset, r ≠ Rv32.addressReg → Rv32.Saves (Rv32.storeStack r offset) r offset) ∧
      (∀ r offset, r ≠ .zero → r ≠ .sp → Rv32.Points (Rv32.stackAddress r offset) r offset) ∧
      ∀ sp k, Rv32.cell (sp + -home.frameWord) (home.frame.size + 4 * k) = Rv32.cell sp (4 * k) := by
  obtain ⟨_, ps, htyped⟩ := Program.lower_typed hlower hf
  obtain ⟨F, hhoused, hs, prologue, body, hprologue, hbody, rfl⟩ :=
    Rv32.compiled_of_housed htyped hlines
  exact ⟨F.flat, F.home, body, hhoused, by rw [Rv32.Home.prologue_ok hprologue], F.usesStack hs hbody,
    fun r offset hr img c hmod => Rv32.loadStack_runs img hmod hr,
    fun r offset hr img c hmod => Rv32.storeStack_runs img hmod hr,
    fun r offset hr hne img c => Rv32.stackAddress_exec img offset c hr hne,
    fun sp k => Rv32.cell_above ..⟩

/-- A function that calls itself, with the cell of its return address. -/
theorem Program.stack_objects_apart_recursive :
    ∃ m f lines flat home, Source.Sample.recursive.lower.result = .ok m ∧ f ∈ m.functions ∧
      (Rv32.emitFunction ⟨12, false, false⟩ f).result = .ok lines ∧
      Rv32.housed ⟨12, false, false⟩ f = .ok (flat, home) ∧
      home.Keeps flat.lines (.cell .ra) home.frame.ra 4 ∧ home.frame.ra + 4 ≤ home.frame.size := by
  obtain ⟨m, f, hm, hf, hemits⟩ := Source.Sample.head_lowers (p := Source.Sample.recursive)
    (fun f => (Rv32.emitFunction ⟨12, false, false⟩ f).result.toOption.isSome) (by cbv)
  obtain ⟨lines, hlines⟩ := Source.Sample.exists_ok hemits
  obtain ⟨flat, home, body, hhoused, -, hstack, -⟩ := Program.stack_objects_apart hm hf hlines
  have hk := hstack.cells (.ra, home.frame.ra) mem_cons_self
  refine ⟨m, f, lines, flat, home, hm, hf, hlines, hhoused, hk, ?_⟩
  obtain hle | ⟨i, hcell, -⟩ := (hstack.within hk).2.2
  · exact hle
  · cases hcell

end SysY
