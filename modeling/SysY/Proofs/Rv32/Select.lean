import SysY.Proofs.Lower.Gen
import SysY.Proofs.Machine
import SysY.Proofs.Plan
import SysY.Proofs.Rv32.Frame
import SysY.Proofs.Rv32.Machine

/-!
# What selected instructions do

The instructions for a line bring operands into registers, compute, and put
the result into its place. What matters of this is which word ends up in
which place: scratch registers may hold anything afterwards. So the effect of
a line is stated up to scratch registers (`Cpu.Like`), as putting a word into a
place (`Home.put`), where the words of the operands are those of the state
before (`Home.Word`).
-/

namespace SysY.Rv32

open IR (Value Line Label Temp Op)

/-! ## Addresses -/

variable {n : Nat}

theorem address_ofNat (h : n < 0x100000000) : address (Int32.ofNat n) = n := by
  show (BitVec.ofNat 32 n).toNat = n
  rw [BitVec.toNat_ofNat]
  exact Nat.mod_eq_of_lt h

theorem immediate?_ofNat (h : fitsImmediate (Int32.ofNat n) = true) :
    immediate? n = some (Int32.ofNat n) := by
  rw [immediate?, Int32.ofInt_eq_ofNat, if_pos h]

theorem immediate?_toInt {w : Int32} (h : fitsImmediate w = true) : immediate? w.toInt = some w := by
  rw [immediate?, Int32.ofInt_toInt, if_pos h]

theorem immediate?_zero : immediate? 0 = some 0 := by decide

theorem immediate?_one : immediate? 1 = some 1 := by decide

variable {a : Nat}

/-- A word can be reached without an offset. -/
theorem address?_zero {c : Cpu} {r : Reg} (h : c.get r = Int32.ofNat a) (hmod : a % 4 = 0)
    (hlt : a < 0x100000000) : c.address? r 0 = some a := by
  simp [Cpu.address?, immediate?_zero, h, address_ofNat hlt, hmod]

/-! ## Scratch registers -/

/-- Whether a register is a scratch register. -/
def Reg.isScratch : Reg → Bool
  | t _ => true
  | _ => false

/-- The same but for scratch registers. -/
structure Cpu.Like (c c' : Cpu) : Prop where
  /-- Other registers are the same. -/
  get : ∀ {r : Reg}, r.isScratch = false → c'.get r = c.get r
  mem : c'.mem = c.mem

/-- The same but for scratch registers and one more. -/
structure Cpu.LikeBut (rd : Reg) (c c' : Cpu) : Prop where
  /-- Other registers are the same. -/
  get : ∀ {r : Reg}, r.isScratch = false → r ≠ rd → c'.get r = c.get r
  mem : c'.mem = c.mem

/-- A word has been brought into a register. At most the register for addresses
has been used for it. -/
structure Cpu.Brings (c : Cpu) (rd : Reg) (w : Int32) (c' : Cpu) : Prop where
  word : c'.get rd = w
  /-- Other registers are the same. -/
  other : ∀ {r : Reg}, r ≠ rd → r ≠ addressReg → c'.get r = c.get r
  mem : c'.mem = c.mem

variable {img : Image} {c c' c'' : Cpu} {rd r : Reg} {w : Int32} {sp offset : Nat} {target : Value}
  {op : IR.BinOp}

theorem ne_addressReg (h : r.isScratch = false) : r ≠ addressReg := by
  rintro rfl
  cases h

namespace Cpu

protected theorem Like.refl (c : Cpu) : c.Like c := ⟨fun _ => rfl, rfl⟩

protected theorem Like.trans (h : c.Like c') (h' : c'.Like c'') : c.Like c'' :=
  ⟨fun hr => (h'.get hr).trans (h.get hr), h'.mem.trans h.mem⟩

theorem Like.but (h : c.Like c') (rd : Reg) : LikeBut rd c c' := ⟨fun hr _ => h.get hr, h.mem⟩

theorem LikeBut.trans (h : LikeBut rd c c') (h' : LikeBut rd c' c'') : LikeBut rd c c'' :=
  ⟨fun hr hne => (h'.get hr hne).trans (h.get hr hne), h'.mem.trans h.mem⟩

theorem LikeBut.like (h : LikeBut rd c c') (hrd : rd.isScratch = true) : c.Like c' :=
  ⟨fun hr => h.get hr fun heq => by simp [heq, hrd] at hr, h.mem⟩

theorem LikeBut.set (c : Cpu) (rd : Reg) (w : Int32) : LikeBut rd c (c.set rd w) :=
  ⟨fun _ hne => get_set_of_ne hne, rfl⟩

theorem Brings.likeBut (h : c.Brings rd w c') : LikeBut rd c c' :=
  ⟨fun hr hne => h.other hne (ne_addressReg hr), h.mem⟩

end Cpu

/-! ## The stack -/

/-- The address of the word at an offset from the stack pointer. -/
def cell (sp : Int32) (offset : Nat) : Nat := address (sp + Int32.ofNat offset)

theorem cell_eq (hsp : c.get .sp = Int32.ofNat sp) (hlt : sp + offset < 0x100000000) :
    cell (c.get .sp) offset = sp + offset := by
  rw [cell, hsp, ← Int32.ofNat_add, address_ofNat hlt]

/-- An access to the stack is one at the right word, from a state in which at most
the register for addresses has changed. -/
theorem atStack_exec (img : Image) (access : Int → Reg → Instr) (offset : Nat) (c : Cpu) :
    ∃ c1 n base, execAll img (atStack access offset) c = (access n base).exec img c1 ∧
      c1.address? base n = (if cell (c.get .sp) offset % 4 = 0 then some (cell (c.get .sp) offset) else none) ∧
      (∀ {r}, r ≠ addressReg → c1.get r = c.get r) ∧ c1.mem = c.mem := by
  unfold atStack
  split
  next hfits =>
    refine ⟨c, offset, .sp, execAll_singleton _ _, ?_, fun _ => rfl, rfl⟩
    rw [Cpu.address?, immediate?_ofNat hfits]
    rfl
  next =>
    rw [execAll, Instr.exec, Option.bind_some, execAll, Instr.exec, Option.bind_some, execAll_singleton]
    refine ⟨_, 0, addressReg, rfl, ?_, fun hne => ?_, rfl⟩
    · rw [Cpu.address?, immediate?_zero, Cpu.get_set_self (by decide), AluOp.apply,
        Cpu.get_set_self (by decide), Cpu.get_set_of_ne (by decide), Int32.ofInt_eq_ofNat,
        Int32.add_comm (Int32.ofNat offset)]
      simp only [Option.bind_eq_bind, Option.bind_some, Int32.add_zero]
      rfl
    · rw [Cpu.get_set_of_ne hne, Cpu.get_set_of_ne hne]

theorem loadStack_of_exec (hrd : rd ≠ .zero) (h : execAll img (loadStack rd offset) c = some c') :
    c.Brings rd (c.mem (cell (c.get .sp) offset)) c' := by
  obtain ⟨c1, n, base, hexec, haddress, hget, hmem⟩ := atStack_exec img (.lw rd) offset c
  obtain ⟨a, ha, rfl⟩ := Option.map_eq_some_iff.1 (hexec.symm.trans h)
  obtain ⟨-, ⟨⟩⟩ := Option.ite_none_right_eq_some.1 (haddress.symm.trans ha)
  refine ⟨?_, fun hne hne' => ?_, hmem⟩
  · rw [Cpu.get_set_self hrd, hmem]
  · rw [Cpu.get_set_of_ne hne, hget hne']

theorem loadStack_runs (img : Image) (hmod : cell (c.get .sp) offset % 4 = 0) (hrd : rd ≠ .zero) :
    Runs img (loadStack rd offset) c (c.Brings rd (c.mem (cell (c.get .sp) offset))) := by
  obtain ⟨c1, n, base, hexec, haddress, -, -⟩ := atStack_exec img (.lw rd) offset c
  rw [Instr.exec, haddress, if_pos hmod] at hexec
  exact ⟨_, hexec, loadStack_of_exec hrd hexec⟩

theorem loadStack_exec (img : Image) (hsp : c.get .sp = Int32.ofNat sp) (hmod : (sp + offset) % 4 = 0)
    (hlt : sp + offset < 0x100000000) (hrd : rd ≠ .zero) :
    Runs img (loadStack rd offset) c (c.Brings rd (c.mem (sp + offset))) := by
  rw [← cell_eq hsp hlt] at hmod ⊢
  exact loadStack_runs img hmod hrd

/-- A word has been stored. -/
structure Cpu.Stores (c : Cpu) (a : Nat) (w : Int32) (c' : Cpu) : Prop where
  /-- Registers are the same, but for the one for addresses. -/
  get : ∀ {r : Reg}, r ≠ addressReg → c'.get r = c.get r
  /-- Memory has the word. -/
  mem : c'.mem = (c.poke a w).mem

theorem storeStack_of_exec (hr : r ≠ addressReg) (h : execAll img (storeStack r offset) c = some c') :
    c.Stores (cell (c.get .sp) offset) (c.get r) c' := by
  obtain ⟨c1, n, base, hexec, haddress, hget, hmem⟩ := atStack_exec img (.sw r) offset c
  obtain ⟨a, ha, rfl⟩ := Option.map_eq_some_iff.1 (hexec.symm.trans h)
  obtain ⟨-, ⟨⟩⟩ := Option.ite_none_right_eq_some.1 (haddress.symm.trans ha)
  refine ⟨fun hne => hget hne, ?_⟩
  rw [hget hr, Cpu.poke, Cpu.poke, hmem]

theorem storeStack_runs (img : Image) (hmod : cell (c.get .sp) offset % 4 = 0) (hr : r ≠ addressReg) :
    Runs img (storeStack r offset) c (c.Stores (cell (c.get .sp) offset) (c.get r)) := by
  obtain ⟨c1, n, base, hexec, haddress, -, -⟩ := atStack_exec img (.sw r) offset c
  rw [Instr.exec, haddress, if_pos hmod] at hexec
  exact ⟨_, hexec, storeStack_of_exec hr hexec⟩

theorem storeStack_exec (img : Image) (hsp : c.get .sp = Int32.ofNat sp) (hmod : (sp + offset) % 4 = 0)
    (hlt : sp + offset < 0x100000000) (hr : r ≠ addressReg) :
    Runs img (storeStack r offset) c (c.Stores (sp + offset) (c.get r)) := by
  rw [← cell_eq hsp hlt] at hmod ⊢
  exact storeStack_runs img hmod hr

theorem stackAddress_exec (img : Image) (offset : Nat) (c : Cpu) (hrd : rd ≠ .zero) (hne : rd ≠ .sp) :
    Runs img (stackAddress rd offset) c (c.Brings rd (c.get .sp + Int32.ofNat offset)) := by
  unfold stackAddress
  split
  next hfits =>
    refine ⟨c.set rd (c.get .sp + Int32.ofNat offset), ?_, Cpu.get_set_self hrd,
      fun hne _ => Cpu.get_set_of_ne hne, rfl⟩
    simp [execAll, Instr.exec, immediate?_ofNat hfits]
  next =>
    refine ⟨(c.set rd (Int32.ofNat offset)).set rd (c.get .sp + Int32.ofNat offset), ?_,
      Cpu.get_set_self hrd, fun hne _ => ?_, rfl⟩
    · have hsp : (c.set rd (Int32.ofNat offset)).get .sp = c.get .sp := Cpu.get_set_of_ne hne.symm
      have hoffset : (c.set rd (Int32.ofNat offset)).get rd = Int32.ofNat offset :=
        Cpu.get_set_self hrd
      simp [execAll, Instr.exec, AluOp.apply, hsp, hoffset, Int32.ofInt_eq_ofNat, Int32.add_comm]
    · rw [Cpu.get_set_of_ne hne, Cpu.get_set_of_ne hne]

theorem stackAddress_of_exec (hrd : rd ≠ .zero) (hne : rd ≠ .sp)
    (h : execAll img (stackAddress rd offset) c = some c') :
    c'.get rd = c.get .sp + Int32.ofNat offset := by
  obtain ⟨_, hexec, hb⟩ := stackAddress_exec img offset c hrd hne
  cases hexec.symm.trans h
  exact hb.word

/-- The stack pointer is moved, and no other register that matters. -/
theorem moveStack_exec (img : Image) (c : Cpu) (by_ : Int32) :
    Runs img (moveStack by_) c fun c' => c'.get .sp = c.get .sp + by_ ∧
      Cpu.LikeBut .sp c c' := by
  unfold moveStack
  split
  next hfits =>
    refine ⟨c.set .sp (c.get .sp + by_), ?_, Cpu.get_set_self (by decide), .set ..⟩
    simp [execAll, Instr.exec, immediate?_toInt hfits]
  next =>
    have hframe : (c.set frameReg by_).get frameReg = by_ := Cpu.get_set_self (by decide)
    have hsp : (c.set frameReg by_).get .sp = c.get .sp := Cpu.get_set_of_ne (by decide)
    refine ⟨(c.set frameReg by_).set .sp (c.get .sp + by_), ?_, Cpu.get_set_self (by decide), ?_⟩
    · simp [execAll, Instr.exec, AluOp.apply, hframe, hsp]
    · exact (((Cpu.LikeBut.set c frameReg by_).like rfl).but .sp).trans (.set ..)

/-! ## Places -/

/-- **A frame stands on the stack**: the frame of a function with these lines,
when the stack pointer is `sp`. -/
structure Home.Stands (h : Home) (lines : List Line) (sp : Nat) : Prop where
  /-- The frame has room for everything. -/
  frame : h.frame.Fits lines h.plan
  /-- Registers that are places count as used. -/
  register : ∀ {t r}, placeAt h.plan.places t = some (.register r) → r ∈ h.plan.used
  /-- Saved registers are used, each once. -/
  saved : ∀ {r}, r ∈ h.plan.used → ∃ i, r = .s i
  once : h.plan.used.Nodup
  /-- Slots are counted. -/
  slot : ∀ {t n}, placeAt h.plan.places t = some (.slot n) → n < h.plan.slots
  /-- The stack pointer is a multiple of a word. -/
  aligned : sp % 4 = 0
  /-- The frame ends before memory does. -/
  top : sp + h.frame.size ≤ 0x100000000

namespace Home

variable {h : Home} {lines : List Line} {p q : Place Reg} {t : Temp} {v : Value}

/-- The word in a place. -/
def placeWord (h : Home) (sp : Nat) (c : Cpu) : Place Reg → Int32
  | .register r => c.get r
  | .slot n => c.mem (sp + h.frame.slotOffset n)

/-- Put a word into a place. -/
def put (h : Home) (sp : Nat) (c : Cpu) (w : Int32) : Place Reg → Cpu
  | .register r => c.set r w
  | .slot n => c.poke (sp + h.frame.slotOffset n) w

theorem Stands.place_register (hs : h.Stands lines sp)
    (hr : placeAt h.plan.places t = some (.register r)) : ∃ i, r = .s i :=
  hs.saved (hs.register hr)

theorem Stands.slot_address (hs : h.Stands lines sp) {n : Nat}
    (hn : placeAt h.plan.places t = some (.slot n)) :
    (sp + h.frame.slotOffset n) % 4 = 0 ∧ sp + h.frame.slotOffset n < 0x100000000 := by
  have hslot := hs.frame.slot (hs.slot hn)
  have hareas := hs.frame.areas
  have haligned := hs.aligned
  have htop := hs.top
  omega

theorem placeWord_like (hs : h.Stands lines sp) (hp : placeAt h.plan.places t = some p)
    (hlike : c.Like c') : h.placeWord sp c' p = h.placeWord sp c p := by
  cases p with
  | register r =>
    obtain ⟨i, rfl⟩ := hs.place_register hp
    exact hlike.get rfl
  | slot n => exact congrFun hlike.mem _

theorem placeWord_put_self (hs : h.Stands lines sp) (hp : placeAt h.plan.places t = some p)
    (c : Cpu) (w : Int32) : h.placeWord sp (h.put sp c w p) p = w := by
  cases p with
  | register r =>
    obtain ⟨i, rfl⟩ := hs.place_register hp
    exact Cpu.get_set_self nofun
  | slot n => exact Cpu.mem_poke_self ..

theorem placeWord_put_of_ne (hne : q ≠ p) (c : Cpu) (w : Int32) :
    h.placeWord sp (h.put sp c w p) q = h.placeWord sp c q := by
  cases p with
  | register r =>
    cases q with
    | register r' => exact Cpu.get_set_of_ne fun heq => hne (congrArg _ heq)
    | slot n => rfl
  | slot n =>
    cases q with
    | register r' => rfl
    | slot n' =>
      refine Cpu.mem_poke_of_ne fun heq => hne (congrArg _ ?_)
      simp only [Frame.slotOffset, wordSize] at heq
      omega

theorem placeAt_of_place (hplace : h.place t = .ok p) : placeAt h.plan.places t = some p := by
  unfold place at hplace
  unfold placeAt
  split at hplace
  next pl' hpl => rw [hpl, Except.ok.inj hplace]
  next => cases hplace

theorem kinds_of_kind {k : TempKind} (hkind : h.kind t = .ok k) : h.kinds[t]? = some k := by
  unfold kind at hkind
  split at hkind
  next k' hk => rw [hk, Except.ok.inj hkind]
  next => cases hkind

/-! ## Operands -/

variable (img) (h : Home) (sp : Nat) (c : Cpu) in
/-- **The word that a value has** in a state. -/
inductive Word : Value → Int32 → Prop
  | const (n : Int32) : Word (.const n) n
  | global {name w} : img.symbol? name = some w → Word (.global name) w
  | registerArg (i : Fin 8) : Word (.arg i) (c.get (.a i))
  | stackArg {i : Nat} : 8 ≤ i → sp + h.frame.size + 4 * (i - 8) < 0x100000000 →
    Word (.arg i) (c.mem (sp + h.frame.size + 4 * (i - 8)))
  | array {t first} : h.kinds[t]? = some (.array first) →
    Word (.temp t) (Int32.ofNat (sp + h.frame.arrayOffset first))
  | place {t k p} : h.kinds[t]? = some k → (∀ first, k ≠ .array first) →
    placeAt h.plan.places t = some p → Word (.temp t) (h.placeWord sp c p)

theorem Word.like (hs : h.Stands lines sp) (hw : Word img h sp c v w) (hlike : c.Like c') :
    Word img h sp c' v w := by
  cases hw with
  | const => exact .const _
  | global hname => exact .global hname
  | registerArg i => exact hlike.get (r := .a i) rfl ▸ .registerArg i
  | stackArg hi hlt => exact congrFun hlike.mem _ ▸ .stackArg hi hlt
  | array ht => exact .array ht
  | place ht hk hp => exact placeWord_like hs hp hlike ▸ .place ht hk hp

/-- A value can be read from a register, after instructions that at most use a
scratch register for it. -/
structure Reads (scratch : Reg) (c : Cpu) (r : Reg) (w : Int32) (c' : Cpu) : Prop where
  word : c'.get r = w
  /-- It is the scratch register, or none. -/
  which : r = scratch ∨ r.isScratch = false
  /-- Other registers are the same. -/
  other : ∀ {q : Reg}, q ≠ scratch → q ≠ addressReg → c'.get q = c.get q
  mem : c'.mem = c.mem

variable {scratch r1 r2 : Reg} {code : List Instr} {x y : Int32}

theorem Reads.likeBut (hr : Reads scratch c r w c') : Cpu.LikeBut scratch c c' :=
  ⟨fun hq hne => hr.other hne (ne_addressReg hq), hr.mem⟩

theorem Reads.like (hr : Reads scratch c r w c') (hscratch : scratch.isScratch = true) :
    c.Like c' :=
  hr.likeBut.like hscratch

theorem Reads.ne {q : Reg} (hr : Reads scratch c r w c') (hq : q.isScratch = true)
    (hne : scratch ≠ q) : r ≠ q := by
  rcases hr.which with rfl | hr
  · exact hne
  · rintro rfl
    rw [hr] at hq
    cases hq

theorem Reads.of_brings (hb : c.Brings rd w c') : Reads rd c rd w c' :=
  ⟨hb.word, .inl rfl, hb.other, hb.mem⟩

theorem Reads.here (hr : r.isScratch = false) : Reads scratch c r (c.get r) c :=
  ⟨rfl, .inr hr, fun _ _ => rfl, rfl⟩

theorem Reads.brought (hscratch : scratch ≠ .zero) (w : Int32) :
    Reads scratch c scratch w (c.set scratch w) :=
  ⟨Cpu.get_set_self hscratch, .inl rfl, fun hne _ => Cpu.get_set_of_ne hne, rfl⟩

theorem incomingOffset_ok {i offset : Nat} (ho : h.frame.incomingOffset i = .ok offset) :
    offset = h.frame.size + 4 * (i - 8) := by
  unfold Frame.incomingOffset at ho
  dsimp only at ho
  split at ho
  · cases ho
    rw [registerArgs, wordSize, Nat.mul_comm]
  · cases ho

/-! ## Computations -/

theorem alu_exec (img : Image) (c : Cpu) (r1 r2 : Reg) (op : AluOp) (hrd : rd ≠ .zero) :
    Runs img [.alu op rd r1 r2] c fun c' => c'.get rd = op.apply (c.get r1) (c.get r2) ∧ Cpu.LikeBut rd c c' :=
  ⟨_, execAll_singleton _ _, Cpu.get_set_self hrd, .set ..⟩

/-- An arithmetic operation that has a result is computed. -/
theorem aluOp_apply {n : Int32} (happly : op.apply x y = some n) : (aluOp op).apply x y = n := by
  cases op with
  | add | sub | mul => exact Option.some.inj happly
  | div | rem =>
    simp only [IR.BinOp.apply] at happly
    split at happly
    · cases happly
    next hne => exact (if_neg hne).trans (Option.some.inj happly)

theorem binary_exec {n : Int32} (hrd : rd ≠ .zero) (hx : c.get r1 = x) (hy : c.get r2 = y)
    (happly : op.apply x y = some n) :
    Runs img [.alu (aluOp op) rd r1 r2] c fun c' => c'.get rd = n ∧ Cpu.LikeBut rd c c' := by
  obtain ⟨c', hexec, hget, hbut⟩ := alu_exec img c r1 r2 (aluOp op) hrd
  exact ⟨c', hexec, by rw [hget, hx, hy, aluOp_apply happly], hbut⟩

/-- A second instruction on a register that has just been computed. -/
theorem then_exec {i : Instr} {first : List Instr}
    (h1 : Runs img first c fun c1 => c1.get rd = x ∧ Cpu.LikeBut rd c c1)
    (h2 : ∀ {c1 : Cpu}, c1.get rd = x → i.exec img c1 = some (c1.set rd y)) (hrd : rd ≠ .zero) :
    Runs img (first ++ [i]) c fun c' => c'.get rd = y ∧ Cpu.LikeBut rd c c' := by
  obtain ⟨c1, hexec, hget, hbut⟩ := h1
  refine ⟨c1.set rd y, execAll_trans hexec ?_, Cpu.get_set_self hrd, hbut.trans (.set ..)⟩
  rw [execAll_singleton, h2 hget]

/-- **A comparison computes its truth value.** -/
theorem compare_exec {op : IR.CmpOp} (hrd : rd ≠ .zero) (hx : c.get r1 = x) (hy : c.get r2 = y) :
    Runs img (compare op rd r1 r2) c fun c' => c'.get rd = IR.truthValue (op.holds x y) ∧ Cpu.LikeBut rd c c' := by
  have hflip : ∀ {b : Bool}, IR.truthValue b ^^^ 1 = IR.truthValue !b := by decide
  have hslt : ∀ a b : Int32, AluOp.apply .slt a b = IR.truthValue (a < b) := by
    intro a b
    by_cases hlt : a < b <;> simp [AluOp.apply, IR.truthValue, hlt]
  have hsub : AluOp.apply .sub x y = 0 ↔ x = y := by
    simp only [AluOp.apply]
    constructor
    · grind
    · grind
  have hxori : ∀ {c : Cpu} {b : Bool}, c.get rd = IR.truthValue b →
      (Instr.xori rd rd 1).exec img c = some (c.set rd (IR.truthValue !b)) := by
    intro c b hget
    simp [Instr.exec, immediate?_one, hget, hflip]
  have hnot : ∀ a b : Int32, (!decide (a < b)) = decide (b ≤ a) := by
    intro a b
    rw [← decide_not]
    exact decide_eq_decide.2 Int32.not_lt
  subst hx hy
  cases op with
  | lt =>
    obtain ⟨c', hexec, hget, hbut⟩ := alu_exec img c r1 r2 .slt hrd
    exact ⟨c', hexec, hget.trans (hslt _ _), hbut⟩
  | gt =>
    obtain ⟨c', hexec, hget, hbut⟩ := alu_exec img c r2 r1 .slt hrd
    exact ⟨c', hexec, hget.trans (hslt _ _), hbut⟩
  | le =>
    obtain ⟨c', hexec, hget, hbut⟩ := then_exec (i := .xori rd rd 1)
      (alu_exec img c r2 r1 .slt hrd)
      (fun hget => hxori (hget.trans (hslt _ _))) hrd
    exact ⟨c', hexec, hget.trans (congrArg _ (hnot _ _)), hbut⟩
  | ge =>
    obtain ⟨c', hexec, hget, hbut⟩ := then_exec (i := .xori rd rd 1)
      (alu_exec img c r1 r2 .slt hrd)
      (fun hget => hxori (hget.trans (hslt _ _))) hrd
    exact ⟨c', hexec, hget.trans (congrArg _ (hnot _ _)), hbut⟩
  | eq =>
    obtain ⟨c', hexec, hget, hbut⟩ := then_exec (i := .seqz rd rd)
      (alu_exec img c r1 r2 .sub hrd)
      (fun hget => by rw [Instr.exec, hget]) hrd
    refine ⟨c', hexec, hget.trans ?_, hbut⟩
    simp [IR.CmpOp.holds, IR.truthValue, hsub]
  | ne =>
    obtain ⟨c', hexec, hget, hbut⟩ := then_exec (i := .snez rd rd)
      (alu_exec img c r1 r2 .sub hrd)
      (fun hget => by rw [Instr.exec, hget]) hrd
    refine ⟨c', hexec, hget.trans ?_, hbut⟩
    by_cases heq : c.get r1 = c.get r2
    · rw [if_pos (hsub.2 heq)]
      simp [IR.CmpOp.holds, IR.truthValue, heq]
    · rw [if_neg (mt hsub.1 heq)]
      simp [IR.CmpOp.holds, IR.truthValue, heq]

/-- The address of an element is four times the offset further on. -/
theorem elementAddress_exec (hrd : rd ≠ .zero) (hne : r1 ≠ rhsReg)
    (hx : c.get r1 = x) (hy : c.get r2 = y) :
    Runs img (elementAddress rd r1 r2) c fun c' => c'.get rd = x + 4 * y ∧ Cpu.LikeBut rd c c' := by
  have hshift : y <<< Int32.ofNat 2 = 4 * y := by
    show y <<< (2 : Int32) = 4 * y
    refine Int32.toBitVec.inj ?_
    simp only [Int32.toBitVec_shiftLeft, Int32.toBitVec_ofNat, BitVec.reduceSMod,
      BitVec.shiftLeft_eq', BitVec.toNat_ofNat, Nat.reducePow, Nat.reduceMod, Int32.toBitVec_mul]
    bv_omega
  let c1 := c.set rhsReg (4 * y)
  have hx1 : c1.get r1 = x := (Cpu.get_set_of_ne hne).trans hx
  have hy1 : c1.get rhsReg = 4 * y := Cpu.get_set_self (by decide)
  refine ⟨c1.set rd (x + 4 * y), ?_, Cpu.get_set_self hrd, ?_⟩
  · simp only [elementAddress, execAll, Instr.exec, hy, hshift]
    rw [if_pos (by decide)]
    simp only [Option.bind_some, AluOp.apply]
    exact congrArg some (congrArg _ (by rw [hx1, hy1]))
  · exact (((Cpu.LikeBut.set c rhsReg _).like rfl).but rd).trans (.set ..)

/-! ## Loads and stores -/

theorem isScalar_ok {scalar : Bool} (hscalar : h.isScalar v = .ok scalar) :
    scalar = true ↔ ∃ s, v = .temp s ∧ h.kinds[s]? = some .scalar := by
  cases v with
  | const | global | arg =>
    cases hscalar
    simp
  | temp s =>
    obtain ⟨k, hk, hscalar⟩ := except_bind_ok.1 hscalar
    cases hscalar
    simp [kinds_of_kind hk]

/-- A load from a scalar variable copies what is in its place. -/
theorem load_scalar_ok {s : Temp} (hscalar : h.kinds[s]? = some .scalar)
    (hload : h.load (some t) (.temp s) = .ok code) : h.copy t (.temp s) = .ok code := by
  simpa [load, copy, defined, isScalar, kind, hscalar, bind, Except.bind, pure, Except.pure] using hload

/-- The instructions with which a load gets at an address, and the register in
which it then is. -/
theorem load_through_ok (hv : ∀ s, v = .temp s → h.kinds[s]? ≠ some .scalar)
    (hload : h.load (some t) v = .ok code) :
    ∃ rd commit code1 r scratch, h.write t = .ok (rd, commit) ∧ scratch.isScratch = true ∧
      h.read v scratch = .ok (code1, r) ∧ code = code1 ++ [.lw rd 0 r] ++ commit := by
  obtain ⟨_, ht, hload⟩ := except_bind_ok.1 hload
  cases ht
  obtain ⟨⟨rd, commit⟩, hwrite, hload⟩ := except_bind_ok.1 hload
  refine ⟨rd, commit, ?_⟩
  cases v with
  | global name =>
    cases hload
    exact ⟨_, _, addressReg, hwrite, rfl, rfl, rfl⟩
  | const | arg | temp =>
    obtain ⟨scalar, hscalar, hload⟩ := except_bind_ok.1 hload
    have hthrough : scalar ≠ true := fun htrue => by
      obtain ⟨s, heq, hs⟩ := (isScalar_ok hscalar).1 htrue
      exact hv s heq hs
    rw [if_neg hthrough] at hload
    obtain ⟨⟨code1, r⟩, hread, hload⟩ := except_bind_ok.1 hload
    cases hload
    exact ⟨code1, r, lhsReg, hwrite, rfl, hread, rfl⟩

theorem store_scalar_ok (hscalar : h.kinds[t]? = some .scalar)
    (hstore : h.store v (.temp t) = .ok code) : h.assign t v = .ok code := by
  simpa [store, kind, hscalar, bind, Except.bind] using hstore

/-- The instructions with which a store gets at its operands, and the registers
in which they then are. -/
theorem store_through_ok (ht : ∀ s, target = .temp s → h.kinds[s]? ≠ some .scalar)
    (hstore : h.store v target = .ok code) :
    ∃ code1 r code2 pointer scratch, h.read v lhsReg = .ok (code1, r) ∧
      (scratch = rhsReg ∨ scratch = addressReg) ∧ h.read target scratch = .ok (code2, pointer) ∧
      code = code1 ++ code2 ++ [.sw r 0 pointer] := by
  have hthrough : h.storeThrough v target = .ok code → ∃ code1 r code2 pointer scratch,
      h.read v lhsReg = .ok (code1, r) ∧ (scratch = rhsReg ∨ scratch = addressReg) ∧
      h.read target scratch = .ok (code2, pointer) ∧ code = code1 ++ code2 ++ [.sw r 0 pointer] := by
    intro hthrough
    obtain ⟨⟨code1, r⟩, hread1, hthrough⟩ := except_bind_ok.1 hthrough
    obtain ⟨⟨code2, pointer⟩, hread2, hthrough⟩ := except_bind_ok.1 hthrough
    cases hthrough
    exact ⟨code1, r, code2, pointer, rhsReg, hread1, .inl rfl, hread2, rfl⟩
  cases target with
  | global name =>
    obtain ⟨⟨code1, r⟩, hread, hstore⟩ := except_bind_ok.1 hstore
    cases hstore
    exact ⟨code1, r, [.la addressReg name], addressReg, addressReg, hread, .inr rfl, rfl, by simp⟩
  | const | arg => exact hthrough hstore
  | temp s =>
    obtain ⟨k, hk, hstore⟩ := except_bind_ok.1 hstore
    have hne : k ≠ .scalar := by
      rintro rfl
      refine ht s rfl ?_
      unfold kind at hk
      split at hk
      next heq =>
        cases hk
        exact heq
      next => cases hk
    rw [if_neg hne] at hstore
    exact hthrough hstore

theorem put_register {i : Fin 12} (hbut : Cpu.LikeBut (.s i) c c') (hget : c'.get (.s i) = w) :
    (h.put sp c w (.register (.s i))).Like c' := by
  refine ⟨fun {q} hq => ?_, hbut.mem⟩
  by_cases heq : q = .s i
  · rw [heq, hget]
    exact (Cpu.get_set_self (r := .s i) nofun).symm
  · rw [hbut.get hq heq]
    exact (Cpu.get_set_of_ne heq).symm

/-! ## What operations do -/

section

variable (hs : h.Stands lines sp) (hsp : c.get .sp = Int32.ofNat sp)

include hs hsp

/-- **Reading brings the word of a value into a register.** -/
theorem read_exec (hw : Word img h sp c v w)
    (hread : h.read v scratch = .ok (code, r)) (hscratch : scratch ≠ .zero) (hne : scratch ≠ .sp) :
    Runs img code c (Reads scratch c r w) := by
  cases hw with
  | const =>
    simp only [read] at hread
    split at hread
    next hzero =>
      cases hread
      exact ⟨c, rfl, hzero ▸ .here (r := .zero) rfl⟩
    next =>
      cases hread
      exact ⟨_, by simp [Instr.exec], .brought hscratch w⟩
  | global hname =>
    cases hread
    exact ⟨_, by simp [Instr.exec, hname], .brought hscratch w⟩
  | registerArg i =>
    simp only [read, i.isLt] at hread
    cases hread
    exact ⟨c, rfl, .here rfl⟩
  | @stackArg i hi hlt =>
    simp only [read, dif_neg (Nat.not_lt.2 hi)] at hread
    obtain ⟨offset, ho, hread⟩ := except_bind_ok.1 hread
    cases hread
    obtain rfl := incomingOffset_ok ho
    have haligned := hs.aligned
    have hsize := hs.frame.aligned
    rw [Nat.add_assoc] at hlt ⊢
    obtain ⟨c', hexec, hb⟩ := loadStack_exec img hsp (by omega) hlt hscratch
    exact ⟨c', hexec, .of_brings hb⟩
  | array ht =>
    simp only [read, kind, ht] at hread
    cases hread
    obtain ⟨c', hexec, hb⟩ := stackAddress_exec img (h.frame.arrayOffset _) c hscratch hne
    rw [hsp, ← Int32.ofNat_add] at hb
    exact ⟨c', hexec, .of_brings hb⟩
  | @place t k p ht hk hp =>
    obtain ⟨k', hk', hread⟩ := except_bind_ok.1 hread
    cases ht.symm.trans (kinds_of_kind hk')
    cases k with
    | array first => exact absurd rfl (hk first)
    | value | scalar =>
      obtain ⟨p', hp', hread⟩ := except_bind_ok.1 hread
      cases hp.symm.trans (placeAt_of_place hp')
      cases p with
      | register r =>
        cases hread
        obtain ⟨i, rfl⟩ := hs.place_register hp
        exact ⟨c, rfl, .here rfl⟩
      | slot n =>
        cases hread
        obtain ⟨hmod, hlt⟩ := hs.slot_address hp
        obtain ⟨c', hexec, hb⟩ := loadStack_exec img hsp hmod hlt hscratch
        exact ⟨c', hexec, .of_brings hb⟩

theorem readInto_exec (hw : Word img h sp c v w) (hread : h.readInto v rd = .ok code)
    (hrd : rd ≠ .zero) (hne : rd ≠ .sp) : Runs img code c (c.Brings rd w) := by
  obtain ⟨⟨code1, r⟩, hread1, hread⟩ := except_bind_ok.1 hread
  cases hread
  obtain ⟨c1, hexec, hr⟩ := read_exec hs hsp hw hread1 hrd hne
  unfold move
  split
  next heq =>
    rw [List.append_nil]
    exact ⟨c1, hexec, heq ▸ hr.word, hr.other, hr.mem⟩
  next =>
    refine ⟨c1.set rd (c1.get r), execAll_trans hexec (execAll_singleton _ _), ?_, ?_, hr.mem⟩
    · rw [Cpu.get_set_self hrd, hr.word]
    · intro q hq hq'
      rw [Cpu.get_set_of_ne hq, hr.other hq hq']

/-- **A store through an address** puts the word there. -/
theorem store_through_exec (ht : ∀ s, target = .temp s → h.kinds[s]? ≠ some .scalar)
    (hmod : a % 4 = 0) (hlt : a < 0x100000000) (hw : Word img h sp c v w)
    (ha : Word img h sp c target (Int32.ofNat a)) (hstore : h.store v target = .ok code) :
    Runs img code c (c.poke a w).Like := by
  obtain ⟨code1, r, code2, pointer, scratch, hread1, hscratch, hread2, rfl⟩ :=
    store_through_ok ht hstore
  have hnot : scratch ≠ .zero ∧ scratch ≠ .sp ∧ scratch.isScratch = true ∧ scratch ≠ lhsReg := by
    rcases hscratch with rfl | rfl <;> decide
  obtain ⟨c1, hexec1, hr1⟩ := read_exec hs hsp hw hread1 (by decide) (by decide)
  have hlike1 := hr1.like rfl
  obtain ⟨c2, hexec2, hr2⟩ := read_exec hs ((hlike1.get rfl).trans hsp) (ha.like hs hlike1) hread2
    hnot.1 hnot.2.1
  have hlike2 := hlike1.trans (hr2.like hnot.2.2.1)
  have hne : r ≠ scratch ∧ r ≠ addressReg :=
    ⟨hr1.ne hnot.2.2.1 hnot.2.2.2.symm, hr1.ne rfl (by decide)⟩
  have hsw : execAll img [.sw r 0 pointer] c2 = some (c2.poke a w) := by
    rw [execAll_singleton, Instr.exec, address?_zero hr2.word hmod hlt, hr2.other hne.1 hne.2,
      hr1.word]
    rfl
  refine ⟨_, execAll_trans (execAll_trans hexec1 hexec2) hsw, fun hq => ?_, ?_⟩
  · exact hlike2.get hq
  · simp only [Cpu.poke, hlike2.mem]

theorem storeSlot_exec (hp : placeAt h.plan.places t = some (.slot n)) (img : Image)
    (hlike : c.Like c') (hr : r ≠ addressReg) (hget : c'.get r = w) :
    Runs img (storeStack r (h.frame.slotOffset n)) c' (h.put sp c w (.slot n)).Like := by
  obtain ⟨hmod, hlt⟩ := hs.slot_address hp
  obtain ⟨c'', hexec, hst⟩ := storeStack_exec img ((hlike.get rfl).trans hsp) hmod hlt hr
  refine ⟨c'', hexec, fun {q} hq => ?_, ?_⟩
  · rw [hst.get (ne_addressReg hq), hlike.get hq]
    exact (Cpu.get_poke ..).symm
  · rw [hst.mem, hget, Cpu.poke, hlike.mem]
    rfl

variable (hp : placeAt h.plan.places t = some p)

include hp

/-- The register in which a temporary is computed is one that can be written,
and the instructions that follow put it into its place. -/
theorem write_exec (img : Image) (w : Int32) {commit : List Instr} (hwrite : h.write t = .ok (rd, commit)) :
    rd ≠ .zero ∧ rd ≠ .sp ∧ ∀ c1, Cpu.LikeBut rd c c1 → c1.get rd = w →
      Runs img commit c1 (h.put sp c w p).Like := by
  obtain ⟨p', hp', hwrite⟩ := except_bind_ok.1 hwrite
  cases hp.symm.trans (placeAt_of_place hp')
  cases p with
  | register r =>
    cases hwrite
    obtain ⟨i, rfl⟩ := hs.place_register hp
    exact ⟨nofun, nofun, fun c1 hbut hget => ⟨c1, rfl, put_register hbut hget⟩⟩
  | slot n =>
    cases hwrite
    exact ⟨by decide, by decide, fun c1 hbut hget =>
      storeSlot_exec hs hsp hp img (hbut.like rfl) (by decide) hget⟩

/-- **Computing a temporary from two operands** puts the result into its
place. -/
theorem combine_exec {a b : Value} (ha : Word img h sp c a x) (hb : Word img h sp c b y)
    {compute : Reg → Reg → Reg → List Instr} {result : Int32}
    (hcompute : ∀ {c : Cpu} {rd r1 r2 : Reg}, rd ≠ .zero → r1 ≠ rhsReg → c.get r1 = x →
      c.get r2 = y → Runs img (compute rd r1 r2) c fun c' => c'.get rd = result ∧
        Cpu.LikeBut rd c c') (hcombine : h.combine (some t) a b compute = .ok code) :
    Runs img code c (h.put sp c result p).Like := by
  obtain ⟨_, ht, hcombine⟩ := except_bind_ok.1 hcombine
  cases ht
  obtain ⟨⟨code1, r1⟩, hread1, hcombine⟩ := except_bind_ok.1 hcombine
  obtain ⟨⟨code2, r2⟩, hread2, hcombine⟩ := except_bind_ok.1 hcombine
  obtain ⟨⟨rd, commit⟩, hwrite, hcombine⟩ := except_bind_ok.1 hcombine
  cases hcombine
  obtain ⟨c1, hexec1, hr1⟩ := read_exec hs hsp ha hread1 (by decide) (by decide)
  have hlike1 := hr1.like rfl
  obtain ⟨c2, hexec2, hr2⟩ := read_exec hs ((hlike1.get rfl).trans hsp) (hb.like hs hlike1) hread2
    (by decide) (by decide)
  have hlike2 := hlike1.trans (hr2.like rfl)
  -- reading the second operand leaves the register of the first one alone
  have hne : r1 ≠ rhsReg ∧ r1 ≠ addressReg :=
    ⟨hr1.ne rfl (by decide), hr1.ne rfl (by decide)⟩
  obtain ⟨hrd, -, hcommit⟩ := write_exec hs hsp hp img result hwrite
  obtain ⟨c3, hexec3, hget, hbut⟩ :=
    hcompute hrd hne.1 ((hr2.other hne.1 hne.2).trans hr1.word) hr2.word
  obtain ⟨c', hexec4, hlike⟩ := hcommit c3 ((hlike2.but rd).trans hbut) hget
  exact ⟨c', execAll_trans (execAll_trans (execAll_trans hexec1 hexec2) hexec3) hexec4, hlike⟩

theorem copy_exec (hw : Word img h sp c v w) (hcopy : h.copy t v = .ok code) :
    Runs img code c (h.put sp c w p).Like := by
  obtain ⟨⟨rd, commit⟩, hwrite, hcopy⟩ := except_bind_ok.1 hcopy
  obtain ⟨code1, hread, hcopy⟩ := except_bind_ok.1 hcopy
  cases hcopy
  obtain ⟨hrd, hne, hcommit⟩ := write_exec hs hsp hp img w hwrite
  exact (readInto_exec hs hsp hw hread hrd hne).seq fun c1 hb => hcommit c1 hb.likeBut hb.word

/-- **A load through an address** gets the word there. -/
theorem load_through_exec (hv : ∀ s, v = .temp s → h.kinds[s]? ≠ some .scalar) (hmod : a % 4 = 0)
    (hlt : a < 0x100000000) (hw : Word img h sp c v (Int32.ofNat a))
    (hload : h.load (some t) v = .ok code) : Runs img code c (h.put sp c (c.mem a) p).Like := by
  obtain ⟨rd, commit, code1, r, scratch, hwrite, hscratch, hread, rfl⟩ := load_through_ok hv hload
  have hnot : scratch ≠ .zero ∧ scratch ≠ .sp := by
    constructor <;> rintro rfl <;> cases hscratch
  obtain ⟨c1, hexec1, hr⟩ := read_exec hs hsp hw hread hnot.1 hnot.2
  obtain ⟨hrd, -, hcommit⟩ := write_exec hs hsp hp img (c.mem a) hwrite
  have hlw : execAll img [.lw rd 0 r] c1 = some (c1.set rd (c.mem a)) := by
    rw [execAll_singleton, Instr.exec, address?_zero hr.word hmod hlt, hr.mem]
    rfl
  obtain ⟨c', hexec2, hlike⟩ := hcommit (c1.set rd (c.mem a))
    (((hr.like hscratch).but rd).trans (.set ..)) (Cpu.get_set_self hrd)
  exact ⟨c', execAll_trans (execAll_trans hexec1 hlw) hexec2, hlike⟩

/-- A store to a scalar variable puts the word into its place. -/
theorem assign_exec (hw : Word img h sp c v w) (hassign : h.assign t v = .ok code) :
    Runs img code c (h.put sp c w p).Like := by
  obtain ⟨p', hp', hassign⟩ := except_bind_ok.1 hassign
  cases hp.symm.trans (placeAt_of_place hp')
  cases p with
  | register r =>
    obtain ⟨i, rfl⟩ := hs.place_register hp
    obtain ⟨c', hexec, hb⟩ := readInto_exec hs hsp hw hassign nofun nofun
    exact ⟨c', hexec, put_register hb.likeBut hb.word⟩
  | slot n =>
    obtain ⟨⟨code1, r⟩, hread, hcode⟩ := except_bind_ok.1 hassign
    cases hcode
    exact (read_exec hs hsp hw hread (by decide) (by decide)).seq fun c1 hr =>
      storeSlot_exec hs hsp hp img (hr.like rfl) (hr.ne rfl (by decide)) hr.word

end

end Home

end SysY.Rv32
