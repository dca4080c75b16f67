import SysY.Proofs.Rv32.Relate

/-!
# What a function reaches from its stack pointer

A function keeps five kinds of things in its frame: words for arguments beyond
the eighth of the functions that it calls, slots, arrays, the saved registers
that it uses, and the return address. Just above the frame it finds its own
arguments beyond the eighth. `Home.Keeps` says where each of these is, and they
do not overlap (`Compiled.keeps_apart`).

`Home.accesses` says which of them a line is about, and what it does with them,
in order. It follows from the kinds and the places of the temporaries of the
line, and says nothing of instructions.
-/

namespace SysY.Rv32

open IR (Value Line Temp)
open List

/-! ## Objects -/

/-- Some line reads a value. -/
def IsRead (lines : List Line) (v : Value) : Prop := ∃ line ∈ lines, v ∈ line.operands

/-- What a function reaches from its stack pointer. -/
inductive StackObject where
  /-- A word for an argument beyond the eighth of a function that is called. -/
  | outgoing (k : Nat)
  | slot (n : Nat)
  | array (t : Temp)
  /-- The word in which a register is kept, or the return address. -/
  | cell (r : Reg)
  /-- An argument beyond the eighth of the function itself. -/
  | incoming (i : Nat)

/-- **Where an object is** from the stack pointer, and how many bytes it has. -/
inductive Home.Keeps (h : Home) (lines : List Line) : StackObject → Nat → Nat → Prop
  | outgoing {output callee} {args : List Value} {k}
      (hline : .instr ⟨output, .call callee args⟩ ∈ lines) (hk : k < args.length - 8) :
      Keeps h lines (.outgoing k) (4 * k) 4
  | slot {n} (hn : n < h.plan.slots) : Keeps h lines (.slot n) (h.frame.slotOffset n) 4
  | array {n words t} (hline : lines[n]? = some (.instr ⟨some t, .array words⟩)) :
      Keeps h lines (.array t) (h.frame.arrayOffset (arrayWords (lines.take n))) (4 * words)
  | cell {x : Reg × Nat} (hx : x ∈ h.cells) : Keeps h lines (.cell x.1) x.2 4
  | incoming {i} (hi : IsRead lines (.arg i)) (hstack : 8 ≤ i) :
      Keeps h lines (.incoming i) (h.frame.size + 4 * (i - 8)) 4

/-- The bytes that objects of a kind are in. -/
def StackObject.area (frame : Frame) : StackObject → Nat × Nat
  | outgoing _ => (0, frame.spills)
  | slot _ => (frame.spills, frame.arrays)
  | array _ => (frame.arrays, frame.saved)
  | cell _ => (frame.saved, frame.size)
  | incoming i => (frame.size + 4 * (i - 8), frame.size + 4 * (i - 8) + 4)

namespace Compiled

variable {F : Compiled} {obj obj' : StackObject} {a a' n n' sp : Nat}

/-- An object consists of words in the area of its kind. -/
theorem keeps_within (hs : F.home.Stands F.flat.lines sp) (hk : F.home.Keeps F.flat.lines obj a n) :
    (obj.area F.home.frame).1 ≤ a ∧ a + n ≤ (obj.area F.home.frame).2 ∧ a % 4 = 0 ∧ n % 4 = 0 := by
  cases hk with
  | @outgoing _ _ _ k hline hk =>
    have hout := le_outgoing hline
    rw [← F.frame.spills] at hout
    exact ⟨Nat.zero_le _, Nat.le_trans (by omega) hout, by omega, rfl⟩
  | slot hn =>
    obtain ⟨hlow, hhigh, hmod⟩ := F.frame.slot hn
    exact ⟨hlow, hhigh, hmod, rfl⟩
  | array hline =>
    obtain ⟨hlow, hhigh, hmod⟩ := F.frame.array (arrayWords_take_le_all hline)
    exact ⟨hlow, hhigh, hmod, by omega⟩
  | cell hx =>
    obtain ⟨hlow, hhigh, hmod⟩ := hs.cell hx
    exact ⟨hlow, hhigh, hmod, rfl⟩
  | incoming =>
    have haligned := F.frame.aligned
    exact ⟨Nat.le_refl _, Nat.le_refl _, by omega, rfl⟩

/-- **Objects do not overlap.** -/
theorem keeps_apart (hs : F.home.Stands F.flat.lines sp) (hk : F.home.Keeps F.flat.lines obj a n)
    (hk' : F.home.Keeps F.flat.lines obj' a' n') :
    obj = obj' ∧ a = a' ∧ n = n' ∨ a + n ≤ a' ∨ a' + n' ≤ a := by
  have hwithin := keeps_within hs hk
  have hwithin' := keeps_within hs hk'
  have hareas := F.frame.areas
  -- objects of different kinds are in different areas
  cases hk <;> cases hk' <;> simp only [StackObject.area] at hwithin hwithin' <;> try omega
  case outgoing.outgoing k _ _ _ _ _ k' _ _ =>
    obtain rfl | hne := eq_or_ne k k'
    · exact .inl ⟨rfl, rfl, rfl⟩
    · omega
  case slot.slot m _ m' _ =>
    obtain rfl | hne := eq_or_ne m m'
    · exact .inl ⟨rfl, rfl, rfl⟩
    · simp only [Frame.slotOffset, wordSize]
      omega
  case array.array t hline _ _ t' hline' =>
    obtain rfl | hne := eq_or_ne t t'
    · cases eq_of_filterMap_nodup F.nodup_results hline hline' rfl rfl
      cases hline.symm.trans hline'
      exact .inl ⟨rfl, rfl, rfl⟩
    · have hapart := arrays_apart hline hline' hne.symm
      simp only [Frame.arrayOffset, wordSize]
      omega
  case cell.cell x hx x' hx' =>
    obtain heq | hne := eq_or_ne x.2 x'.2
    · cases inj_on_of_nodup_map hs.nodup_offsets hx hx' heq
      exact .inl ⟨rfl, rfl, rfl⟩
    · omega
  case incoming.incoming i _ _ i' _ _ =>
    obtain rfl | hne := eq_or_ne i i'
    · exact .inl ⟨rfl, rfl, rfl⟩
    · omega

end Compiled

/-! ## Accesses -/

/-- What code does with an object: it loads or stores the word, or takes the
address. -/
inductive Access where
  | load (obj : StackObject)
  | store (obj : StackObject)
  | address (obj : StackObject)

namespace Home

/-- What has to be accessed to read a value: the slot that it is in, the array
whose address it is, or the argument. -/
def readAccess (h : Home) : Value → List Access
  | .const _ | .global _ => []
  | .arg i => if i < 8 then [] else [.load (.incoming i)]
  | .temp t =>
    match h.kinds[t]?, placeAt h.plan.places t with
    | some (.array _), _ => [.address (.array t)]
    | some _, some (.slot n) => [.load (.slot n)]
    | _, _ => []

/-- What has to be accessed to put a word into the place of a temporary. -/
def writeAccess (h : Home) (t : Temp) : List Access :=
  match placeAt h.plan.places t with
  | some (.slot n) => [.store (.slot n)]
  | _ => []

/-- The arguments on the stack are read and stored one by one, from number `k`
on. -/
def argAccess (h : Home) (k : Nat) : List Value → List Access
  | [] => []
  | v :: vs => h.readAccess v ++ .store (.outgoing k) :: h.argAccess (k + 1) vs

/-- An epilogue loads every cell. -/
def exitAccess (h : Home) : List Access := h.loadedCells.map fun x => .load (.cell x.1)

/-- **What a line accesses**, in order: it reads its operands, and puts its
result into its place. The place of a scalar variable is where it is stored to,
and where it is loaded from. -/
def accesses (h : Home) : Line → List Access
  | .copy t v => h.readAccess v ++ h.writeAccess t
  | .instr ⟨output, op⟩ =>
    let result := (output.map h.writeAccess).getD []
    match op with
    | .alloca | .array _ | .phi .. | .jump _ => []
    | .zext v | .load v => h.readAccess v ++ result
    | .binary _ a b | .compare _ a b | .element a b => h.readAccess a ++ h.readAccess b ++ result
    | .store v (.temp t) =>
      h.readAccess v ++
        if h.kinds[t]? = some .scalar then h.writeAccess t else h.readAccess (.temp t)
    | .store v target => h.readAccess v ++ h.readAccess target
    | .call _ args => h.argAccess 0 (args.drop registerArgs) ++
        (args.take registerArgs).flatMap h.readAccess ++ result
    | .branch v _ _ => h.readAccess v
    | .ret v => h.readAccess v ++ h.exitAccess
    | .retVoid => h.exitAccess

end Home

end SysY.Rv32
