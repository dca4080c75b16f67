import Mathlib.Data.List.Forall2
import SysY.Proofs.Rv32.Select

/-!
# Arguments, entry and exit

The instructions around a call: the caller puts arguments beyond the eighth
into its outgoing area and the others into registers; the callee makes room
for its frame and saves the registers that it uses, and restores them before
it returns. The outgoing area is below everything else in the frame and no
place is an argument register, so passing one argument does not disturb the
words of the others.
-/

namespace SysY.Rv32

open IR (Value Line Label Temp Op)
open List

variable {img : Image} {h : Home} {lines : List Line} {c c' : Cpu} {sp : Nat} {v : Value} {w : Int32}
  {ws : List Int32} {vs : List Value} {cs : List (Reg × Nat)}

/-! ## Words of the stack -/

/-- Different offsets are different words. -/
theorem cell_inj {base : Int32} {m n : Nat} (hm : m < 0x100000000) (hn : n < 0x100000000)
    (h : cell base m = cell base n) : m = n := by
  have hword : base + Int32.ofNat m = base + Int32.ofNat n := Int32.toBitVec_inj.1 (BitVec.eq_of_toNat_eq h)
  have hoffset : Int32.ofNat m = Int32.ofNat n := by grind
  rw [← address_ofNat hm, hoffset, address_ofNat hn]

theorem moveStack_of_exec {by_ : Int32} (h : execAll img (moveStack by_) c = some c') :
    c'.get .sp = c.get .sp + by_ ∧ Cpu.LikeBut .sp c c' := by
  obtain ⟨_, hexec, hmoved⟩ := moveStack_exec img c by_
  cases hexec.symm.trans h
  exact hmoved

theorem exists_of_execAll_append {is is' : List Instr} (h : execAll img (is ++ is') c = some c') :
    ∃ c1, execAll img is c = some c1 ∧ execAll img is' c1 = some c' := by
  rw [execAll_append] at h
  exact Option.bind_eq_some_iff.1 h

/-- Registers are stored in cells, one after the other. -/
theorem saveCells_of_exec (hlt : ∀ x ∈ cs, x.2 < 0x100000000)
    (hregs : ∀ x ∈ cs, x.1.isScratch = false) (hnodup : (cs.map (·.2)).Nodup)
    (h : execAll img (cs.flatMap fun (r, offset) => storeStack r offset) c = some c') :
    (∀ {r : Reg}, r.isScratch = false → c'.get r = c.get r) ∧
      (∀ x ∈ cs, c'.mem (cell (c.get .sp) x.2) = c.get x.1) ∧
      ∀ a, (∀ x ∈ cs, a ≠ cell (c.get .sp) x.2) → c'.mem a = c.mem a := by
  induction cs generalizing c with
  | nil =>
    cases h
    exact ⟨fun _ => rfl, fun x hx => absurd hx not_mem_nil, fun _ _ => rfl⟩
  | cons x cs ih =>
    obtain ⟨r, offset⟩ := x
    rw [forall_mem_cons] at hlt hregs
    rw [map_cons, nodup_cons] at hnodup
    rw [flatMap_cons] at h
    obtain ⟨c1, hstore, hrest⟩ := exists_of_execAll_append h
    have hst := storeStack_of_exec (ne_addressReg hregs.1) hstore
    have hsp : c1.get .sp = c.get .sp := hst.get (by decide)
    obtain ⟨hget, hsaved, hother⟩ := ih hlt.2 hregs.2 hnodup.2 hrest
    rw [hsp] at hsaved hother
    refine ⟨fun hr => ?_, forall_mem_cons.2 ⟨?_, fun y hy => ?_⟩, fun a ha => ?_⟩
    · rw [hget hr, hst.get (ne_addressReg hr)]
    · rw [hother, hst.mem, Cpu.mem_poke_self]
      intro y hy heq
      exact hnodup.1 (mem_map.2 ⟨y, hy, (cell_inj hlt.1 (hlt.2 y hy) heq).symm⟩)
    · rw [hsaved y hy, hst.get (ne_addressReg (hregs.2 y hy))]
    · rw [forall_mem_cons] at ha
      rw [hother a ha.2, hst.mem, Cpu.mem_poke_of_ne ha.1]

/-- Registers are loaded from cells, one after the other. -/
theorem loadCells_of_exec (hregs : ∀ x ∈ cs, x.1.isScratch = false ∧ x.1 ≠ .zero ∧ x.1 ≠ .sp)
    (hnodup : (cs.map (·.1)).Nodup)
    (h : execAll img (cs.flatMap fun (r, offset) => loadStack r offset) c = some c') :
    c'.mem = c.mem ∧ (∀ x ∈ cs, c'.get x.1 = c.mem (cell (c.get .sp) x.2)) ∧
      ∀ {r : Reg}, r.isScratch = false → (∀ x ∈ cs, r ≠ x.1) → c'.get r = c.get r := by
  induction cs generalizing c with
  | nil =>
    cases h
    exact ⟨rfl, fun x hx => absurd hx not_mem_nil, fun _ _ => rfl⟩
  | cons x cs ih =>
    obtain ⟨r, offset⟩ := x
    rw [forall_mem_cons] at hregs
    rw [map_cons, nodup_cons] at hnodup
    rw [flatMap_cons] at h
    obtain ⟨c1, hload, hrest⟩ := exists_of_execAll_append h
    have hb := loadStack_of_exec hregs.1.2.1 hload
    have hsp : c1.get .sp = c.get .sp := hb.likeBut.get rfl hregs.1.2.2.symm
    obtain ⟨hmem, hloaded, hother⟩ := ih hregs.2 hnodup.2 hrest
    rw [hsp, hb.mem] at hloaded
    refine ⟨hmem.trans hb.mem, forall_mem_cons.2 ⟨?_, hloaded⟩, fun {q} hq hne => ?_⟩
    · rw [hother hregs.1.1, hb.word]
      exact fun y hy heq => hnodup.1 (mem_map.2 ⟨y, hy, heq.symm⟩)
    · rw [forall_mem_cons] at hne
      rw [hother hq hne.2, hb.likeBut.get hq hne.1]

/-- Instructions for one thing after the other can be executed, if they can be and
keep the stack pointer. -/
theorem exists_execAll_flatMap {α : Type} {code : α → List Instr} {xs : List α}
    (hcode : ∀ x ∈ xs, ∀ {c : Cpu}, c.get .sp = Int32.ofNat sp →
      Runs img (code x) c fun c' => c'.get .sp = Int32.ofNat sp)
    (hsp : c.get .sp = Int32.ofNat sp) : ∃ c', execAll img (xs.flatMap code) c = some c' := by
  induction xs generalizing c with
  | nil => exact ⟨c, rfl⟩
  | cons x xs ih =>
    rw [forall_mem_cons] at hcode
    obtain ⟨c1, hexec1, hsp1⟩ := hcode.1 hsp
    obtain ⟨c', hexec2⟩ := ih hcode.2 hsp1
    exact ⟨c', execAll_trans hexec1 hexec2⟩

namespace Home

/-! ## Arguments -/

/-- The word of a value that is no argument depends on saved registers and on
memory above the outgoing area only. -/
theorem Word.stable (hs : h.Stands lines sp) (hw : Word img h sp c v w) (hv : ∀ i, v ≠ .arg i)
    (hreg : ∀ i, c'.get (.s i) = c.get (.s i))
    (hmem : ∀ a, sp + h.frame.spills ≤ a → c'.mem a = c.mem a) : Word img h sp c' v w := by
  cases hw with
  | const => exact .const _
  | global hname => exact .global hname
  | registerArg i => exact absurd rfl (hv i)
  | stackArg => exact absurd rfl (hv _)
  | array ht => exact .array ht
  | @place t k p ht hk hp =>
    have hword : h.placeWord sp c' p = h.placeWord sp c p := by
      cases p with
      | register r =>
        obtain ⟨i, rfl⟩ := hs.place_register hp
        exact hreg i
      | slot n =>
        have hslot := hs.frame.slot (hs.slot hp)
        exact hmem _ (by omega)
    exact hword ▸ .place ht hk hp

variable {code : List Instr} {x : Reg × Nat}

/-- **Arguments are put on the stack**, from number `k` of the outgoing area
on. -/
theorem stackArgs_exec (hs : h.Stands lines sp) {k : Nat} (hsp : c.get .sp = Int32.ofNat sp)
    (hws : Forall₂ (Word img h sp c) vs ws) (hvs : ∀ v ∈ vs, ∀ i, v ≠ .arg i)
    (hroom : 4 * (k + vs.length) ≤ h.frame.spills) (hcode : h.stackArgs k vs = .ok code) :
    Runs img code c fun c' => (∀ {r : Reg}, r.isScratch = false → c'.get r = c.get r) ∧
      (∀ a, a < sp + 4 * k ∨ sp + 4 * (k + vs.length) ≤ a → c'.mem a = c.mem a) ∧
      ∀ j w, ws[j]? = some w → c'.mem (sp + 4 * (k + j)) = w := by
  induction vs generalizing k c code ws with
  | nil =>
    cases hws
    cases hcode
    exact ⟨c, rfl, fun _ => rfl, fun _ _ => rfl, fun j w hj => by cases hj⟩
  | cons v vs ih =>
    obtain ⟨w, ws, hw, hrest, rfl⟩ := forall₂_cons_left_iff.1 hws
    obtain ⟨⟨code1, r⟩, hread, hcode⟩ := except_bind_ok.1 hcode
    obtain ⟨code2, hcode2, hcode⟩ := except_bind_ok.1 hcode
    cases hcode
    rw [forall_mem_cons] at hvs
    rw [length_cons] at hroom
    obtain ⟨c1, hexec1, hr⟩ := read_exec hs hsp hw hread (by decide) (by decide)
    have hlike := hr.like rfl
    have haligned := hs.aligned
    have hareas := hs.frame.areas
    have htop := hs.top
    have hmod : (sp + k * wordSize) % 4 = 0 := by
      simp only [wordSize]
      omega
    obtain ⟨c2, hexec2, hst⟩ := storeStack_exec img ((hlike.get rfl).trans hsp) hmod
      (by simp only [wordSize]; omega) (hr.ne rfl (by decide))
    have haddress : sp + k * wordSize = sp + 4 * k := by rw [wordSize, Nat.mul_comm]
    have hget : ∀ {q : Reg}, q.isScratch = false → c2.get q = c.get q := by
      intro q hq
      rw [hst.get (ne_addressReg hq), hlike.get hq]
    have hmem : ∀ a, a ≠ sp + 4 * k → c2.mem a = c.mem a := by
      intro a ha
      rw [hst.mem, haddress, Cpu.mem_poke_of_ne ha, hlike.mem]
    have hrest' : Forall₂ (Word img h sp c2) vs ws := by
      refine (forall₂_iff_zip.2 ⟨hrest.length_eq, fun {v w} hvw => ?_⟩)
      refine Word.stable hs (forall₂_zip hrest hvw) (hvs.2 v (of_mem_zip hvw).1)
        (fun i => hget rfl) fun a ha => hmem a (by omega)
    obtain ⟨c', hexec3, hget', hmem', hwords⟩ := ih ((hget rfl).trans hsp) hrest' hvs.2
      (k := k + 1) (by omega) hcode2
    refine ⟨c', execAll_trans (execAll_trans hexec1 hexec2) hexec3,
      fun hq => (hget' hq).trans (hget hq), fun a ha => ?_, fun j w' hj => ?_⟩
    · rw [length_cons] at ha
      rw [hmem' a (by omega), hmem a (by omega)]
    · cases j with
      | zero =>
        cases hj
        rw [hmem' _ (by omega), hst.mem, haddress, Nat.add_zero, Cpu.mem_poke_self, hr.word]
      | succ j =>
        have := hwords j w' hj
        rwa [Nat.add_right_comm, Nat.add_assoc k] at this

/-- **Arguments are put into their registers.** -/
theorem registerArgCode_exec (hs : h.Stands lines sp) {vs : List (Value × Fin 8)}
    (hsp : c.get .sp = Int32.ofNat sp) (hws : Forall₂ (fun x => Word img h sp c x.1) vs ws)
    (hvs : ∀ x ∈ vs, ∀ i, x.1 ≠ .arg i) (hnodup : (vs.map (·.2)).Nodup)
    (hcode : h.registerArgCode vs = .ok code) : Runs img code c fun c' => c'.mem = c.mem ∧
      (∀ {r : Reg}, r.isScratch = false → (∀ x ∈ vs, r ≠ .a x.2) → c'.get r = c.get r) ∧
      Forall₂ (fun x w => c'.get (.a x.2) = w) vs ws := by
  induction vs generalizing c code ws with
  | nil =>
    cases hws
    cases hcode
    exact ⟨c, rfl, rfl, fun _ _ => rfl, .nil⟩
  | cons x vs ih =>
    obtain ⟨v, i⟩ := x
    obtain ⟨w, ws, hw, hrest, rfl⟩ := forall₂_cons_left_iff.1 hws
    obtain ⟨code1, hread, hcode⟩ := except_bind_ok.1 hcode
    obtain ⟨code2, hcode2, hcode⟩ := except_bind_ok.1 hcode
    cases hcode
    rw [forall_mem_cons] at hvs
    rw [map_cons, nodup_cons] at hnodup
    obtain ⟨c1, hexec1, hb⟩ := readInto_exec hs hsp hw hread nofun nofun
    have hget : ∀ {q : Reg}, q.isScratch = false → q ≠ .a i → c1.get q = c.get q :=
      fun hq hne => hb.likeBut.get hq hne
    have hrest' : Forall₂ (fun x => Word img h sp c1 x.1) vs ws := by
      refine (forall₂_iff_zip.2 ⟨hrest.length_eq, fun {x w} hxw => ?_⟩)
      refine Word.stable hs (forall₂_zip hrest hxw) (hvs.2 x (of_mem_zip hxw).1)
        (fun i => hget rfl nofun) fun a ha => congrFun hb.mem a
    obtain ⟨c', hexec2, hmem, hget', hwords⟩ :=
      ih ((hget (q := .sp) rfl nofun).trans hsp) hrest' hvs.2 hnodup.2 hcode2
    refine ⟨c', execAll_trans hexec1 hexec2, hmem.trans hb.mem, fun {r} hr hne => ?_, .cons ?_ hwords⟩
    · rw [forall_mem_cons] at hne
      rw [hget' hr hne.2, hget hr hne.1]
    · rw [hget' rfl fun y hy heq => hnodup.1 ?_]
      · exact hb.word
      · rw [Reg.a.inj heq]
        exact mem_map_of_mem hy

/-- The instructions after a call, which put its result into a place. -/
def Receives (h : Home) (output : Option Temp) (code : List Instr) : Prop :=
  match output with
  | some t => ∃ rd commit, h.write t = .ok (rd, commit) ∧ code = move rd returnReg ++ commit
  | none => code = []

/-- The parts of the code of a call. -/
theorem call_ok {output : Option Temp} {callee : String}
    (hcode : h.call output callee vs = .ok code) :
    ∃ code1 code2 code3, h.stackArgs 0 (vs.drop registerArgs) = .ok code1 ∧
      h.registerArgCode (vs.zip [0, 1, 2, 3, 4, 5, 6, 7]) = .ok code2 ∧ h.Receives output code3 ∧
      code = code1 ++ code2 ++ [.call callee] ++ code3 := by
  obtain ⟨code1, hcode1, hcode⟩ := except_bind_ok.1 hcode
  obtain ⟨code2, hcode2, hcode⟩ := except_bind_ok.1 hcode
  refine ⟨code1, code2, ?_⟩
  cases output with
  | none =>
    cases hcode
    exact ⟨[], hcode1, hcode2, rfl, rfl⟩
  | some t =>
    obtain ⟨⟨rd, commit⟩, hwrite, hcode⟩ := except_bind_ok.1 hcode
    cases hcode
    exact ⟨_, hcode1, hcode2, ⟨rd, commit, hwrite, rfl⟩, rfl⟩

/-! ## Entry and exit -/

/-- The cells of the frame in which registers are kept, with their offsets. -/
def cells (h : Home) : List (Reg × Nat) := (.ra, h.frame.ra) :: h.savedCells

theorem mem_savedCells (hx : x ∈ h.savedCells) :
    ∃ i, h.frame.preserved[i]? = some x.1 ∧ x.2 = h.frame.saved + 4 * i := by
  obtain ⟨⟨r, i⟩, hmem, rfl⟩ := mem_map.1 hx
  refine ⟨i, by simpa using mem_zipIdx_iff_getElem?.1 hmem, ?_⟩
  rw [wordSize, Nat.mul_comm]

theorem map_savedCells (h : Home) : h.savedCells.map (·.1) = h.frame.preserved := by
  unfold savedCells
  rw [map_map]
  exact zipIdx_map_fst ..

section

variable (hs : h.Stands lines sp)

include hs

/-- A cell is a word of the frame above the arrays. -/
theorem Stands.cell (hx : x ∈ h.cells) :
    h.frame.saved ≤ x.2 ∧ x.2 + 4 ≤ h.frame.size ∧ x.2 % 4 = 0 := by
  have hareas := hs.frame.areas
  rcases mem_cons.1 hx with rfl | hx
  · exact ⟨hareas.2.2.1, hareas.2.2.2, hs.frame.ra_mod⟩
  · obtain ⟨i, hi, hx⟩ := mem_savedCells hx
    have hlt := (List.getElem?_eq_some_iff.1 hi).1
    have hra := hs.frame.ra
    have hmod := hs.frame.saved_mod
    rw [hs.frame.preserved] at hlt
    omega

theorem Stands.cell_address (hx : x ∈ h.cells) : (sp + x.2) % 4 = 0 ∧ sp + x.2 < 0x100000000 := by
  have hcell := hs.cell hx
  have haligned := hs.aligned
  have htop := hs.top
  omega

theorem Stands.cell_lt (hx : x ∈ h.cells) : x.2 < 0x100000000 := by
  have haddress := hs.cell_address hx
  omega

/-- Every cell has an offset of its own. -/
theorem Stands.nodup_offsets : (h.cells.map (·.2)).Nodup := by
  have hra := hs.frame.ra
  rw [cells, map_cons, nodup_cons]
  constructor
  · intro hmem
    obtain ⟨x, hx, heq⟩ := mem_map.1 hmem
    obtain ⟨i, hi, hoffset⟩ := mem_savedCells hx
    have hlt := (List.getElem?_eq_some_iff.1 hi).1
    rw [hs.frame.preserved] at hlt
    omega
  · have hoffsets : h.savedCells.map (·.2)
        = (range' 0 h.frame.preserved.length).map fun i => h.frame.saved + i * wordSize := by
      unfold savedCells
      rw [← zipIdx_map_snd 0 h.frame.preserved, map_map, map_map]
      rfl
    rw [hoffsets]
    refine Nodup.map (fun i j heq => ?_) nodup_range'
    simp only [wordSize] at heq
    omega

theorem Stands.cell_register (hx : x ∈ h.cells) :
    x.1.isScratch = false ∧ x.1 ≠ .zero ∧ x.1 ≠ .sp := by
  rcases mem_cons.1 hx with rfl | hx
  · exact ⟨rfl, nofun, nofun⟩
  · obtain ⟨i, hi, -⟩ := mem_savedCells hx
    obtain ⟨n, hn⟩ := hs.saved (hs.frame.preserved ▸ mem_of_getElem? hi)
    rw [hn]
    exact ⟨rfl, nofun, nofun⟩

end

/-- What a function does first: it moves the stack pointer and fills its cells. -/
theorem prologue_ok (hcode : h.prologue = .ok code) :
    code = moveStack (-h.frameWord) ++ (h.cells.flatMap fun (r, offset) => storeStack r offset) := by
  unfold prologue at hcode
  split at hcode
  · cases hcode
  · cases hcode
    rw [cells, flatMap_cons, append_assoc]

theorem prologue_of_exec (hs : h.Stands lines sp) (hcode : h.prologue = .ok code)
    (hexec : execAll img code c = some c') : c'.get .sp = c.get .sp - h.frameWord ∧
      (∀ {r : Reg}, r.isScratch = false → r ≠ .sp → c'.get r = c.get r) ∧
      (∀ x ∈ h.cells, c'.mem (Rv32.cell (c'.get .sp) x.2) = c.get x.1) ∧
      ∀ a, (∀ x ∈ h.cells, a ≠ Rv32.cell (c'.get .sp) x.2) → c'.mem a = c.mem a := by
  rw [prologue_ok hcode] at hexec
  obtain ⟨c1, hmove, hsave⟩ := exists_of_execAll_append hexec
  obtain ⟨hsp, hbut⟩ := moveStack_of_exec hmove
  obtain ⟨hget, hsaved, hother⟩ := saveCells_of_exec (fun x hx => hs.cell_lt hx)
    (fun x hx => (hs.cell_register hx).1) hs.nodup_offsets hsave
  have hsp' : c'.get .sp = c1.get .sp := hget rfl
  rw [hsp']
  refine ⟨hsp.trans (Int32.sub_eq_add_neg ..).symm, fun hr hne => ?_, fun x hx => ?_, fun a ha => ?_⟩
  · rw [hget hr, hbut.get hr hne]
  · obtain ⟨hscratch, -, hne⟩ := hs.cell_register hx
    rw [hsaved x hx, hbut.get hscratch hne]
  · rw [hother a ha, hbut.mem]

/-- **On entry** a function makes room for its frame and saves registers. -/
theorem prologue_exec (hs : h.Stands lines sp)
    (hsp : c.get .sp = Int32.ofNat (sp + h.frame.size)) (hcode : h.prologue = .ok code) :
    Runs img code c fun c' => c'.get .sp = Int32.ofNat sp ∧
      (∀ {r : Reg}, r.isScratch = false → r ≠ .sp → c'.get r = c.get r) ∧
      (∀ x ∈ h.cells, c'.mem (sp + x.2) = c.get x.1) ∧
      ∀ a, a < sp + h.frame.saved ∨ sp + h.frame.size ≤ a → c'.mem a = c.mem a := by
  have hbase : c.get .sp - h.frameWord = Int32.ofNat sp := by
    rw [hsp, frameWord, Int32.ofNat_add]
    grind
  obtain ⟨c1, hexec1, hsp1, -⟩ := moveStack_exec img c (-h.frameWord)
  rw [← Int32.sub_eq_add_neg, hbase] at hsp1
  obtain ⟨c', hexec2⟩ : ∃ c', execAll img (h.cells.flatMap fun x => storeStack x.1 x.2) c1 = some c' := by
    refine exists_execAll_flatMap (fun x hx {c} hsp => ?_) hsp1
    obtain ⟨c', hexec, hst⟩ := storeStack_exec img hsp (hs.cell_address hx).1 (hs.cell_address hx).2
      (ne_addressReg (hs.cell_register hx).1)
    exact ⟨c', hexec, (hst.get (by decide)).trans hsp⟩
  have hexec : execAll img code c = some c' := prologue_ok hcode ▸ execAll_trans hexec1 hexec2
  obtain ⟨hsp', hget, hsaved, hother⟩ := prologue_of_exec hs hcode hexec
  rw [hbase] at hsp'
  refine ⟨c', hexec, hsp', hget, fun x hx => ?_, fun a ha => hother a fun x hx => ?_⟩
  · rw [← hsaved x hx, cell_eq hsp' (hs.cell_address hx).2]
  · have hcell := hs.cell hx
    rw [cell_eq hsp' (hs.cell_address hx).2]
    omega

/-- What a function does before it returns. -/
def restore (h : Home) : List Instr :=
  (h.savedCells.flatMap fun (r, offset) => loadStack r offset) ++ loadStack .ra h.frame.ra ++
    moveStack h.frameWord

theorem epilogue_eq (h : Home) : h.epilogue = h.restore ++ [.ret] := rfl

/-- The cells in the order in which they are loaded again, the return address last. -/
def loadedCells (h : Home) : List (Reg × Nat) := h.savedCells ++ [(.ra, h.frame.ra)]

theorem restore_eq (h : Home) :
    h.restore = (h.loadedCells.flatMap fun (r, offset) => loadStack r offset) ++
      moveStack h.frameWord := by
  rw [loadedCells, flatMap_append, flatMap_singleton]
  rfl

theorem mem_loadedCells : x ∈ h.loadedCells ↔ x ∈ h.cells := by
  simp [loadedCells, cells, or_comm]

theorem Stands.nodup_loadedCells (hs : h.Stands lines sp) : (h.loadedCells.map Prod.fst).Nodup := by
  rw [loadedCells, map_append, map_savedCells, hs.frame.preserved]
  refine Nodup.append hs.once (nodup_singleton _) ?_
  rintro r hr hra
  obtain ⟨i, rfl⟩ := hs.saved hr
  cases mem_singleton.1 hra

theorem restore_of_exec (hs : h.Stands lines sp) (hexec : execAll img h.restore c = some c') :
    c'.get .sp = c.get .sp + h.frameWord ∧
      (∀ x ∈ h.cells, c'.get x.1 = c.mem (Rv32.cell (c.get .sp) x.2)) ∧ c'.mem = c.mem ∧
      ∀ {r : Reg}, r.isScratch = false → r ≠ .sp → (∀ x ∈ h.cells, r ≠ x.1) → c'.get r = c.get r := by
  rw [restore_eq] at hexec
  obtain ⟨c1, hload, hmove⟩ := exists_of_execAll_append hexec
  obtain ⟨hmem, hloaded, hother⟩ := loadCells_of_exec
    (fun x hx => hs.cell_register (mem_loadedCells.1 hx)) hs.nodup_loadedCells hload
  obtain ⟨hsp, hbut⟩ := moveStack_of_exec hmove
  have hsp1 : c1.get .sp = c.get .sp :=
    hother rfl fun x hx => (hs.cell_register (mem_loadedCells.1 hx)).2.2.symm
  refine ⟨by rw [hsp, hsp1], fun x hx => ?_, hbut.mem.trans hmem, fun {r} hr hne hnot => ?_⟩
  · obtain ⟨hscratch, -, hne⟩ := hs.cell_register hx
    rw [hbut.get hscratch hne, hloaded x (mem_loadedCells.2 hx)]
  · rw [hbut.get hr hne, hother hr fun x hx => hnot x (mem_loadedCells.1 hx)]

/-- **On exit** a function restores the registers that it has saved, and gives
up its frame. -/
theorem restore_exec (hs : h.Stands lines sp) {entry : Cpu} (hsp : c.get .sp = Int32.ofNat sp)
    (hsaved : ∀ x ∈ h.cells, c.mem (sp + x.2) = entry.get x.1) :
    Runs img h.restore c fun c' => c'.get .sp = Int32.ofNat (sp + h.frame.size) ∧
      (∀ x ∈ h.cells, c'.get x.1 = entry.get x.1) ∧ c'.mem = c.mem ∧
      ∀ {r : Reg}, r.isScratch = false → r ≠ .sp → (∀ x ∈ h.cells, r ≠ x.1) → c'.get r = c.get r := by
  obtain ⟨c1, hexec1⟩ : ∃ c1, execAll img (h.loadedCells.flatMap fun x => loadStack x.1 x.2) c = some c1 := by
    refine exists_execAll_flatMap (fun x hx {c} hsp => ?_) hsp
    have hcell := mem_loadedCells.1 hx
    obtain ⟨-, hzero, hne⟩ := hs.cell_register hcell
    obtain ⟨c', hexec, hb⟩ := loadStack_exec img hsp (hs.cell_address hcell).1
      (hs.cell_address hcell).2 hzero
    exact ⟨c', hexec, (hb.likeBut.get rfl hne.symm).trans hsp⟩
  obtain ⟨c', hexec2, -, -⟩ := moveStack_exec img c1 h.frameWord
  have hexec : execAll img h.restore c = some c' := restore_eq h ▸ execAll_trans hexec1 hexec2
  obtain ⟨hsp', hloaded, hmem, hother⟩ := restore_of_exec hs hexec
  refine ⟨c', hexec, ?_, fun x hx => ?_, hmem, hother⟩
  · rw [hsp', hsp, frameWord, Int32.ofNat_add]
  · rw [hloaded x hx, cell_eq hsp (hs.cell_address hx).2, hsaved x hx]

end Home

end SysY.Rv32
