import SysY.Proofs.Rv32.Flows
import SysY.Proofs.Rv32.Link

/-!
# What a function preserves for its caller

Along every path from the label of an emitted function to a return, the function
has kept the calling convention, if the functions that it calls do and the stores
of its program leave the words alone in which it has saved registers
(`Compiled.leaves`). On the way an invariant holds (`Home.Safe`): the stack pointer
has moved by the size of the frame, the saved registers are in their cells, and
registers that are not saved have not been touched. The prologue establishes it,
every part of the code keeps it (`Home.Flowing.step`), and whichever epilogue is
reached restores from it what has to be preserved. The register for the result is
not among what an epilogue loads, so that it still holds the value that was
returned.
-/

namespace SysY.Rv32

open IR (Value Line Label Temp Op FlatBlock Flat)
open List

variable {img : Image} {free : Nat → Prop} {c c' entry : Cpu} {r rd : Reg} {w base : Int32}
  {flat : Flat} {lines : List Line} {sp n pc offset a : Nat} {s s1 s' : State} {code : List Instr}
  {rest : List AsmLine} {name : String} {i : Instr} {acc : List Access}

namespace Home

variable {h : Home} {v : Value}

/-! ## Values -/

/-- The word that a value has in a state of the machine. -/
def word? (img : Image) (h : Home) (c : Cpu) : Value → Option Int32
  | .const n => some n
  | .global name => img.symbol? name
  | .arg i =>
    if lt : i < 8 then some (c.get (.a ⟨i, lt⟩))
    else some (c.mem (cell (c.get .sp) (h.frame.size + (i - registerArgs) * wordSize)))
  | .temp t =>
    match h.kinds[t]?, placeAt h.plan.places t with
    | some (.array first), _ => some (c.get .sp + Int32.ofNat (h.frame.arrayOffset first))
    | some _, some (.register r) => some (c.get r)
    | some _, some (.slot n) => some (c.mem (cell (c.get .sp) (h.frame.slotOffset n)))
    | _, _ => none

/-- A value that is read is in the register that is given for it. -/
theorem read_word {scratch : Reg} (hzero : scratch ≠ .zero) (hsp : scratch ≠ .sp)
    (hread : h.read v scratch = .ok (code, r)) (hexec : execAll img code c = some c') :
    h.word? img c v = some (c'.get r) := by
  cases v with
  | const n =>
    unfold read at hread
    dsimp only at hread
    split at hread
    next heq =>
      cases hread
      cases hexec
      exact congrArg some heq
    next =>
      cases hread
      rw [execAll_singleton] at hexec
      cases hexec
      rw [word?, Cpu.get_set_self hzero, Int32.ofInt_toInt]
  | global name =>
    cases hread
    rw [execAll_singleton] at hexec
    obtain ⟨w, hw, rfl⟩ := Option.map_eq_some_iff.1 hexec
    rw [word?, hw, Cpu.get_set_self hzero]
  | arg i =>
    unfold read at hread
    dsimp only at hread
    split at hread
    next hlt =>
      cases hread
      cases hexec
      exact dif_pos hlt
    next hge =>
      obtain ⟨offset, hoffset, hread⟩ := except_bind_ok.1 hread
      cases hread
      rw [word?, dif_neg hge, (loadStack_of_exec hzero hexec).word, incomingOffset_ok hoffset,
        registerArgs, wordSize, Nat.mul_comm]
  | temp t =>
    obtain ⟨k, hk, hread⟩ := except_bind_ok.1 hread
    have hkinds := kinds_of_kind hk
    cases k with
    | array first =>
      cases hread
      rw [word?, hkinds, stackAddress_of_exec hzero hsp hexec]
    | value | scalar =>
      obtain ⟨pl, hpl, hread⟩ := except_bind_ok.1 hread
      have hplace := placeAt_of_place hpl
      cases pl with
      | register r =>
        cases hread
        cases hexec
        rw [word?, hkinds, hplace]
      | slot n =>
        cases hread
        rw [word?, hkinds, hplace, (loadStack_of_exec hzero hexec).word]

theorem readInto_word (hzero : rd ≠ .zero) (hsp : rd ≠ .sp) (hread : h.readInto v rd = .ok code)
    (hexec : execAll img code c = some c') : h.word? img c v = some (c'.get rd) := by
  obtain ⟨⟨code1, r⟩, hvalue, hcode⟩ := except_bind_ok.1 hread
  cases hcode
  obtain ⟨c1, hexec1, hmove⟩ := exists_of_execAll_append hexec
  rw [read_word hzero hsp hvalue hexec1]
  unfold move at hmove
  split at hmove
  next heq =>
    cases hmove
    rw [heq]
  next =>
    rw [execAll_singleton] at hmove
    cases hmove
    rw [Cpu.get_set_self hzero]

/-! ## What is safe -/

/-- An address is in the frame of a function. -/
def InFrame (h : Home) (base : Int32) (a : Nat) : Prop := ∃ offset < h.frame.size, a = cell base offset

/-- No word of the area in which a function has saved registers is free to be
changed. -/
def Apart (h : Home) (free : Nat → Prop) (base : Int32) : Prop :=
  ∀ offset, h.frame.saved ≤ offset → offset < h.frame.size → ¬ free (cell base offset)

/-- The stack pointer while a function runs. -/
def stackBase (h : Home) (entry : Cpu) : Int32 := entry.get .sp - h.frameWord

/-- **What a function has to preserve is safe** in its frame, or has not been
touched. -/
structure Safe (h : Home) (free : Nat → Prop) (entry c : Cpu) : Prop where
  /-- There is a frame. -/
  stack : c.get .sp = h.stackBase entry
  /-- Saved registers are in their cells. -/
  cells : ∀ x ∈ h.cells, c.mem (cell (h.stackBase entry) x.2) = entry.get x.1
  /-- Other registers have not been touched. -/
  unused : ∀ k, .s k ∉ h.frame.preserved → c.get (.s k) = entry.get (.s k)
  /-- Memory is the same where it is not free, but for the frame. -/
  outside : ∀ a, ¬ free a → ¬ h.InFrame (h.stackBase entry) a → c.mem a = entry.mem a

theorem Stands.not_free (hs : h.Stands lines sp) (hapart : h.Apart free base) {x : Reg × Nat}
    (hx : x ∈ h.cells) : ¬ free (Rv32.cell base x.2) := by
  have hcell := hs.cell hx
  exact hapart x.2 hcell.1 (by omega)

namespace Safe

/-- A word is computed. -/
theorem set (hsafe : h.Safe free entry c) (hrd : h.Writable rd) (w : Int32) :
    h.Safe free entry (c.set rd w) where
  stack := (Cpu.get_set_of_ne hrd.1.symm).trans hsafe.stack
  cells := hsafe.cells
  unused := by
    intro k hk
    refine (Cpu.get_set_of_ne fun heq => hk ?_).trans (hsafe.unused k hk)
    exact heq ▸ hrd.2.2 k heq.symm
  outside := hsafe.outside

/-- A word is stored where memory is free. -/
theorem poke (hs : h.Stands lines sp) (hapart : h.Apart free (h.stackBase entry))
    (hsafe : h.Safe free entry c) (ha : free a) (w : Int32) : h.Safe free entry (c.poke a w) where
  stack := hsafe.stack
  cells := by
    intro x hx
    have hne : cell (h.stackBase entry) x.2 ≠ a := fun heq => hs.not_free hapart hx (heq ▸ ha)
    rw [Cpu.mem_poke_of_ne hne, hsafe.cells x hx]
  unused := hsafe.unused
  outside := by
    intro b hfree hframe
    have hne : b ≠ a := fun heq => hfree (heq ▸ ha)
    rw [Cpu.mem_poke_of_ne hne, hsafe.outside b hfree hframe]

/-- A word is stored in the frame. -/
theorem stores (hs : h.Stands lines sp) (hsafe : h.Safe free entry c) (hoffset : offset < h.frame.saved)
    (hst : c.Stores (cell (c.get .sp) offset) w c') : h.Safe free entry c' where
  stack := (hst.get (by decide)).trans hsafe.stack
  cells := by
    intro x hx
    have hcell := hs.cell hx
    have hlt := hs.cell_lt hx
    rw [hst.mem, hsafe.stack, Cpu.mem_poke_of_ne fun heq => ?_]
    · exact hsafe.cells x hx
    · have hsame := cell_inj hlt (by omega) heq
      omega
  unused := fun k hk => (hst.get Reg.noConfusion).trans (hsafe.unused k hk)
  outside := by
    intro a hfree hframe
    have hareas := hs.frame.areas
    rw [hst.mem, hsafe.stack, Cpu.mem_poke_of_ne fun heq => hframe ⟨offset, by omega, heq⟩]
    exact hsafe.outside a hfree hframe

/-- A function is called that keeps the convention. -/
theorem called (hs : h.Stands lines sp) (hapart : h.Apart free (h.stackBase entry))
    (hsafe : h.Safe free entry c) (hcallee : (c.set .ra w).Preserves free c') :
    h.Safe free entry c' where
  stack := (hcallee.get (r := .sp) rfl).trans ((Cpu.get_set_of_ne Reg.noConfusion).trans hsafe.stack)
  cells := fun x hx => (hcallee.mem (hs.not_free hapart hx)).trans (hsafe.cells x hx)
  unused := fun k hk =>
    (hcallee.get (r := .s k) rfl).trans ((Cpu.get_set_of_ne Reg.noConfusion).trans (hsafe.unused k hk))
  outside := fun a hfree hframe => (hcallee.mem hfree).trans (hsafe.outside a hfree hframe)

end Safe

/-! ## Entry and exit -/

/-- **After the prologue everything is safe.** -/
theorem safe_of_prologue (hs : h.Stands lines sp) (hcode : h.prologue = .ok code)
    (hexec : execAll img code entry = some c) (free : Nat → Prop) : h.Safe free entry c := by
  obtain ⟨hsp, hget, hsaved, hother⟩ := prologue_of_exec hs hcode hexec
  rw [hsp] at hsaved hother
  refine ⟨hsp, hsaved, fun k _ => hget rfl Reg.noConfusion, fun a _ hframe => ?_⟩
  refine hother a fun x hx heq => hframe ⟨x.2, ?_, heq⟩
  have hcell := hs.cell hx
  omega

/-- **An epilogue restores what has to be preserved**, and leaves the result alone. -/
theorem Safe.restore (hs : h.Stands lines sp) (hsafe : h.Safe free entry c)
    (hexec : execAll img h.restore c = some c') :
    entry.Preserves (fun a => free a ∨ h.InFrame (h.stackBase entry) a) c' ∧
      c'.get returnReg = c.get returnReg := by
  obtain ⟨hsp, hcells, hmem, hother⟩ := restore_of_exec hs hexec
  have hrestored : ∀ x ∈ h.cells, c'.get x.1 = entry.get x.1 := fun x hx => by
    rw [hcells x hx, hsafe.stack, hsafe.cells x hx]
  have hsaved : ∀ x ∈ h.cells, x.1 = .ra ∨ ∃ k, x.1 = .s k := fun x hx =>
    (mem_preserved_of_cell hx).imp_right fun hused => hs.saved (hs.frame.preserved ▸ hused)
  refine ⟨⟨fun r hr => ?_, fun a ha => ?_⟩, ?_⟩
  · cases r with
    | zero | t | a => cases hr
    | sp => rw [hsp, hsafe.stack, stackBase, Int32.sub_add_cancel]
    | ra => exact hrestored (.ra, h.frame.ra) mem_cons_self
    | s k =>
      by_cases hk : .s k ∈ h.frame.preserved
      · rw [← map_savedCells] at hk
        obtain ⟨x, hx, hxk⟩ := mem_map.1 hk
        exact hxk ▸ hrestored x (mem_cons_of_mem _ hx)
      · rw [hother rfl Reg.noConfusion fun x hx heq => ?_, hsafe.unused k hk]
        obtain hra | hused := mem_preserved_of_cell hx
        · cases heq.trans hra
        · exact hk (heq ▸ hused)
  · rw [hmem]
    exact hsafe.outside a (fun hfree => ha (.inl hfree)) fun hframe => ha (.inr hframe)
  · refine hother rfl Reg.noConfusion fun x hx heq => ?_
    obtain hra | ⟨k, hk⟩ := hsaved x hx
    · cases heq.trans hra
    · cases heq.trans hk

/-! ## Exits -/

/-- **How a function returns** on a path: at some point it comes to the code of one
of its return statements, and at the end the value of this statement is in the
register for the result. If there is no value, that register is left alone. -/
inductive Delivers (img : Image) (h : Home) (flat : Flat) (free : Nat → Prop) (s s' : State) : Prop
  | value {output v} (hline : .instr ⟨output, .ret v⟩ ∈ flat.lines)
      {code : List Instr} (hcode : h.readInto v returnReg = .ok code) {i j : Nat} {mid : State}
      (before : img.Path free i s mid) (after : img.Path free j mid s')
      (hat : img.At mid.pc ((code ++ h.epilogue).map .instr))
      (hword : h.word? img mid.cpu v = some (s'.cpu.get returnReg))
  | nothing {output} (hline : .instr ⟨output, .retVoid⟩ ∈ flat.lines) {i j : Nat}
      {mid : State} (before : img.Path free i s mid) (after : img.Path free j mid s')
      (hat : img.At mid.pc (h.epilogue.map .instr))
      (hsame : s'.cpu.get returnReg = mid.cpu.get returnReg)

theorem Delivers.of_path (hdelivers : h.Delivers img flat free s1 s') (hpath : img.Path free n s s1) :
    h.Delivers img flat free s s' := by
  cases hdelivers with
  | value hline hcode before after hat hword =>
    exact .value hline hcode (hpath.trans before) after hat hword
  | nothing hline before after hat hsame => exact .nothing hline (hpath.trans before) after hat hsame

/-- The function has returned as it should. -/
def Leaves (img : Image) (h : Home) (flat : Flat) (free : Nat → Prop) (entry : Cpu) (s s' : State) :
    Prop :=
  entry.Preserves (fun a => free a ∨ h.InFrame (h.stackBase entry) a) s'.cpu ∧
    h.Delivers img flat free s s'

/-! ## Code that is straight -/

theorem straight_moveStack (w : Int32) : ∀ i ∈ moveStack w, i.isStraight = true :=
  forall_moveStack (fun _ => rfl) rfl rfl

theorem straight_storeStack (r : Reg) (offset : Nat) : ∀ i ∈ storeStack r offset, i.isStraight = true :=
  forall_atStack (fun _ => rfl) rfl rfl rfl

theorem straight_restore : ∀ i ∈ h.restore, i.isStraight = true :=
  forall_restore straight_moveStack fun _ _ => forall_atStack (fun _ => rfl) rfl rfl rfl

/-- Everything stays safe while words are computed. -/
theorem Safe.computing (hsafe : h.Safe free entry c) (hcode : ∀ i ∈ code, h.Computes lines i)
    (hexec : execAll img code c = some c') : h.Safe free entry c' := by
  induction code generalizing c with
  | nil =>
    cases hexec
    exact hsafe
  | cons i code ih =>
    obtain ⟨hi, hcode⟩ := forall_mem_cons.1 hcode
    obtain ⟨c1, hexec1, hrest⟩ := Option.bind_eq_some_iff.1 hexec
    obtain ⟨rd, htarget, hrd⟩ := hi.target
    obtain ⟨w, rfl⟩ := exec_of_target? htarget hexec1
    exact ih (hsafe.set hrd w) hcode hrest

/-! ## Runs -/

/-- Jumps to the labels of a function come to its code. -/
def Labelled (img : Image) (h : Home) (flat : Flat) : Prop :=
  ∀ ⦃l⦄, l ∈ flat.blocks.map (·.label) → ∀ ⦃name⦄, h.symbol l = .ok name →
    ∃ k asm acc, img.label? name = some k ∧ img.At k asm ∧ h.Flows flat acc false asm

/-- The machine is in the code of a function, and everything is safe. -/
def Flowing (img : Image) (h : Home) (flat : Flat) (free : Nat → Prop) (entry : Cpu) (s : State) :
    Prop :=
  ∃ asm acc, h.Flows flat acc false asm ∧ img.At s.pc asm ∧ h.Safe free entry s.cpu

/-- The epilogue, with what brings the result into its register. -/
theorem leaves_of_exit (hs : h.Stands flat.lines sp) (hsafe : h.Safe free entry c)
    (hcode : h.Computing flat.lines acc code)
    (hat : img.At pc ((code ++ h.epilogue).map .instr ++ rest)) (hpath : img.Path free n ⟨pc, c⟩ s')
    (hend : img.Returning s') :
    ∃ c1, execAll img code c = some c1 ∧ s'.cpu.get returnReg = c1.get returnReg ∧
      entry.Preserves (fun a => free a ∨ h.InFrame (h.stackBase entry) a) s'.cpu := by
  have hparts : (code ++ h.epilogue).map AsmLine.instr ++ rest
      = (code ++ h.restore).map .instr ++ (.instr .ret :: rest) := by
    rw [epilogue_eq, ← append_assoc, map_append, append_assoc]
    rfl
  rw [hparts] at hat
  have hstraight : ∀ i ∈ code ++ h.restore, i.isStraight = true := by
    intro i hi
    obtain hi | hi := mem_append.1 hi
    · exact (hcode.computes i hi).straight
    · exact straight_restore i hi
  obtain ⟨m, c2, rfl, hexec, -, hrest⟩ := path_straight hat hstraight hpath hend
  have hret := hat.append_right.head
  rw [length_map] at hret
  obtain rfl := hrest.eq_of_returning hret
  obtain ⟨c1, hexec1, hrestore⟩ := exists_of_execAll_append hexec
  obtain ⟨hpreserves, hresult⟩ := (hsafe.computing hcode.computes hexec1).restore hs hrestore
  exact ⟨c1, hexec1, hresult, hpreserves⟩

/-- A path goes on in the code of a function, and everything is still safe. -/
def Advances (img : Image) (h : Home) (flat : Flat) (free : Nat → Prop) (entry : Cpu) (n : Nat)
    (s s' : State) : Prop :=
  ∃ k m s1, n = k + m ∧ 0 < k ∧ img.Path free k s s1 ∧ img.Path free m s1 s' ∧
    h.Flowing img flat free entry s1

theorem Advances.of_pass (hpass : img.Pass free s s1) (h1 : h.Advances img flat free entry n s1 s') :
    h.Advances img flat free entry (n + 1) s s' := by
  obtain ⟨k, m, s2, rfl, -, hpath, hrest, hflowing⟩ := h1
  exact ⟨k + 1, m, s2, Nat.add_right_comm k m 1, Nat.succ_pos k, .cons hpass hpath, hrest, hflowing⟩

theorem advances_of_pass {line : AsmLine} (hat : img.At pc (line :: rest))
    (hline : line ≠ .instr .ret) (hpath : img.Path free n ⟨pc, c⟩ s') (hend : img.Returning s')
    (hflowing : ∀ ⦃s1⦄, img.Pass free ⟨pc, c⟩ s1 → h.Flowing img flat free entry s1) :
    h.Advances img flat free entry n ⟨pc, c⟩ s' := by
  obtain ⟨m, s1, rfl, hpass, htail⟩ := hpath.exists_pass hend (not_returning_of_at hat hline c)
  exact ⟨1, m, s1, Nat.add_comm m 1, Nat.one_pos, .single hpass, htail, hflowing hpass⟩

theorem advances_of_straight (hat : img.At pc (code.map .instr ++ rest))
    (hstraight : ∀ i ∈ code, i.isStraight = true) (hne : code ≠ [])
    (hpath : img.Path free n ⟨pc, c⟩ s') (hend : img.Returning s')
    (tail : h.Flows flat acc false rest)
    (hsafe : ∀ ⦃c1⦄, execAll img code c = some c1 → h.Safe free entry c1) :
    h.Advances img flat free entry n ⟨pc, c⟩ s' := by
  obtain ⟨m, c1, rfl, hexec, hpath1, hrest⟩ := path_straight hat hstraight hpath hend
  have hnext := hat.append_right
  rw [length_map] at hnext
  exact ⟨code.length, m, _, rfl, length_pos_of_ne_nil hne, hpath1, hrest, rest, acc, tail,
    hnext, hsafe hexec⟩

/-- What is stored by the program is stored where memory is free. -/
theorem Safe.store (hs : h.Stands flat.lines sp) (hapart : h.Apart free (h.stackBase entry))
    (hsafe : h.Safe free entry c) {base : Reg} {offset : Int}
    (hexec : (Instr.sw r offset base).exec img c = some c')
    (hfree : ∀ a, c.address? base offset = some a → free a) : h.Safe free entry c' := by
  obtain ⟨a, ha, rfl⟩ := Option.map_eq_some_iff.1 hexec
  exact hsafe.poke hs hapart (hfree a ha) _

/-- A jump or a branch goes to a label or on with the next line. -/
theorem pass_branch (hat : img.At pc (.instr i :: rest))
    (hi : i = .j name ∨ i = .beqz r name ∨ i = .bnez r name) (hpass : img.Pass free ⟨pc, c⟩ s1) :
    (i ≠ .j name ∧ s1 = ⟨pc + 1, c⟩) ∨ ∃ k, img.label? name = some k ∧ s1 = ⟨k, c⟩ := by
  have hgoto : ∀ {s1}, img.goto name c = some s1 → ∃ k, img.label? name = some k ∧ s1 = ⟨k, c⟩ := by
    intro s1 hgoto
    obtain ⟨k, hk, rfl⟩ := Option.map_eq_some_iff.1 hgoto
    exact ⟨k, hk, rfl⟩
  cases hpass with
  | call hcall =>
    cases Option.some.inj (hat.head.symm.trans hcall)
    obtain hi | hi | hi := hi <;> cases hi
  | step hstep =>
    rw [step_instr hat] at hstep
    obtain rfl | rfl | rfl := hi
    · exact .inr (hgoto hstep)
    · simp only [Image.perform] at hstep
      split at hstep
      · exact .inr (hgoto hstep)
      · exact .inl ⟨Instr.noConfusion, (Option.some.inj hstep).symm⟩
    · simp only [Image.perform] at hstep
      split at hstep
      · exact .inl ⟨Instr.noConfusion, (Option.some.inj hstep).symm⟩
      · exact .inr (hgoto hstep)

theorem pass_call {callee : String} (hat : img.At pc (.instr (.call callee) :: rest))
    (hpass : img.Pass free ⟨pc, c⟩ s1) :
    ∃ c1, s1 = ⟨pc + 1, c1⟩ ∧ (c.set .ra (img.code (pc + 1))).Preserves free c1 := by
  cases hpass with
  | step _ hcall => exact absurd hat.head (hcall callee)
  | call _ hcallee => exact ⟨_, rfl, hcallee⟩

section

variable (hs : h.Stands flat.lines sp) (hapart : h.Apart free (h.stackBase entry))
  (hlabelled : h.Labelled img flat) (hflowing : h.Flowing img flat free entry s)
  (hpath : img.Path free n s s') (hend : img.Returning s')

include hs hapart hlabelled hflowing hpath hend

/-- **One part of the code**: everything stays safe, or the function has
returned. -/
theorem Flowing.step :
    h.Advances img flat free entry n s s' ∨ h.Leaves img flat free entry s s' := by
  obtain ⟨pc, c⟩ := s
  obtain ⟨asm, acc, hflows, hat, hsafe⟩ := hflowing
  have hjump : ∀ {l name k}, l ∈ flat.blocks.map (·.label) → h.symbol l = .ok name →
      img.label? name = some k → h.Flowing img flat free entry ⟨k, c⟩ := by
    intro l name k hl hname hk
    obtain ⟨k', asm, acc, hk', hat', hflows'⟩ := hlabelled hl hname
    cases hk.symm.trans hk'
    exact ⟨asm, acc, hflows', hat', hsafe⟩
  cases hflows with
  | label name tail =>
    refine .inl (advances_of_pass hat AsmLine.noConfusion hpath hend fun s1 hpass => ?_)
    cases pass_idle hat (.inl ⟨name, rfl⟩) hpass
    exact ⟨_, _, tail, hat.tail, hsafe⟩
  | remark text tail =>
    refine .inl (advances_of_pass hat AsmLine.noConfusion hpath hend fun s1 hpass => ?_)
    cases pass_idle hat (.inr ⟨text, rfl⟩) hpass
    exact ⟨_, _, tail, hat.tail, hsafe⟩
  | compute hcode hne tail =>
    exact .inl (advances_of_straight hat (fun i hi => (hcode.computes i hi).straight) hne hpath hend
      tail fun c1 => hsafe.computing hcode.computes)
  | spill hr hoffset _ tail =>
    refine .inl (advances_of_straight hat (straight_storeStack _ _) ?_ hpath hend tail
      fun c1 hexec => hsafe.stores hs hoffset (storeStack_of_exec hr hexec))
    unfold storeStack atStack
    split <;> exact cons_ne_nil _ _
  | @store r base _ _ _ _ hsp haddress tail =>
    refine .inl (advances_of_pass hat (by rintro ⟨⟩) hpath hend fun s1 hpass => ?_)
    obtain ⟨c1, rfl, hexec, hstore⟩ := pass_straight hat rfl hpass
    refine ⟨_, _, tail, hat.tail, hsafe.store hs hapart hexec fun a => hstore r 0 base a rfl ?_⟩
    rintro (heq | ⟨heq, -⟩)
    · exact hsp heq
    · exact haddress heq
  | @global r _ _ _ _ _ _ tail =>
    obtain ⟨m, s1, rfl, hpass1, htail⟩ :=
      hpath.exists_pass hend (not_returning_of_at hat (by rintro ⟨⟩) c)
    obtain ⟨c1, rfl, hexec1, -⟩ := pass_straight hat rfl hpass1
    obtain ⟨w, rfl⟩ := exec_of_target? rfl hexec1
    refine .inl (.of_pass hpass1 ?_)
    refine advances_of_pass hat.tail (by rintro ⟨⟩) htail hend fun s2 hpass2 => ?_
    obtain ⟨c2, rfl, hexec2, hstore⟩ := pass_straight hat.tail rfl hpass2
    refine ⟨_, _, tail, hat.tail.tail, (hsafe.set (h.writable_t 3) w).store hs hapart hexec2 fun a =>
      hstore r 0 addressReg a rfl ?_⟩
    -- the line before loads the address of the variable, which has nothing to do with the stack
    rintro (heq | ⟨-, -, hline⟩)
    · cases heq
    · cases hat.head.symm.trans hline
  | call _ tail =>
    refine .inl (advances_of_pass hat (by rintro ⟨⟩) hpath hend fun s1 hpass => ?_)
    obtain ⟨c1, rfl, hcallee⟩ := pass_call hat hpass
    exact ⟨_, _, tail, hat.tail, hsafe.called hs hapart hcallee⟩
  | branch _ hl hname hi tail =>
    refine .inl (advances_of_pass hat ?_ hpath hend fun s1 hpass => ?_)
    · obtain rfl | rfl := hi <;> rintro ⟨⟩
    · obtain ⟨-, rfl⟩ | ⟨k, hk, rfl⟩ := pass_branch hat (.inr hi) hpass
      · exact ⟨_, _, tail, hat.tail, hsafe⟩
      · exact hjump hl hname hk
  | jump hl hname tail =>
    refine .inl (advances_of_pass hat (by rintro ⟨⟩) hpath hend fun s1 hpass => ?_)
    obtain ⟨hne, -⟩ | ⟨k, hk, rfl⟩ := pass_branch (r := .zero) hat (.inl rfl) hpass
    · exact absurd rfl hne
    · exact hjump hl hname hk
  | ret hline hcode hcomputing tail =>
    obtain ⟨c1, hexec, hresult, hpreserves⟩ := leaves_of_exit hs hsafe hcomputing hat hpath hend
    refine .inr ⟨hpreserves, .value hline hcode (.nil _) hpath hat.append_left ?_⟩
    rw [hresult]
    exact readInto_word Reg.noConfusion Reg.noConfusion hcode hexec
  | retVoid hline tail =>
    have hnone : img.At pc (([] ++ h.epilogue).map .instr ++ _) := hat
    obtain ⟨c1, hexec, hresult, hpreserves⟩ :=
      leaves_of_exit hs hsafe .nil hnone hpath hend
    cases hexec
    exact .inr ⟨hpreserves, .nothing hline (.nil _) hpath hat.append_left hresult⟩

/-- **The function keeps the convention** along every path to a return. -/
theorem Flowing.run : h.Leaves img flat free entry s s' := by
  -- code may jump back, so the induction is on the length of the path
  induction n using Nat.strongRecOn generalizing s with
  | ind n ih =>
    obtain ⟨k, m, s1, rfl, hk, hpath1, hrest, hflowing1⟩ | hleaves :=
      hflowing.step hs hapart hlabelled hpath hend
    · obtain ⟨hpreserves, hdelivers⟩ := ih m (by omega) hflowing1 hrest
      exact ⟨hpreserves, hdelivers.of_path hpath1⟩
    · exact hleaves

end

/-! ## Registers that are saved -/

/-- The prologue stores all registers that are restored. -/
theorem exists_store_of_preserved (hcode : h.prologue = .ok code) (hr : r ∈ h.frame.preserved) :
    ∃ offset base, .sw r offset base ∈ code := by
  rw [← map_savedCells] at hr
  obtain ⟨x, hx, rfl⟩ := mem_map.1 hr
  have hstore : ∃ offset base, .sw x.1 offset base ∈ storeStack x.1 x.2 := by
    unfold storeStack atStack
    split
    · exact ⟨_, _, mem_singleton_self _⟩
    · exact ⟨0, addressReg, by simp⟩
  obtain ⟨offset, base, hmem⟩ := hstore
  have hcell : x ∈ h.cells := mem_cons_of_mem _ hx
  rw [prologue_ok hcode]
  exact ⟨offset, base, mem_append_right _ (mem_flatMap.2 ⟨x, hcell, hmem⟩)⟩

end Home

/-! ## Functions -/

namespace Compiled

variable {F : Compiled} {annotate : Bool} {body : List AsmLine}

section

variable (hbody : F.home.blocksCode annotate F.flat.blocks = .ok body)

include hbody

theorem labelled (hnodup : (Rv32.labels img.lines).Nodup) (hat : img.At pc body) :
    F.home.Labelled img F.flat := by
  intro l hl name hname
  obtain ⟨b, hb, rfl⟩ := mem_map.1 hl
  obtain ⟨before, after, hblocks⟩ := append_of_mem hb
  rw [hblocks] at hbody
  obtain ⟨k, asm, hasm, hat'⟩ := blocksCode_skip before hbody hat
  have hflows := F.flows hblocks (cons_ne_nil _ _) hasm
  obtain ⟨name', here, later, hname', -, -, rfl⟩ := blocksCode_cons hasm
  cases hname.symm.trans hname'
  exact ⟨k, _, _, label?_of_at hnodup hat', hat', hflows⟩

/-- **A saved register that is written has been saved** by the prologue. -/
theorem saves (hprologue : F.home.prologue = .ok code)
    (hi : .instr i ∈ code.map .instr ++ body) {k : Fin 12} (ht : i.target? = some (.s k)) :
    ∃ offset base, .sw (.s k) offset base ∈ code := by
  refine Home.exists_store_of_preserved hprologue ?_
  obtain hi | hi := mem_append.1 hi
  · obtain ⟨j, hj, heq⟩ := mem_map.1 hi
    cases heq
    exact absurd ht (forall_prologue hprologue (fun w => Home.target_moveStack w k)
      (fun x _ => Home.target_storeStack x.1 x.2 k) _ hj)
  · exact ((F.flows_all hbody).instr hi).2 k ht

/-- **A function keeps the convention** along every path from its label to a
return. -/
theorem leaves (hs : F.home.Stands F.flat.lines sp) (hnodup : (Rv32.labels img.lines).Nodup)
    (hprologue : F.home.prologue = .ok code)
    (hat : img.At s.pc (.label name :: (code.map .instr ++ body)))
    (hapart : F.home.Apart free (F.home.stackBase s.cpu)) (hpath : img.Path free n s s')
    (hend : img.Returning s') : F.home.Leaves img F.flat free s.cpu s s' := by
  obtain ⟨pc, entry⟩ := s
  obtain ⟨m, s1, rfl, hpass, htail⟩ :=
    hpath.exists_pass hend (not_returning_of_at hat AsmLine.noConfusion entry)
  cases pass_idle hat (.inl ⟨name, rfl⟩) hpass
  obtain ⟨k, c, rfl, hexec, hpath1, hrest⟩ := path_straight hat.tail
    (forall_prologue hprologue Home.straight_moveStack fun x _ => Home.straight_storeStack x.1 x.2)
    htail hend
  have hat' := hat.tail.append_right
  rw [length_map] at hat'
  have hflowing : F.home.Flowing img F.flat free entry ⟨pc + 1 + code.length, c⟩ :=
    ⟨body, _, F.flows_all hbody, hat',
      Home.safe_of_prologue hs hprologue hexec free⟩
  obtain ⟨hpreserves, hdelivers⟩ :=
    hflowing.run hs hapart (F.labelled hbody hnodup hat') hrest hend
  exact ⟨hpreserves, (hdelivers.of_path hpath1).of_path (.single hpass)⟩

end

end Compiled

end SysY.Rv32
