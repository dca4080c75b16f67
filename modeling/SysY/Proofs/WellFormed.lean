import SysY.Proofs.Static.Program

/-!
# Lowered functions are well formed

What one may take for granted of the functions of a lowered module, whatever
the program: the blocks are laid out once each and the entry comes first; a
block ends with the one operation that leaves it; the temporaries are numbered
in the order of the layout; and a phi begins its block and tells apart the two
blocks from which control comes to it, and there are no others.

All of it is read off the parts of a typed function. The least obvious is that
a phi knows its predecessors. A block that leads to the phi's block makes a
copy into the phi's temporary, and a copy is made for one phi only, so the
block is one of the two that the phi names. Conversely the copies that the phi
asks of these two are made, and a block that makes a copy leads to a block
that wants it.
-/

namespace SysY

open List

namespace IR

/-! ## Well-formed functions -/

/-- The blocks that an operation names. -/
def Op.labels : Op → List Label
  | phi _ fromA _ fromB => [fromA, fromB]
  | op => op.successors

/-- Control may go from one block to another. -/
def Function.Edge (f : Function) (p l : Label) : Prop :=
  ∃ b, f.blocks[p]? = some b ∧ ∃ i ∈ b.code, l ∈ i.op.successors

/-- The instructions in the order of the layout. -/
def Function.instrs (f : Function) : List Instr := f.layout.flatMap fun l => (f.code? l).getD []

/-- **A well-formed function.** -/
structure Function.WellFormed (f : Function) : Prop where
  /-- Every block is laid out, and once. -/
  layout : f.layout.Perm (List.range f.blocks.length)
  entry : f.layout.head? = some 0
  /-- A block ends with an operation that leaves it, and is not left before. -/
  ends : ∀ b ∈ f.blocks, ∃ init last, b.code = init ++ [last] ∧ last.op.isTerminator = true ∧
    ∀ i ∈ init, i.op.isTerminator = false
  /-- Every block that is named is there. -/
  labels : ∀ b ∈ f.blocks, ∀ i ∈ b.code, ∀ l ∈ i.op.labels, l < f.blocks.length
  /-- The results are the temporaries, in order. -/
  outputs : f.instrs.filterMap (·.output) = List.range f.temps
  /-- A phi comes first in its block, and names the blocks before it. -/
  phis : ∀ ⦃l b n i v fromA w fromB⦄, f.blocks[l]? = some b → b.code[n]? = some i →
    i.op = .phi v fromA w fromB →
    n = 0 ∧ fromA ≠ fromB ∧ ∀ p, f.Edge p l ↔ p = fromA ∨ p = fromB

/-! ## Typed functions -/

variable {sig : Signatures} {S S' : Known} {n n' : Nat} {is : List Instr} {p q : Part}

/-- Straight code neither leaves the block nor has a phi. -/
theorem Straight.plain (h : Straight sig S n is S' n') {i : Instr} (hi : i ∈ is) :
    i.op.isTerminator = false ∧ i.op.isPhi = false := by
  induction h with
  | nil => cases hi
  | define hstep _ ih | perform hstep _ ih =>
    rcases mem_cons.1 hi with rfl | hi
    · exact ⟨hstep.not_isTerminator, hstep.not_isPhi⟩
    · exact ih hi

/-- The instructions of a part: its phi at the front, its last one, and
others in between. -/
theorem Part.Permitted.code_cases (h : p.Permitted sig n n') {k : Nat} {i : Instr}
    (hi : p.code[k]? = some i) :
    (∃ φ, p.phi = some φ ∧ k = 0 ∧ i = φ.instr) ∨
      (i ∈ p.body ∧ i.op.isTerminator = false ∧ i.op.isPhi = false) ∨ i = ⟨none, p.last⟩ := by
  unfold Part.code Part.init at hi
  cases hφ : p.phi with
  | none =>
    rw [hφ] at hi
    have hmem : i ∈ p.body ∨ i = ⟨none, p.last⟩ := by simpa using mem_of_getElem? hi
    exact .inr (hmem.imp_left fun hb => ⟨hb, h.body.plain hb⟩)
  | some φ =>
    rw [hφ] at hi
    cases k with
    | zero =>
      cases hi
      exact .inl ⟨φ, rfl, rfl, rfl⟩
    | succ k =>
      have hmem : i ∈ p.body ∨ i = ⟨none, p.last⟩ := by
        have hi' : (p.body ++ [⟨none, p.last⟩])[k]? = some i := hi
        simpa using mem_of_getElem? hi'
      exact .inr (hmem.imp_left fun hb => ⟨hb, h.body.plain hb⟩)

namespace Function.Typed

variable {f : Function} {ps : List Part} (h : f.Typed sig ps)

include h

/-- A block of a typed function is one of its parts. -/
theorem exists_part {l : Label} {b : Block} (hb : f.blocks[l]? = some b) :
    ∃ p ∈ ps, p.label = l ∧ b.code = p.code := by
  have hlt : l < f.blocks.length := (List.getElem?_eq_some_iff.1 hb).1
  have hmem : l ∈ ps.map (·.label) := by
    rw [← h.layout, h.perm.mem_iff]
    exact mem_range.2 hlt
  obtain ⟨p, hp, rfl⟩ := mem_map.1 hmem
  refine ⟨p, hp, rfl, ?_⟩
  have hcode := h.code p hp
  unfold Function.code? at hcode
  rw [hb] at hcode
  exact Option.some.inj hcode

/-- Parts with the same label are the same. -/
theorem eq_of_label (hp : p ∈ ps) (hq : q ∈ ps) (hl : p.label = q.label) :
    p = q :=
  inj_on_of_nodup_map h.nodup hp hq hl

theorem label_lt (hp : p ∈ ps) : p.label < f.blocks.length :=
  mem_range.1 (h.perm.mem_iff.1 (h.layout ▸ mem_map_of_mem hp))

/-- Parts with phis for the same temporary are the same. -/
theorem eq_of_phi (hp : p ∈ ps) (hq : q ∈ ps) {φ ψ : Phi}
    (hφ : p.phi = some φ) (hψ : q.phi = some ψ) (hout : φ.output = ψ.output) : p = q := by
  refine h.eq_of_output hp hq (t := φ.output) ?_ ?_
  · simp [Part.code, Part.init, hφ, Phi.instr]
  · simp [Part.code, Part.init, hψ, Phi.instr, hout]

/-- Control may go from one part to another if the one's last operation says
so. -/
theorem edge_iff {l m : Label} :
    f.Edge m l ↔ ∃ p ∈ ps, p.label = m ∧ l ∈ p.last.successors := by
  constructor
  · rintro ⟨b, hb, i, hi, hl⟩
    obtain ⟨p, hp, rfl, hcode⟩ := h.exists_part hb
    obtain ⟨_, _, hpart⟩ := h.parts.permitted hp
    rw [hcode] at hi
    obtain ⟨k, hk⟩ := getElem?_of_mem hi
    refine ⟨p, hp, rfl, ?_⟩
    obtain ⟨φ, -, -, rfl⟩ | ⟨-, hterm, -⟩ | rfl := hpart.code_cases hk
    · cases hl
    · cases hop : i.op <;> rw [hop] at hl hterm <;> cases hl <;> cases hterm
    · exact hl
  · rintro ⟨p, hp, rfl, hl⟩
    obtain ⟨b, hb, hcode⟩ := Option.map_eq_some_iff.1 (h.code p hp)
    exact ⟨b, hb, ⟨none, p.last⟩, by simp [hcode, Part.code], hl⟩

/-- **A phi names the blocks from which control comes.** -/
theorem edge_phi_iff (hq : q ∈ ps) {φ : Phi} (hφ : q.phi = some φ)
    {l : Label} : f.Edge l q.label ↔ l = φ.fromA ∨ l = φ.fromB := by
  rw [h.edge_iff]
  constructor
  · rintro ⟨p, hp, rfl, hl⟩
    obtain ⟨q', hq', hlabel, hleads⟩ := h.leads p hp _ hl
    cases h.eq_of_label hq' hq hlabel
    obtain ⟨-, hleads⟩ := hleads
    rw [hφ] at hleads
    obtain ⟨v, hcopy, -⟩ := hleads
    obtain ⟨r, hr, ψ, hψ, hout, hfrom⟩ := h.exists_phi hp hcopy
    cases h.eq_of_phi hr hq hψ hφ hout
    cases hψ.symm.trans hφ
    exact hfrom.imp (·.1) (·.1)
  · intro hl
    -- the copy that the phi asks for is made, and leads to the phi
    obtain ⟨v, hasked⟩ : ∃ v, (l, Line.copy φ.output v) ∈ phiCopies ps := by
      have hinstr : φ.instr ∈ q.code := by simp [Part.code, Part.init, hφ]
      rcases hl with rfl | rfl
      · exact ⟨φ.a, mem_flatMap.2 ⟨q, hq, mem_flatMap.2 ⟨_, hinstr, by simp [Phi.instr,
          Instr.copies]⟩⟩⟩
      · exact ⟨φ.b, mem_flatMap.2 ⟨q, hq, mem_flatMap.2 ⟨_, hinstr, by simp [Phi.instr,
          Instr.copies]⟩⟩⟩
    obtain ⟨p, hp, hmade⟩ := mem_flatMap.1 (h.copies.mem_iff.1 hasked)
    obtain ⟨rfl, hcopy⟩ : p.label = l ∧ p.copy = some (φ.output, v) := by
      simpa [Part.copyLines, and_comm] using hmade
    obtain ⟨r, hr, ψ, hψ, hout, hleads⟩ := h.serves p hp _ _ hcopy
    cases h.eq_of_phi hr hq hψ hφ hout
    exact ⟨p, hp, rfl, hleads⟩

theorem instrs_eq : f.instrs = ps.flatMap (·.code) := by
  rw [Function.instrs, h.layout, flatMap_map]
  exact flatMap_congr fun p hp => by rw [h.code p hp]; rfl

/-- **A typed function is well formed.** -/
theorem wellFormed : f.WellFormed where
  layout := h.perm
  entry := by
    obtain ⟨p, hp, hlabel, -⟩ := h.first
    rw [h.layout, head?_map, hp, Option.map_some, hlabel]
  ends := by
    intro b hb
    obtain ⟨l, hl⟩ := getElem?_of_mem hb
    obtain ⟨p, hp, rfl, hcode⟩ := h.exists_part hl
    obtain ⟨_, _, hpart⟩ := h.parts.permitted hp
    refine ⟨p.init, ⟨none, p.last⟩, hcode, hpart.last.isTerminator, fun i hi => ?_⟩
    rcases mem_append.1 hi with hi | hi
    · obtain ⟨φ, -, rfl⟩ := mem_map.1 hi
      rfl
    · exact (hpart.body.plain hi).1
  labels := by
    intro b hb i hi l hl
    obtain ⟨m, hm⟩ := getElem?_of_mem hb
    have hedge : ∀ l m, f.Edge m l → l < f.blocks.length ∧ m < f.blocks.length := by
      intro l m hedge
      obtain ⟨p, hp, rfl, hl⟩ := h.edge_iff.1 hedge
      obtain ⟨q, hq, rfl, -⟩ := h.leads p hp l hl
      exact ⟨h.label_lt hq, h.label_lt hp⟩
    obtain ⟨p, hp, rfl, hcode⟩ := h.exists_part hm
    obtain ⟨_, _, hpart⟩ := h.parts.permitted hp
    obtain ⟨k, hk⟩ := getElem?_of_mem (hcode ▸ hi)
    obtain ⟨φ, hφ, -, rfl⟩ | hplain := hpart.code_cases hk
    · have hl' : l = φ.fromA ∨ l = φ.fromB := by simpa [Phi.instr, Op.labels] using hl
      exact (hedge _ _ ((h.edge_phi_iff hp hφ).2 hl')).2
    · have hphi : i.op.isPhi = false := by
        obtain ⟨-, -, hphi⟩ | rfl := hplain
        · exact hphi
        · exact hpart.last.not_isPhi
      have hl' : l ∈ i.op.successors := by
        cases hop : i.op <;> rw [hop] at hl hphi <;> first | exact hl | cases hphi
      exact (hedge _ _ ⟨b, hm, i, hi, hl'⟩).1
  outputs := by rw [h.instrs_eq, h.outputs]
  phis := by
    intro l b k i v fromA w fromB hb hi hop
    obtain ⟨q, hq, rfl, hcode⟩ := h.exists_part hb
    obtain ⟨_, _, hpart⟩ := h.parts.permitted hq
    obtain ⟨φ, hφ, rfl, rfl⟩ | ⟨-, -, hphi⟩ | rfl := hpart.code_cases (hcode ▸ hi)
    · cases hop
      exact ⟨rfl, (hpart.phi φ hφ).2.1, fun p => h.edge_phi_iff hq hφ⟩
    · rw [hop] at hphi
      cases hphi
    · have hphi := hpart.last.not_isPhi
      rw [show q.last = _ from hop] at hphi
      cases hphi

end Function.Typed

end IR

/-- **Lowered functions are well formed**, whether the program is accepted or
not. -/
theorem Program.lower_wellFormed {p : Program} {m : IR.Module} (h : p.lower.result = .ok m) :
    ∀ f ∈ m.functions, f.WellFormed := by
  intro f hf
  obtain ⟨_, _, htyped⟩ := Program.lower_typed h hf
  exact htyped.wellFormed

theorem Program.lower_wellFormed_sample :
    ∃ m f, Source.Sample.program.lower.result = .ok m ∧ f ∈ m.functions ∧
      f.layout = [0, 1, 4, 5, 2, 7, 9, 8, 6, 3, 10] ∧ f.WellFormed := by
  obtain ⟨m, f, hm, hf, hlayout⟩ := Source.Sample.head_lowers (p := Source.Sample.program)
    (fun f => f.layout = [0, 1, 4, 5, 2, 7, 9, 8, 6, 3, 10]) (by decide +kernel)
  exact ⟨m, f, hm, hf, hlayout, Program.lower_wellFormed hm f hf⟩

end SysY
