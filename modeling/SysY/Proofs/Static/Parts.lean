import Mathlib.Data.List.Nodup
import Mathlib.Data.List.Pairwise
import SysY.Proofs.Machine
import SysY.Proofs.Static.Known

/-!
# Functions whose blocks know what they read

A function is *typed* by a list of parts, one for each block in the order of
the layout. A part says what is known where its block begins and where it
ends, and which copy into the temporary of a phi is made at its end. The
temporaries are numbered from one part to the next, and a jump leads to a part
that asks for no more than is known where the jump stands.

The flattened function then has the lines of the parts (`Typed.flatten`): the
copies that flattening collects for a block are the one copy of its part.
-/

namespace SysY.IR

open List

/-! ## Parts -/

structure Phi where
  output : Temp
  a : Value
  /-- The block after which it is taken. -/
  fromA : Label
  b : Value
  /-- The block after which it is taken. -/
  fromB : Label

/-- A phi as an instruction. -/
def Phi.instr (φ : Phi) : Instr := ⟨some φ.output, .phi φ.a φ.fromA φ.b φ.fromB⟩

/-- A block with what is known in it. -/
structure Part where
  label : Label
  /-- The phi with which it begins, if it begins with one. -/
  phi : Option Phi
  /-- What is known where it begins. -/
  entry : Known
  /-- The instructions between the phi and the last one. -/
  body : List Instr
  /-- What is known after them. -/
  known : Known
  /-- The copy into a phi's temporary that is made then. -/
  copy : Option (Temp × Value)
  /-- The operation that ends the block. -/
  last : Op

namespace Part

/-- The instructions but the last. -/
def init (p : Part) : List Instr := p.phi.toList.map (·.instr) ++ p.body

def code (p : Part) : List Instr := p.init ++ [⟨none, p.last⟩]

/-- The copy as a line, if there is one. -/
def copyLines (p : Part) : List Line := p.copy.toList.map fun (t, v) => .copy t v

def lines (p : Part) : List Line :=
  p.init.map .instr ++ p.copyLines ++ [.instr ⟨none, p.last⟩]

def flat (p : Part) : FlatBlock := ⟨p.label, p.lines⟩

/-- Control may go on at `q` after `p`: there is enough known. -/
def Leads (p q : Part) : Prop :=
  q.entry.args = false ∧
    match q.phi with
    | none => Known.Sub q.entry p.known
    | some φ => ∃ v, p.copy = some (φ.output, v) ∧ Known.Sub q.entry (p.known.add φ.output .data)

/-- **A part is permitted**: it begins where `n` temporaries have been handed
out, and ends where `n'` have. -/
structure Permitted (sig : Signatures) (n : Nat) (p : Part) (n' : Nat) : Prop where
  /-- The phi has the next temporary, which is known. -/
  phi : ∀ φ, p.phi = some φ →
    φ.output = n ∧ φ.fromA ≠ φ.fromB ∧ p.entry.kinds n = some .data
  /-- Only what has been handed out is known. -/
  below : p.entry.Below (n + p.phi.toList.length)
  /-- The instructions are permitted. -/
  body : Straight sig p.entry (n + p.phi.toList.length) p.body p.known n'
  /-- What is copied is a known temporary, and the copy is the first assignment. -/
  copy : ∀ t v, p.copy = some (t, v) → v.Held p.known ∧ n' ≤ t
  /-- The last operation reads what is known. -/
  last : p.last.Ends p.known

end Part

/-- **Parts one after the other.** The copy before a block that begins with a
phi is one for the phi. -/
inductive Parts (sig : Signatures) : Nat → List Part → Nat → Prop
  | last {n p n'} : p.Permitted sig n n' → Parts sig n [p] n'
  | cons {n p n1 q ps n'} : p.Permitted sig n n1 →
    (∀ φ, q.phi = some φ → ∃ v, p.copy = some (φ.output, v)) → Parts sig n1 (q :: ps) n' →
    Parts sig n (p :: q :: ps) n'

/-- The copies that phis ask for. -/
def phiCopies (ps : List Part) : List (Label × Line) := ps.flatMap fun p => p.code.flatMap (·.copies)

/-- The copies that are made. -/
def partCopies (ps : List Part) : List (Label × Line) :=
  ps.flatMap fun p => p.copyLines.map (p.label, ·)

/-- **A typed function.** -/
structure Function.Typed (sig : Signatures) (f : Function) (ps : List Part) : Prop where
  /-- There is a part for each block that is laid out. -/
  layout : f.layout = ps.map (·.label)
  /-- Every block is laid out, and once. -/
  perm : f.layout.Perm (List.range f.blocks.length)
  code : ∀ p ∈ ps, f.code? p.label = some p.code
  parts : Parts sig 0 ps f.temps
  /-- Every jump leads to a block that can be jumped to. -/
  leads : ∀ p ∈ ps, ∀ l ∈ p.last.successors, ∃ q ∈ ps, q.label = l ∧ p.Leads q
  /-- The copies that phis ask for are made. -/
  copies : (phiCopies ps).Perm (partCopies ps)
  /-- Every copy is made for a phi that control may reach next. -/
  serves : ∀ p ∈ ps, ∀ t v, p.copy = some (t, v) →
    ∃ q ∈ ps, ∃ φ, q.phi = some φ ∧ φ.output = t ∧ q.label ∈ p.last.successors
  /-- Nothing is known at the start but the arguments. -/
  first : ∃ p, ps.head? = some p ∧ p.label = 0 ∧ p.entry = .start ∧ p.phi = none

variable {f : Function} {ps : List Part} {sig : Signatures} {n n' : Nat} {p : Part}

/-- No two parts have the same label. -/
theorem Function.Typed.nodup (h : f.Typed sig ps) : (ps.map (·.label)).Nodup :=
  h.layout ▸ h.perm.nodup_iff.2 nodup_range

/-! ## Numbers -/

theorem Straight.outputs {S S' : Known} {is : List Instr}
    (h : Straight sig S n is S' n') : is.filterMap (·.output) = range' n (n' - n) := by
  induction h with
  | nil => simp
  | @define S n op S1 is S' n' _ hrest ih =>
    have hle := hrest.le
    have hlen : n' - n = (n' - (n + 1)) + 1 := by omega
    rw [hlen, range'_succ, ← ih]
    rfl
  | perform _ _ ih => exact ih

theorem Part.Permitted.le (h : p.Permitted sig n n') : n + p.phi.toList.length ≤ n' :=
  h.body.le

theorem Part.Permitted.outputs
    (h : p.Permitted sig n n') : p.code.filterMap (·.output) = range' n (n' - n) := by
  have hle := h.le
  rw [Part.code, Part.init, filterMap_append, filterMap_append, h.body.outputs,
    filterMap_cons_none rfl, filterMap_nil, append_nil]
  cases hφ : p.phi with
  | none => simp
  | some φ =>
    rw [hφ] at hle
    obtain ⟨rfl, -, -⟩ := h.phi φ hφ
    have hlen : n' - φ.output = 1 + (n' - (φ.output + 1)) := by
      simp only [Option.toList_some, length_singleton] at hle
      omega
    rw [hlen, ← range'_append_1]
    rfl

theorem Parts.le (h : Parts sig n ps n') : n ≤ n' := by
  induction h with
  | last hp | cons hp _ _ ih =>
    have := hp.le
    omega

theorem Parts.outputs (h : Parts sig n ps n') :
    (ps.flatMap (·.code)).filterMap (·.output) = range' n (n' - n) := by
  induction h with
  | last hp => simpa using hp.outputs
  | @cons n p n1 q ps n' hp _ hrest ih =>
    have hle := hp.le
    have hle' := hrest.le
    rw [flatMap_cons, filterMap_append, hp.outputs, ih,
      show n' - n = (n1 - n) + (n' - n1) by omega, ← range'_append_1]
    congr 2
    omega

/-- **The results of a function are numbered in order.** -/
theorem Function.Typed.outputs
    (h : f.Typed sig ps) : (ps.flatMap (·.code)).filterMap (·.output) = List.range f.temps := by
  rw [h.parts.outputs, range_eq_range', Nat.sub_zero]

/-- A temporary is the result of one part only. -/
theorem Function.Typed.eq_of_output
    (h : f.Typed sig ps) {q : Part} (hp : p ∈ ps) (hq : q ∈ ps) {t : Temp}
    (htp : t ∈ p.code.filterMap (·.output)) (htq : t ∈ q.code.filterMap (·.output)) : p = q := by
  have hnodup : (ps.flatMap fun p => p.code.filterMap (·.output)).Nodup := by
    rw [← filterMap_flatMap, h.outputs]
    exact nodup_range
  have : Std.Symm (Function.onFun Disjoint fun p : Part => p.code.filterMap (·.output)) :=
    ⟨fun _ _ hd _ ha hb => hd hb ha⟩
  by_contra hne
  exact (nodup_flatMap.1 hnodup).2.forall hp hq hne htp htq

/-! ## Flattening -/

theorem Op.Ends.isTerminator {S : Known} {op : Op} (h : op.Ends S) : op.isTerminator = true := by
  cases op with
  | jump | branch | ret | retVoid => rfl
  | _ => cases h

theorem Parts.permitted (h : Parts sig n ps n') (hp : p ∈ ps) : ∃ k k', p.Permitted sig k k' := by
  induction h with
  | last hpart =>
    cases mem_singleton.1 hp
    exact ⟨_, _, hpart⟩
  | cons hpart _ _ ih =>
    rcases mem_cons.1 hp with rfl | hp
    · exact ⟨_, _, hpart⟩
    · exact ih hp

/-- The copies for the block of a part are the part's. -/
theorem filter_partCopies (hnodup : (ps.map (·.label)).Nodup) (hp : p ∈ ps) :
    (partCopies ps).filter (fun c => decide (c.1 = p.label)) = p.copyLines.map (p.label, ·) := by
  induction ps with
  | nil => cases hp
  | cons q ps ih =>
    rw [map_cons, nodup_cons] at hnodup
    have hother : ∀ q1 q2 : Part, q1.label ≠ q2.label →
        (q1.copyLines.map (q1.label, ·)).filter (fun c => decide (c.1 = q2.label)) = [] := by
      intro q1 q2 hne
      rw [filter_eq_nil_iff]
      rintro c hc
      obtain ⟨line, -, rfl⟩ := mem_map.1 hc
      simpa using hne
    show (q.copyLines.map (q.label, ·) ++ partCopies ps).filter _ = _
    rw [filter_append]
    rcases mem_cons.1 hp with rfl | hp
    · have hrest : (partCopies ps).filter (fun c => decide (c.1 = p.label)) = [] := by
        rw [partCopies, filter_flatMap, flatMap_eq_nil_iff]
        intro q hq
        refine hother q p fun heq => hnodup.1 ?_
        exact heq ▸ mem_map_of_mem hq
      rw [hrest, append_nil, filter_eq_self]
      intro c hc
      obtain ⟨line, -, rfl⟩ := mem_map.1 hc
      simp
    · rw [hother q p fun heq => hnodup.1 (heq ▸ mem_map_of_mem hp), nil_append,
        ih hnodup.2 hp]

theorem copyLines_of_perm {cs : List (Label × Line)}
    (h : cs.Perm (p.copyLines.map (p.label, ·))) : cs.map (·.2) = p.copyLines := by
  unfold Part.copyLines at *
  cases hcopy : p.copy with
  | none =>
    rw [hcopy] at h
    rw [perm_nil.1 h]
    rfl
  | some c =>
    rw [hcopy] at h
    rw [perm_singleton.1 h]
    rfl

/-- The lines of a block that has the instructions of a part. -/
theorem Block.lines_of_part {b : Block} (h : b.code = p.code)
    (hlast : p.last.isTerminator = true) (copies : List Line) :
    b.lines copies = p.init.map .instr ++ copies ++ [.instr ⟨none, p.last⟩] := by
  have hterm : b.terminator? = some ⟨none, p.last⟩ := by
    unfold Block.terminator?
    rw [h, Part.code, getLast?_concat]
    exact if_pos hlast
  unfold Block.lines
  rw [hterm, h, Part.code]
  dsimp only
  rw [dropLast_concat]

theorem mapM_eq_ok {ε α β : Type} {f : α → Except ε β} {g : α → β} {l : List α}
    (h : ∀ a ∈ l, f a = .ok (g a)) : l.mapM f = .ok (l.map g) := by
  induction l with
  | nil => rfl
  | cons a l ih =>
    rw [mapM_cons, h a mem_cons_self, ih fun b hb => h b (mem_cons_of_mem _ hb)]
    rfl

theorem mapM_block (h : ∀ p ∈ ps, f.code? p.label = some p.code) :
    ∃ b : Part → Block, (∀ p ∈ ps, (b p).code = p.code) ∧
      (ps.map (·.label)).mapM (fun l => do return (l, ← f.block l))
        = Except.ok (ps.map fun p => (p.label, b p)) := by
  have hblock : ∀ p ∈ ps, ∃ b, f.blocks[p.label]? = some b ∧ b.code = p.code :=
    fun p hp => Option.map_eq_some_iff.1 (h p hp)
  refine ⟨fun p => (f.blocks[p.label]?).getD ⟨"", []⟩, fun p hp => ?_, ?_⟩
  · obtain ⟨b, hb, hcode⟩ := hblock p hp
    simpa only [hb, Option.getD_some] using hcode
  · rw [mapM_eq_ok (g := fun l => (l, (f.blocks[l]?).getD ⟨"", []⟩)), map_map]
    · rfl
    · intro l hl
      obtain ⟨p, hp, rfl⟩ := mem_map.1 hl
      obtain ⟨b, hb, -⟩ := hblock p hp
      simp only [Function.block, hb]
      rfl

/-- **The flattened function has the lines of the parts.** -/
theorem Function.Typed.flatten (h : f.Typed sig ps) : f.flatten = .ok ⟨ps.map (·.flat)⟩ := by
  obtain ⟨b, hcode, hblocks⟩ := mapM_block h.code
  have hasked : ((ps.map fun p => (p.label, b p)).flatMap fun c => c.2.code.flatMap (·.copies))
      = phiCopies ps := by
    rw [flatMap_map, phiCopies]
    exact flatMap_congr fun p hp => by rw [hcode p hp]
  unfold Function.flatten
  rw [h.layout, hblocks]
  show Except.ok (Flat.mk (List.map (fun c : Label × Block => ⟨c.1, c.2.lines _⟩) _)) = _
  rw [hasked, map_map]
  refine congrArg (fun bs => Except.ok (Flat.mk bs)) (map_congr_left fun p hp => ?_)
  obtain ⟨_, _, hpart⟩ := h.parts.permitted hp
  have hperm := h.copies.filter (fun c => decide (c.1 = p.label))
  rw [filter_partCopies h.nodup hp] at hperm
  show FlatBlock.mk p.label ((b p).lines _) = p.flat
  rw [Block.lines_of_part (hcode p hp) hpart.last.isTerminator, copyLines_of_perm hperm]
  rfl

end SysY.IR
