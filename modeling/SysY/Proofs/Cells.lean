import SysY.Proofs.Roles.Program

/-!
# The words of variables, and arguments

`alloca` makes room for one word, and the word is all that its result stands
for: code loads from it and stores to it, and does nothing else with it. An
argument of a function is read once, where the function begins and stores it
into the word of its parameter. Whoever turns the code into that of a machine
may take both for granted: words need no address, and arguments may stay where
the caller has left them until they are stored.

This holds of whatever is lowered (`Program.lower_cells`), also where an array
stands for an integer or an integer for an array, since these are told apart
from the words of variables all the same.
-/

namespace SysY

open List

namespace Lower

open IR (Value Op Instr)

/-- A value that may be read by any operation: it is no argument, and not the
result of `alloca` in these instructions. -/
def Plain (is : List Instr) : Value → Prop
  | .const _ | .global _ => True
  | .arg _ => False
  | .temp t => ∃ op, op ≠ .alloca ∧ ⟨some t, op⟩ ∈ is

/-- The reading in which integers and arrays are plain, and places are no
arguments. -/
def Reading.cells (is : List Instr) : Reading (.unchecked fun _ => True) where
  has
    | .int, v | .array, v => Plain is v
    | .cell, v | .slot, v => ∀ j, v ≠ .arg j
  there i := i ∈ is
  const _ := trivial
  result t op r hi huses := by
    cases huses with
    | alloca => exact fun _ => by rintro ⟨⟩
    | call _ _ hresult =>
      cases hresult r rfl
      exact ⟨_, by rintro ⟨⟩, hi⟩
    | _ => exact ⟨_, by rintro ⟨⟩, hi⟩
  same _ _ := Iff.rfl

variable {is : List Instr} {op : Op} {r : Option Role}

theorem Uses.plain (h : Uses (Reading.cells is).has (Policy.unchecked fun _ => True).takes op r) :
    ∀ v ∈ op.inputs, Plain is v := fun v hv => (h.inputs v hv).elim id id

/-- After the arguments are stored, no operation reads one. -/
theorem Uses.arg_not_mem
    (h : Uses (Reading.cells is).has (Policy.unchecked fun _ => True).takes op r) (j : Nat) :
    .arg j ∉ op.operands := by
  intro hv
  rcases Op.mem_operands.1 hv with hv | hv
  · exact h.plain _ hv
  · obtain ⟨role, hv⟩ := h.place hv
    cases role with
    | int | array => exact hv
    | cell | slot => exact hv j rfl

/-- Each argument is stored once. -/
theorem count_parameterCode (n k j : Nat) :
    ((parameterCode n k).flatMap (·.op.operands)).count (.arg j) =
      if n ≤ j ∧ j < n + k then 1 else 0 := by
  induction k generalizing n with
  | zero => exact (if_neg (by omega)).symm
  | succ k ih =>
    have hcons : (parameterCode n (k + 1)).flatMap (·.op.operands) =
        .arg n :: .temp n :: (parameterCode (n + 1) k).flatMap (·.op.operands) := rfl
    rw [hcons, count_cons, count_cons, ih]
    by_cases hn : n = j
    · subst hn
      have hpast : ¬ (n + 1 ≤ n ∧ n < n + 1 + k) := by omega
      have hfirst : n ≤ n ∧ n < n + (k + 1) := by omega
      rw [if_neg hpast, if_pos hfirst]
      simp
    · have hiff : (n + 1 ≤ j ∧ j < n + 1 + k) ↔ n ≤ j ∧ j < n + (k + 1) := by omega
      rw [if_congr hiff rfl rfl]
      simp [hn]

end Lower

namespace IR

/-- The order of the layout does not matter to what instructions there are. -/
theorem Function.WellFormed.instrs_perm {f : Function} (h : f.WellFormed) :
    f.instrs.Perm (f.blocks.flatMap (·.code)) := by
  have hall : (List.range f.blocks.length).flatMap (fun l => (f.code? l).getD []) =
      f.blocks.flatMap (·.code) := by
    rw [flatMap_def, flatMap_def]
    refine congrArg List.flatten (ext_getElem (by simp) fun l hl _ => ?_)
    rw [length_map, length_range] at hl
    simp [Function.code?, hl]
  exact hall ▸ h.layout.flatMap_right _

/-- A temporary is the result of one instruction. -/
theorem Function.WellFormed.eq_of_output {f : Function} (h : f.WellFormed) {i i' : Instr} {t : Temp}
    (hi : i ∈ f.instrs) (hi' : i' ∈ f.instrs) (ht : i.output = some t) (ht' : i'.output = some t) :
    i = i' := by
  have hnodup : (f.instrs.filterMap (·.output)).Nodup := h.outputs ▸ nodup_range
  have hsymm : Std.Symm fun i i' : Instr =>
      ∀ t, i.output = some t → ∀ t', i'.output = some t' → t ≠ t' :=
    ⟨fun _ _ hne t ht t' ht' => (hne t' ht' t ht).symm⟩
  by_contra hne
  have hpairs := pairwise_filterMap.1 hnodup
  exact hpairs.forall hi hi' hne t ht t ht' rfl

end IR

namespace Lower

variable {d : FunctionDef} {rest : Code} {σ : Supply}

/-- A function begins with storing its arguments. -/
theorem functionOf_entry (h : (functionOf d rest σ).WellFormed) :
    ∃ entry, (functionOf d rest σ).blocks[0]? = some entry ∧
      entry.code = parameterCode 0 d.params.length ++ rest.head := by
  have hpos := mem_range.1 (h.layout.mem_iff.1 (mem_of_head? h.entry))
  refine ⟨_, getElem?_eq_getElem hpos, ?_⟩
  simp [functionOf, codeOf, Code.blocks, Code.blockAt]

end Lower

/-- **The words of variables are only loaded from and stored to, and each
argument is read once**, when it is stored into the word of its parameter. The
function begins with that. -/
theorem Program.lower_cells {p : Program} {m : IR.Module} (h : p.lower.result = .ok m)
    {f : IR.Function} (hf : f ∈ m.functions) :
    (∀ t, ⟨some t, .alloca⟩ ∈ f.blocks.flatMap (·.code) →
      ∀ i ∈ f.blocks.flatMap (·.code), .temp t ∉ i.op.inputs) ∧
    (∃ entry after, f.layout.head? = some 0 ∧ f.blocks[0]? = some entry ∧
      entry.code = (List.range f.params).flatMap
        (fun j => [⟨some j, .alloca⟩, ⟨none, .store (.arg j) (.temp j)⟩]) ++ after) ∧
    ∀ j, ((f.blocks.flatMap (·.code)).flatMap (·.op.operands)).count (.arg j) =
      if j < f.params then 1 else 0 := by
  have hgiven := Program.lower_given (P := .unchecked fun _ => True) (p := p)
    (fun _ is => .cells is) ⟨False.elim, fun _ _ => trivial⟩
    (fun _ _ => ⟨False.elim, fun _ _ => trivial⟩) (fun _ _ _ _ => ⟨by rintro _ ⟨⟩, trivial⟩)
    (fun d is j q _ => by unfold Lower.Role.ofParameter; split <;> rintro _ ⟨⟩)
  rw [h] at hgiven
  obtain ⟨d, -, rest, σ, rfl, hgiven⟩ := hgiven f hf
  obtain ⟨_, _, htyped⟩ := Program.lower_typed h hf
  have hwf := htyped.wellFormed
  have hperm := hwf.instrs_perm
  have hfits : ∀ i ∈ rest.instrs, (Lower.Reading.cells rest.instrs).Fits i :=
    (hgiven trivial fun _ hi => hi).1
  have hinstrs := Lower.functionOf_instrs hwf
  obtain ⟨entry, hentry, hcode⟩ := Lower.functionOf_entry hwf
  refine ⟨fun t ht i hi hread => ?_, ⟨entry, rest.head, hwf.entry, hentry, ?_⟩, fun j => ?_⟩
  · rw [← hperm.mem_iff] at ht hi
    rw [hinstrs, List.mem_append] at hi
    rcases hi with hi | hi
    · obtain ⟨j, -, -, rfl | rfl⟩ := Lower.mem_parameterCode.1 hi <;>
        simp [IR.Op.inputs, IR.Op.operands] at hread
    · -- what is read is the result of something else, and of one instruction only
      obtain ⟨_, huses, -⟩ := hfits i hi
      obtain ⟨op, hop, hdef⟩ := huses.plain _ hread
      have hsame := hwf.eq_of_output ht (hinstrs ▸ List.mem_append_right _ hdef) rfl rfl
      exact hop (congrArg IR.Instr.op hsame).symm
  · rw [hcode, List.range_eq_range']
    rfl
  · have hnone : (rest.instrs.flatMap (·.op.operands)).count (.arg j) = 0 := by
      refine List.count_eq_zero.2 fun hj => ?_
      obtain ⟨i, hi, hj⟩ := List.mem_flatMap.1 hj
      obtain ⟨_, huses, -⟩ := hfits i hi
      exact huses.arg_not_mem j hj
    rw [← (hperm.flatMap_right _).count_eq, hinstrs, List.flatMap_append, List.count_append, hnone,
      Lower.count_parameterCode, Nat.add_zero]
    exact if_congr (by simp [Lower.functionOf]) rfl rfl

theorem Program.lower_cells_sum :
    ∃ m f, Source.Sample.program.lower.result = .ok m ∧ f ∈ m.functions ∧ f.params = 2 ∧
      ((f.blocks.flatMap (·.code)).flatMap (·.op.operands)).count (.arg 1) = 1 ∧
      ⟨some 2, .alloca⟩ ∈ f.blocks.flatMap (·.code) ∧
      ∀ i ∈ f.blocks.flatMap (·.code), .temp 2 ∉ i.op.inputs := by
  obtain ⟨m, f, hm, hf, hparams, hlocal⟩ := Source.Sample.head_lowers (p := Source.Sample.program)
    (fun f => f.params = 2 ∧ ⟨some 2, .alloca⟩ ∈ f.blocks.flatMap (·.code)) (by decide +kernel)
  obtain ⟨hcells, -, hargs⟩ := Program.lower_cells hm hf
  refine ⟨m, f, hm, hf, hparams, ?_, hlocal, hcells 2 hlocal⟩
  rw [hargs 1, hparams]
  rfl

end SysY
