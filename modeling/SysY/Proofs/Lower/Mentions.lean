import SysY.Proofs.Roles.Program

/-!
# The names that code mentions

Code mentions a global variable where it takes its address, and a function
where it calls it. All of these are names that the program declares before:
the addresses come from the symbols of the variables in scope, and a call is
lowered only if the function is known. So every name that a lowered function
mentions is among those of the module (`Program.lower_mentions`), and this
holds whether the program is accepted or not.
-/

namespace SysY

namespace IR

variable {known : String → Prop}

/-- A value is no global variable, or one of these. -/
def Value.Among (known : String → Prop) (v : Value) : Prop := ∀ name, v = .global name → known name

/-- The function that is called. -/
def Op.callee? : Op → Option String
  | call callee _ => some callee
  | _ => none

/-- **All names that an operation mentions are among these.** -/
structure Op.Among (known : String → Prop) (op : Op) : Prop where
  /-- The global variables that are read. -/
  operands : ∀ v ∈ op.operands, v.Among known
  /-- The function that is called. -/
  callee : ∀ name ∈ op.callee?, known name

/-- The same of all instructions. -/
def Among (known : String → Prop) (is : List Instr) : Prop := ∀ i ∈ is, i.op.Among known

end IR

namespace Lower

open IR (Value Op Instr)

variable {known : String → Prop}

/-- The reading in which every value has every role, unless it is a global
variable with another name. -/
def Reading.names (known : String → Prop) : Reading (.unchecked known) where
  has _ v := v.Among known
  there _ := True
  const _ := fun _ h => by cases h
  result _ _ _ _ _ := fun _ h => by cases h
  same _ _ := Iff.rfl

/-- An operation that uses values so mentions nothing else. -/
theorem Uses.among {op : Op} {r : Option Role}
    (h : Uses (Reading.names known).has (Policy.unchecked known).takes op r) : op.Among known where
  operands := by
    intro v hv
    rcases Op.mem_operands.1 hv with hv | hv
    · exact (h.inputs v hv).elim id id
    · obtain ⟨_, hv⟩ := h.place hv
      exact hv
  callee := by
    intro name hname
    cases h with
    | call hf =>
      cases hname
      exact hf
    | _ => cases hname

end Lower

open Lower in
/-- **What the functions of a lowered program mention is declared.** -/
theorem Program.lower_mentions {p : Program} {m : IR.Module} (h : p.lower.result = .ok m) :
    ∀ f ∈ m.functions, ∀ b ∈ f.blocks, IR.Among (· ∈ p.names) b.code := by
  have hgiven := Program.lower_given (P := .unchecked (· ∈ p.names)) (p := p)
    (fun _ _ => .names (· ∈ p.names)) ⟨False.elim, fun _ _ => trivial⟩
    (fun d hd => ⟨False.elim, fun _ _ => List.mem_flatMap.2 ⟨_, hd, List.mem_singleton_self _⟩⟩)
    (fun _ _ name hname => ⟨by rintro _ ⟨⟩; exact hname, by rintro _ ⟨⟩; exact hname⟩)
    (fun _ _ _ _ _ => by rintro _ ⟨⟩)
  rw [h] at hgiven
  intro f hf b hb i hi
  obtain ⟨d, -, rest, σ, rfl, hgiven⟩ := hgiven f hf
  rcases mem_functionOf hb hi with hi | hi
  · obtain ⟨j, -, -, rfl | rfl⟩ := mem_parameterCode.1 hi
    · exact ⟨by simp [IR.Op.operands], by rintro _ ⟨⟩⟩
    · exact ⟨by simp [IR.Op.operands, IR.Value.Among], by rintro _ ⟨⟩⟩
  · obtain ⟨r, hr, -⟩ := (hgiven trivial fun _ _ => trivial).1 i hi
    exact hr.among

end SysY
