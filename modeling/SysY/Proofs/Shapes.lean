import SysY.Proofs.Roles.Program
import SysY.Proofs.Source

/-!
# Integers and addresses

Every temporary of a lowered function is an integer or an address, and
instructions use it as what it is: there is no arithmetic on addresses, nothing
is loaded from an integer, and a word of memory holds an integer. The one
exception is the cell of an array parameter, which holds an address. This is
the reading of roles as shapes, where the shape of a temporary is that of the
result of its instruction.

That the program is accepted is not enough for this. The judgement admits an
array as a subscript, as an item of a list, as the initial value of an array
and as a value to be assigned, and the lowering takes each of these for an
integer. So it is asked that no array stands at such a place (`Site.scalar`).
The second is not implied by the first: an accepted program may use an array as
a subscript, and then an address is scaled and added as if it were a number.
-/

namespace SysY

open List

namespace IR

/-! ## Shapes -/

/-- What a value is. -/
inductive Shape where
  | int
  /-- The address of a word that holds an integer. -/
  | address
  /-- The address of the cell of an array parameter, which holds an address. -/
  | slot
deriving DecidableEq, Repr

/-- The shape of a parameter, which may be an array. -/
def Shape.ofParameter (isArray : Bool) : Shape := if isArray then address else int

/-- Which parameters are arrays: those of a function itself, and those of the
functions that there are. -/
structure Interface where
  own : List Bool
  /-- Those of the functions, by name. -/
  takes : String → Option (List Bool)

variable (face : Interface) (ks : List Shape)

/-- The shape of a value, given those of the temporaries. -/
def Value.shape : Value → Option Shape
  | const _ => some .int
  | global _ => some .address
  | arg i => (face.own[i]?).map .ofParameter
  | temp t => ks[t]?

/-- **What shapes an operation needs**, and the shape of its result if it has
one. -/
inductive Shaped : Op → Option Shape → Prop
  | alloca : Shaped .alloca (some .address)
  | allocaSlot : Shaped .alloca (some .slot)
  | array {n} : Shaped (.array n) (some .address)
  | load {a} : a.shape face ks = some .address → Shaped (.load a) (some .int)
  | loadSlot {a} : a.shape face ks = some .slot → Shaped (.load a) (some .address)
  | store {v a} : v.shape face ks = some .int → a.shape face ks = some .address →
    Shaped (.store v a) none
  | storeSlot {i a} : face.own[i]? = some true → a.shape face ks = some .slot →
    Shaped (.store (.arg i) a) none
  | binary {op a b} : a.shape face ks = some .int → b.shape face ks = some .int →
    Shaped (.binary op a b) (some .int)
  | compare {op a b} : a.shape face ks = some .int → b.shape face ks = some .int →
    Shaped (.compare op a b) (some .int)
  | zext {v} : v.shape face ks = some .int → Shaped (.zext v) (some .int)
  | phi {a la b lb} : a.shape face ks = some .int → b.shape face ks = some .int →
    Shaped (.phi a la b lb) (some .int)
  | element {b o} : b.shape face ks = some .address → o.shape face ks = some .int →
    Shaped (.element b o) (some .address)
  | jump {l} : Shaped (.jump l) none
  | branch {v yes no} : v.shape face ks = some .int → Shaped (.branch v yes no) none
  | call {f vs arrays result} : face.takes f = some arrays →
    vs.map (·.shape face ks) = arrays.map (some <| .ofParameter ·) →
    (∀ k ∈ result, k = .int) → Shaped (.call f vs) result
  | ret {v} : v.shape face ks = some .int → Shaped (.ret v) none
  | retVoid : Shaped .retVoid none

/-- **The temporaries of a function have shapes** for which every instruction
is in order. -/
def Function.Shaped (f : Function) : Prop :=
  ∃ ks : List Shape, ks.length = f.temps ∧
    ∀ b ∈ f.blocks, ∀ i ∈ b.code, IR.Shaped face ks i.op (i.output.bind (ks[·]?))

/-- The shape of the result of an operation that defines a temporary, by which
parameters are arrays. The words of the parameters are the first
temporaries. -/
def Op.resultShape (own : List Bool) (t : Temp) : Op → Shape
  | alloca => if own[t]? = some true then .slot else .address
  | array _ | element .. => .address
  | load (.temp s) => if own[s]? = some true then .address else .int
  | _ => .int

/-- The temporaries with their shapes. -/
def tempShapes (own : List Bool) (is : List Instr) : List (Temp × Shape) :=
  is.filterMap fun i => i.output.map fun t => (t, i.op.resultShape own t)

/-- The shapes of the temporaries that are the results of instructions. -/
def shapes (own : List Bool) (is : List Instr) : List Shape := (tempShapes own is).map (·.2)

/-- Instructions have the temporaries as results, in order. -/
def Numbered (is : List Instr) : Prop := ∃ n, is.filterMap (·.output) = List.range n

theorem map_fst_tempShapes (own : List Bool) (is : List Instr) :
    (tempShapes own is).map (·.1) = is.filterMap (·.output) := by
  rw [tempShapes, map_filterMap]
  congr
  funext i
  cases i.output <;> rfl

/-- **The shape of a temporary is that of the result of its instruction.** -/
theorem Numbered.shapes_eq_some {own : List Bool} {is : List Instr} (h : Numbered is) {t : Temp}
    {k : Shape} :
    (shapes own is)[t]? = some k ↔ ∃ op, ⟨some t, op⟩ ∈ is ∧ op.resultShape own t = k := by
  obtain ⟨n, hn⟩ := h
  rw [← map_fst_tempShapes own] at hn
  -- the temporaries are where their numbers say
  have hplace : ∀ {j : Nat} {c : Temp × Shape}, (tempShapes own is)[j]? = some c → c.1 = j := by
    intro j c hc
    have hnumber : (List.range n)[j]? = some c.1 := by rw [← hn, getElem?_map, hc]; rfl
    obtain ⟨hlt, heq⟩ := List.getElem?_eq_some_iff.1 hnumber
    rw [← heq, List.getElem_range]
  rw [shapes, getElem?_map, Option.map_eq_some_iff]
  constructor
  · rintro ⟨c, hc, rfl⟩
    obtain ⟨⟨output, op⟩, hi, hout⟩ := mem_filterMap.1 (mem_of_getElem? hc)
    obtain ⟨t', rfl, rfl⟩ := Option.map_eq_some_iff.1 hout
    cases hplace hc
    exact ⟨op, hi, rfl⟩
  · rintro ⟨op, hi, rfl⟩
    have hmem : (t, op.resultShape own t) ∈ tempShapes own is := mem_filterMap.2 ⟨_, hi, rfl⟩
    obtain ⟨j, hj⟩ := getElem?_of_mem hmem
    cases hplace hj
    exact ⟨_, hj, rfl⟩

end IR

variable {op : IR.Op} {d : FunctionDef}

namespace Lower

open IR (Value Op Instr Temp Shape Shaped Interface)

/-! ## Roles as shapes -/

def Role.shape : Role → Shape
  | int => .int
  | array | cell => .address
  | slot => .slot

/-- The program is judged, and no array stands where an integer is needed. -/
def Policy.typed (takes : String → Option (List Bool)) : Policy where
  allowed _ := True
  judged := True
  site s := s.scalar = true
  loose := False
  takes name arrays := takes name = some arrays
  stops _ _ := trivial
  named _ _ := .inr fun _ => trivial
  scalar _ h := .inl h
  unjudged := .inl trivial

variable {takes : String → Option (List Bool)} {own : List Bool} {is : List Instr} {t : Temp}

/-- All instructions of a function, by those after its arguments are stored. -/
def withParameters (own : List Bool) (is : List Instr) : List Instr :=
  parameterCode 0 own.length ++ is

/-- A value has the shape of a role. -/
def HasShape (takes : String → Option (List Bool)) (own : List Bool) (is : List Instr) (role : Role)
    (v : Value) : Prop :=
  IR.Numbered (withParameters own is) →
    v.shape ⟨own, takes⟩ (IR.shapes own (withParameters own is)) = some role.shape

/-- The words of array parameters, and no others, hold addresses. -/
theorem shapes_eq_slot_iff (h : IR.Numbered (withParameters own is)) :
    (IR.shapes own (withParameters own is))[t]? = some .slot ↔ own[t]? = some true := by
  rw [h.shapes_eq_some]
  constructor
  · rintro ⟨op, -, hop⟩
    unfold Op.resultShape at hop
    split at hop
    next => exact by_contra fun hnot => by rw [if_neg hnot] at hop; cases hop
    next => cases hop
    next => cases hop
    next => split at hop <;> cases hop
    next => cases hop
  · intro ht
    have hlt := (List.getElem?_eq_some_iff.1 ht).1
    refine ⟨.alloca, List.mem_append_left _ ?_, if_pos ht⟩
    exact mem_parameterCode.2 ⟨t, Nat.zero_le t, by rwa [Nat.zero_add], .inl rfl⟩

theorem outputs_parameterCode (i k : Nat) :
    (parameterCode i k).filterMap (·.output) = range' i k := by
  rw [parameterCode, filterMap_flatMap]
  exact flatMap_singleton' _

/-- What is defined after the arguments are stored is no word of a parameter. -/
theorem getElem?_own_eq_none (h : IR.Numbered (withParameters own is)) (hi : ⟨some t, op⟩ ∈ is) :
    own[t]? = none := by
  obtain ⟨n, hn⟩ := h
  have hnodup := hn ▸ nodup_range
  rw [withParameters, filterMap_append, outputs_parameterCode] at hnodup
  rw [getElem?_eq_none_iff]
  refine Nat.le_of_not_lt fun hlt => ?_
  exact (nodup_append'.1 hnodup).2.2 (mem_range'_1.2 ⟨Nat.zero_le t, by rwa [Nat.zero_add]⟩)
    (mem_filterMap.2 ⟨_, hi, rfl⟩)

/-- The result of an instruction has the shape that goes with its role. -/
theorem hasShape_result {r : Role} (hi : ⟨some t, op⟩ ∈ is)
    (h : Uses (HasShape takes own is) (fun name arrays => takes name = some arrays) op (some r)) :
    HasShape takes own is r (.temp t) := by
  intro hnum
  refine hnum.shapes_eq_some.2 ⟨op, mem_append_right _ hi, ?_⟩
  cases h with
  | alloca =>
    rw [Op.resultShape, getElem?_own_eq_none hnum hi]
    rfl
  | @load a ha =>
    have ha : _ = some Shape.address := ha.elim (· hnum) (· hnum)
    cases a with
    | temp s =>
      have hnot : own[s]? ≠ some true := fun hs => by
        cases ha.symm.trans ((shapes_eq_slot_iff hnum).2 hs)
      exact if_neg hnot
    | _ => rfl
  | @loadSlot a ha =>
    have ha : _ = some Shape.slot := ha hnum
    cases a with
    | temp s => exact if_pos ((shapes_eq_slot_iff hnum).1 ha)
    | const => cases ha
    | global => cases ha
    | arg i =>
      obtain ⟨isArray, -, hshape⟩ := Option.map_eq_some_iff.1 ha
      cases isArray <;> cases hshape
  | call _ _ hr =>
    cases hr r rfl
    rfl
  | _ => rfl

/-- The word of a parameter has the shape that goes with its role. -/
theorem hasShape_parameter {ps : List Parameter} {p : Parameter} (hp : ps[t]? = some p) :
    HasShape takes (ps.map (·.array.isSome)) is (.ofParameter p) (.temp t) := by
  intro hnum
  have hlt := (List.getElem?_eq_some_iff.1 hp).1
  refine hnum.shapes_eq_some.2 ⟨.alloca, List.mem_append_left _ ?_, ?_⟩
  · exact mem_parameterCode.2 ⟨t, Nat.zero_le t, by rwa [Nat.zero_add, length_map], .inl rfl⟩
  · rw [Op.resultShape, getElem?_map, hp]
    unfold Role.ofParameter
    cases hq : p.array.isSome <;> simp [hq, Role.shape]

/-- **The reading of roles as shapes.** -/
def Reading.shapes (takes : String → Option (List Bool)) (own : List Bool) (is : List Instr) :
    Reading (.typed takes) where
  has := HasShape takes own is
  there i := i ∈ is
  const _ _ := rfl
  result _ _ _ := hasShape_result
  same h := h.elim

/-- An operation that uses values as what they are is in order. -/
theorem Uses.shaped (hnum : IR.Numbered (withParameters own is)) {r : Option Role}
    (h : Uses (HasShape takes own is) (fun name arrays => takes name = some arrays) op r) :
    Shaped ⟨own, takes⟩ (IR.shapes own (withParameters own is)) op (r.map Role.shape) := by
  have hword : ∀ {a}, HasShape takes own is .cell a ∨ HasShape takes own is .array a →
      a.shape ⟨own, takes⟩ (IR.shapes own (withParameters own is)) = some .address :=
    fun ha => ha.elim (· hnum) (· hnum)
  cases h with
  | alloca => exact .alloca
  | array => exact .array
  | load ha => exact .load (hword ha)
  | loadSlot ha => exact .loadSlot (ha hnum)
  | store hv ha => exact .store (hv hnum) (hword ha)
  | binary ha hb => exact .binary (ha hnum) (hb hnum)
  | compare ha hb => exact .compare (ha hnum) (hb hnum)
  | zext hv => exact .zext (hv hnum)
  | phi ha hb => exact .phi (ha hnum) (hb hnum)
  | element hb ho => exact .element (hb hnum) (ho hnum)
  | jump => exact .jump
  | branch hv => exact .branch (hv hnum)
  | call hf hvs hr =>
    refine .call hf ?_ fun k hk => ?_
    · clear hf
      induction hvs with
      | nil => rfl
      | @cons isArray v _ _ hv _ ih =>
        have hv := hv hnum
        rw [map_cons, map_cons, ih, hv]
        cases isArray <;> rfl
    · obtain ⟨role, hrole, rfl⟩ := Option.map_eq_some_iff.1 hk
      cases hr role hrole
      rfl
  | ret hv => exact .ret (hv hnum)
  | retVoid => exact .retVoid

/-- **Lowered functions are shaped.** -/
theorem functionOf_shaped {rest : Code} {σ : Supply}
    (hf : (functionOf d rest σ).WellFormed)
    (h : (Reading.shapes takes (d.params.map (·.array.isSome)) rest.instrs).Given True rest.instrs
      True) : (functionOf d rest σ).Shaped ⟨d.params.map (·.array.isSome), takes⟩ := by
  generalize hown : d.params.map (·.array.isSome) = own at h ⊢
  have hlen : own.length = d.params.length := by rw [← hown, length_map]
  have houtputs := hf.outputs
  rw [functionOf_instrs hf, ← hlen] at houtputs
  have hnum : IR.Numbered (withParameters own rest.instrs) := ⟨_, houtputs⟩
  refine ⟨IR.shapes own (withParameters own rest.instrs), ?_, fun b hb i hi => ?_⟩
  · rw [IR.shapes, length_map, ← length_map (f := (·.1)), IR.map_fst_tempShapes,
      withParameters, houtputs, length_range]
  rcases mem_functionOf hb hi with hi | hi
  · rw [← hlen] at hi
    obtain ⟨j, -, hlt, hi'⟩ := mem_parameterCode.1 hi
    rw [Nat.zero_add] at hlt
    have hroom : (IR.shapes own (withParameters own rest.instrs))[j]? =
        some (Op.resultShape own j .alloca) := hnum.shapes_eq_some.2 ⟨.alloca, mem_append_left _
      (mem_parameterCode.2 ⟨j, Nat.zero_le j, by rwa [Nat.zero_add], .inl rfl⟩), rfl⟩
    have hj : own[j]? = some own[j] := getElem?_eq_getElem hlt
    obtain rfl | rfl := hi'
    · show Shaped _ _ .alloca _[j]?
      rw [hroom, Op.resultShape, hj]
      cases own[j]
      · exact .alloca
      · exact .allocaSlot
    · rw [Op.resultShape, hj] at hroom
      cases harray : own[j] <;> rw [harray] at hj hroom
      · refine .store ?_ hroom
        rw [Value.shape, hj]
        rfl
      · exact .storeSlot hj hroom
  · obtain ⟨r, huses, hsome⟩ := (h trivial fun _ hi => hi).1 i hi
    have hshaped := huses.shaped hnum
    obtain ⟨output, op⟩ := i
    cases output with
    | none =>
      cases r with
      | none => exact hshaped
      | some => cases hsome
    | some t =>
      cases r with
      | none => cases hsome
      | some role =>
        have hresult := hasShape_result hi huses hnum
        show Shaped _ _ op _[t]?
        rw [show (IR.shapes own _)[t]? = some role.shape from hresult]
        exact hshaped

/-- A function that is defined is lowered. -/
theorem exists_function_of_mem {us : List TopLevel} {symbols : Symbols}
    {functions : Frame Signature} {m : IR.Module}
    (h : (lowerUnits symbols functions us).result = .ok m) (hd : .function d ∈ us) :
    ∃ f ∈ m.functions, f.name = d.name.value := by
  induction us generalizing symbols functions m with
  | nil => cases hd
  | cons u us ih =>
    cases u with
    | decl e =>
      obtain ⟨gs, inner, rest, -, hrest, rfl⟩ := lowerUnits_decl h
      rcases mem_cons.1 hd with heq | hd
      · cases heq
      · obtain ⟨f, hf⟩ := ih hrest hd
        exact ⟨f, hf⟩
    | function e =>
      obtain ⟨g, rest, hg, hrest, rfl⟩ := lowerUnits_function h
      rcases mem_cons.1 hd with heq | hd
      · cases heq
        obtain ⟨_, _, -, rfl⟩ := lowerFunction_ok hg
        exact ⟨_, mem_cons_self, rfl⟩
      · obtain ⟨f, hf, hname⟩ := ih hrest hd
        exact ⟨f, mem_cons_of_mem _ hf, hname⟩

end Lower

/-- **Accepted programs use integers and addresses as what they are**, if no
array stands where an integer is needed. Every function is shaped, for its own
parameters and those of the functions of the program, all of which are functions
of the module. -/
theorem Program.lower_shaped {p : Program} {m : IR.Module} (haccepted : p.accepted = true)
    (hscalar : ∀ s ∈ p.sites, s.scalar = true) (hlower : p.lower.result = .ok m) :
    (∀ f ∈ m.functions, ∃ own, p.arrayParams f.name = some own ∧ own.length = f.params ∧
      f.Shaped ⟨own, p.arrayParams⟩) ∧
    ∀ name own, p.arrayParams name = some own → ∃ f ∈ m.functions, f.name = name := by
  have hnames := Program.nodup_names haccepted
  constructor
  · have hgiven := Program.lower_given (P := .typed p.arrayParams) (p := p)
      (fun d => .shapes p.arrayParams (d.params.map fun q : Parameter => q.array.isSome))
      ⟨fun _ => Program.accepted_iff.1 haccepted, hscalar⟩
      (fun d hd => ⟨fun _ => TopLevel.arrayParams_of_mem hnames hd, False.elim⟩)
      (fun _ _ _ _ => ⟨fun _ => rfl, fun _ => rfl⟩) fun d is j q hq => Lower.hasShape_parameter hq
    rw [hlower] at hgiven
    intro f hf
    obtain ⟨d, hd, rest, σ, rfl, hgiven⟩ := hgiven f hf
    obtain ⟨_, _, htyped⟩ := Program.lower_typed hlower hf
    exact ⟨_, TopLevel.arrayParams_of_mem hnames hd, List.length_map _,
      Lower.functionOf_shaped htyped.wellFormed hgiven⟩
  · intro name own h
    obtain ⟨d, hd, rfl⟩ := TopLevel.exists_of_arrayParams h
    exact Lower.exists_function_of_mem hlower hd

open Source.Sample

theorem Program.lower_shaped_sample :
    ∃ m, program.accepted = true ∧
      (∀ s ∈ program.sites, s.scalar = true) ∧
      program.lower.result = .ok m ∧
      (∀ f ∈ m.functions, ∃ own, program.arrayParams f.name = some own ∧
        own.length = f.params ∧ f.Shaped ⟨own, program.arrayParams⟩) ∧
      ∀ name own, program.arrayParams name = some own →
        ∃ f ∈ m.functions, f.name = name := by
  obtain ⟨m, hm⟩ := program_lowers
  have hscalar : ∀ s ∈ program.sites, s.scalar = true := by decide +kernel
  exact ⟨m, program_accepted, hscalar, hm,
    Program.lower_shaped program_accepted hscalar hm⟩

namespace Source.Sample

/-- A function with one array, in a program with a global array `b`:

    int b[2];
    int main() { int a…; …; return 0; }
-/
def withArray (a : Definition) (use : Block → Block) : Program where
  units := [
    .decl ⟨false, array "b" [num "2"], []⟩,
    .function (function "main" [] (.decl ⟨false, a, []⟩ (use (ret (num "0")))))]

/-- An array as a subscript: `int a[2]; a[b] = 1;`. -/
def subscript : Program :=
  withArray (array "a" [num "2"]) (.stmt (set "a" [get "b"] (num "1")))

/-- An array as the initial value of one with more dimensions:
`int a[2][2] = b;`. -/
def initial : Program :=
  withArray (array "a" [num "2", num "2"] (some (.expr (get "b")))) id

end Source.Sample

/-- Whether an instruction takes the address of a global variable for an
integer. -/
def IR.Instr.misuses (i : IR.Instr) : Bool :=
  match i.op with
  | .element _ (.global _) | .store (.global _) _ => true
  | _ => false

/-- Whether an instruction of a function does. -/
def IR.Function.misuses (f : IR.Function) : Bool := f.blocks.any fun b => b.code.any (·.misuses)

theorem IR.Function.not_shaped {f : IR.Function} (h : f.misuses = true) (face : IR.Interface) :
    ¬f.Shaped face := by
  rintro ⟨ks, -, hks⟩
  obtain ⟨b, hb, h⟩ := any_eq_true.1 h
  obtain ⟨i, hi, h⟩ := any_eq_true.1 h
  have hshaped := hks b hb i hi
  generalize i.output.bind _ = result at hshaped
  unfold IR.Instr.misuses at h
  split at h
  next base name hop =>
    rw [hop] at hshaped
    cases hshaped with
    | element _ hoffset => cases hoffset
  next name target hop =>
    rw [hop] at hshaped
    cases hshaped with
    | store hv _ => cases hv
  next => cases h

/-- What an accepted program comes to whose lowered code takes an address for an
integer. -/
def Program.AcceptedNotShaped (p : Program) : Prop :=
  p.accepted = true ∧
    ∃ m f, p.lower.result = .ok m ∧ f ∈ m.functions ∧ ∀ face, ¬f.Shaped face

/-- Acceptance alone is not enough: an array is accepted as a subscript, and as
the initial value of an array of another type, and its address is taken for the
number of a word and for the value of one. -/
theorem Program.accepted_not_shaped :
    subscript.AcceptedNotShaped ∧ initial.AcceptedNotShaped := by
  have hmisuse : ∀ p : Program, p.accepted = true →
      ((p.lower.result.toOption.bind (·.functions.head?)).any fun f => decide (f.misuses = true))
        = true → p.AcceptedNotShaped := by
    intro p haccepted h
    obtain ⟨m, f, hm, hf, hmisuses⟩ := head_lowers (·.misuses = true) h
    exact ⟨haccepted, m, f, hm, hf, IR.Function.not_shaped hmisuses⟩
  exact ⟨hmisuse _ (by decide +kernel) (by decide +kernel),
    hmisuse _ (by decide +kernel) (by decide +kernel)⟩

end SysY
