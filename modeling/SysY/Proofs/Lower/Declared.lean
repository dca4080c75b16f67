import SysY.Proofs.Source
import SysY.Proofs.Lower.Constant

/-!
# The variables of a program

All that the lowering knows of variables, without their addresses and without
code: which ones a program declares, with what dimensions, and what is known of
their values. `Program.declared` collects them in the order in which they are
declared, evaluating constants on the way.

The lowering stops at a declaration whose dimensions have no value; here such a
declaration declares nothing. Otherwise the two environments agree, and so do
the constants that are evaluated in them (`evalConst_known`).
-/

namespace SysY

open Lower (Symbol Symbols volume maxWords evalDims evalItems layOut)

/-- Where the words of a variable are kept. -/
inductive Storage where
  /-- With the program. -/
  | global
  /-- On the stack, for as long as a block is executed. -/
  | stack
  /-- In what the caller passed. -/
  | parameter
deriving DecidableEq, Repr

/-- A variable of a program. -/
structure Declared where
  storage : Storage
  name : Ident
  initialised : Bool
  /-- Its dimensions, none for a scalar. The first one of an array parameter is
  not known, and zero. -/
  dims : List Nat
  /-- Its words, if it is a constant. -/
  values : Option (List Int32)
  /-- Rows are not empty. -/
  positive : ∀ d ∈ dims.tail, 0 < d
  /-- There is a value for every word. -/
  sized : ∀ ks, values = some ks → ks.length = volume dims

namespace Declared

/-- What the lowering knows of a variable, its address aside. -/
def symbol (v : Declared) : Symbol :=
  if v.dims.isEmpty then .scalar (.const 0) (v.values.bind (·.head?))
  else .array (.address (.const 0)) v.dims v.values

/-- **Whether the size of a variable can be counted** where it is needed. The
words of a variable are counted in 64 bits, but in 32 bits if an initial value
is laid out over them on the stack, and so are those of a row of a
parameter. -/
def countable (v : Declared) : Bool :=
  match v.storage with
  | .global => volume v.dims < 0x8000000000000000
  | .stack => volume v.dims < if v.initialised then 0x100000000 else 0x8000000000000000
  | .parameter => volume v.dims.tail < 0x100000000

/-- **Whether a variable is small enough to be an object.** The words of a
parameter are an object of the caller. -/
def fits (v : Declared) : Bool := v.storage = .parameter || volume v.dims ≤ maxWords

end Declared

variable {dims : List Nat} {seen : Symbols}

namespace Lower

/-- The words of a constant, as far as they have values. A global one without
an initial value is zero. -/
def knownWords (storage : Storage) (constant : Bool) (seen : Symbols) (dims : List Nat)
    (init : Option Initializer) : Option (List Int32) :=
  match constant, init with
  | false, _ => none
  | true, some i => (evalItems seen (layOut dims i.value)).toOption
  | true, none => if storage = .global then some (List.replicate (volume dims) 0) else none

theorem knownWords_length {storage : Storage} {constant : Bool} {init : Option Initializer}
    (hpos : ∀ d ∈ dims, 0 < d) {ks : List Int32}
    (h : knownWords storage constant seen dims init = some ks) : ks.length = volume dims := by
  unfold knownWords at h
  split at h
  next => cases h
  next i =>
    cases hitems : evalItems seen (layOut dims i.value) with
    | error e =>
      rw [hitems] at h
      cases h
    | ok ks' =>
      rw [hitems] at h
      cases h
      rw [evalItems_length hitems, layOut_length hpos]
  next =>
    split at h
    · cases h
      exact List.length_replicate
    · cases h

/-- The environment with a variable in its innermost frame. -/
def Symbols.declare (seen : Symbols) (v : Declared) : Symbols := seen.bind v.name.value v.symbol

/-- The environment with variables in its innermost frame. -/
def Symbols.declareAll (seen : Symbols) (vs : List Declared) : Symbols := vs.foldl Symbols.declare seen

end Lower

/-! ## Collecting them -/

/-- The variable of a definition, if its dimensions have values. -/
def Definition.declared? (storage : Storage) (constant : Bool) (seen : Symbols) (d : Definition) :
    Option Declared :=
  match h : evalDims seen d.dims with
  | .error _ => none
  | .ok dims => some {
      storage
      name := d.name
      initialised := d.init.isSome
      dims
      values := Lower.knownWords storage constant seen dims d.init
      positive := fun n hn => Lower.evalDims_pos h n (List.mem_of_mem_tail hn)
      sized := fun _ hks => Lower.knownWords_length (Lower.evalDims_pos h) hks }

/-- What a definition declares if its dimensions have values. -/
theorem Definition.exists_declared (storage : Storage) (constant : Bool) {d : Definition}
    (h : evalDims seen d.dims = .ok dims) :
    ∃ v, d.declared? storage constant seen = some v ∧ v.storage = storage ∧ v.name = d.name ∧
      v.initialised = d.init.isSome ∧ v.dims = dims ∧
      v.values = Lower.knownWords storage constant seen dims d.init := by
  unfold Definition.declared?
  split
  next heq => cases h.symm.trans heq
  next heq =>
    cases h.symm.trans heq
    exact ⟨_, rfl, rfl, rfl, rfl, rfl, rfl⟩

/-- The variables of definitions one after the other. -/
def Definition.declaredAll (storage : Storage) (constant : Bool) (seen : Symbols) :
    List Definition → List Declared
  | [] => []
  | d :: ds =>
    let here := (d.declared? storage constant seen).toList
    here ++ Definition.declaredAll storage constant (seen.declareAll here) ds

mutual

/-- The variables of a statement. -/
def Stmt.declared (seen : Symbols) : Stmt → List Declared
  | .block b => b.declared seen.enter
  | .if_ _ s rest => s.declared seen ++ rest.declared seen
  | .while_ _ s => s.declared seen
  | .assign .. | .eval _ | .break_ _ | .continue_ _ | .return_ .. => []

/-- The variables of the items of a block, whose frame is open. -/
def Block.declared (seen : Symbols) : Block → List Declared
  | .nil => []
  | .decl d rest =>
    let here := Definition.declaredAll .stack d.constant seen d.definitions
    here ++ rest.declared (seen.declareAll here)
  | .stmt s rest => s.declared seen ++ rest.declared seen

def Otherwise.declared (seen : Symbols) : Otherwise → List Declared
  | .done => []
  | .else_ s => s.declared seen
  | .elseIf _ s rest => s.declared seen ++ rest.declared seen

end

/-- The variable of a parameter, if its dimensions have values. -/
def Parameter.declared? (seen : Symbols) (p : Parameter) : Option Declared :=
  match p.array with
  | none => some ⟨.parameter, p.name, false, [], none, nofun, nofun⟩
  | some es =>
    match h : evalDims seen es with
    | .error _ => none
    | .ok dims => some ⟨.parameter, p.name, false, 0 :: dims, none, Lower.evalDims_pos h, nofun⟩

def Parameter.declaredAll (seen : Symbols) : List Parameter → List Declared
  | [] => []
  | p :: ps =>
    let here := (p.declared? seen).toList
    here ++ Parameter.declaredAll (seen.declareAll here) ps

/-- The variables of a function: its parameters and those of its body. -/
def FunctionDef.declared (seen : Symbols) (f : FunctionDef) : List Declared :=
  let params := Parameter.declaredAll seen.enter f.params
  params ++ f.body.declared (Symbols.declareAll seen.enter params).enter

/-- The variables of what stands at the top level. -/
def TopLevel.declaredAll (seen : Symbols) : List TopLevel → List Declared
  | [] => []
  | .decl d :: us =>
    let here := Definition.declaredAll .global d.constant seen d.definitions
    here ++ TopLevel.declaredAll (seen.declareAll here) us
  | .function f :: us => f.declared seen ++ TopLevel.declaredAll seen us

/-- **The variables of a program.** -/
def Program.declared (p : Program) : List Declared := TopLevel.declaredAll [[]] p.units

/-! ## Subscripts -/

namespace Lower

/-- **Subscripts in range select a word.** -/
theorem position_lt {is : List Int32} {offset k bound : Nat} (hlength : is.length = dims.length)
    (hoffset : offset < bound) (h : Source.position offset is dims = some k) :
    k < bound * volume dims := by
  induction is generalizing dims offset bound with
  | nil =>
    cases dims with
    | cons d ds => cases hlength
    | nil =>
      cases h
      rwa [volume, Nat.mul_one]
  | cons i is ih =>
    cases dims with
    | nil => cases hlength
    | cons d ds =>
      rw [Source.position] at h
      obtain ⟨next, hstep, hrest⟩ := Option.bind_eq_some_iff.1 h
      unfold offsetStep at hstep
      split at hstep
      next hindex =>
        cases hstep
        have hnext : offset * d + i.toInt.toNat < bound * d := by
          have hrow : offset * d + d ≤ bound * d := by
            rw [← Nat.succ_mul]
            exact Nat.mul_le_mul_right d hoffset
          omega
        have hk := ih (Nat.succ.inj hlength) hnext hrest
        rwa [Nat.mul_assoc] at hk
      next => cases hstep

end Lower

end SysY
