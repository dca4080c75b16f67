import Mathlib.Data.List.Forall2
import SysY.Proofs.Machine
import SysY.Proofs.Source

/-!
# When a state of the machine stands for one of the program

Memory is laid out in the same way on both sides: every variable takes its
words when it is declared, and so the word of the machine with a given number
*is* the word of the program with that number. What the two hold there need
not be the same. The machine refines the program: where the program has read
or written a value, the machine has one that represents it, and where the
program has nothing, the machine may have anything (it sets a scalar without
an initial value to zero).

An array is a region of words in the program, and in the machine an address
into an object of which these words are a part.
-/

namespace SysY.Lower

open List

open IR (Value Op Instr Label Temp Temps)

/-! ## Values and memory -/

/-- A word of the machine represents a value of the program. What a `void`
function gives back is zero, and is never looked at. -/
def Represents : Source.Val → IR.Val → Prop
  | .int n, w => w = .int n
  | .array r, w =>
    ∃ base size k : Nat, w = .addr ⟨base, size, k⟩ ∧ base + k = r.start ∧ k + r.length ≤ size
  | .void, w => w = .int 0

/-- What a function of the machine returns when the program's gives a value. -/
def Returns : Source.Val → Option IR.Val → Prop
  | .int n, w => w = some (.int n)
  | .array _, _ => False
  | .void, w => w = none

/-- **The machine's memory refines the program's.** -/
structure Refines (mem : Source.Memory) (imem : IR.Memory) : Prop where
  length : imem.length = mem.length
  /-- A word that is set on the left is represented on the right. -/
  read : ∀ {a v}, mem.read a = some v → ∃ w, imem[a]?.join = some w ∧ Represents v w

namespace Refines

variable {mem mem' : Source.Memory} {imem imem' : IR.Memory} {a : Nat} {p : IR.Pointer}
  {v : Source.Val} {w : IR.Val}

theorem load (h : Refines mem imem) (hread : mem.read a = some v) (hp : p.word? = some a) :
    ∃ w, imem.load p = some w ∧ Represents v w := by
  obtain ⟨w, hw, hrep⟩ := h.read hread
  refine ⟨w, ?_, hrep⟩
  unfold IR.Memory.load
  rw [hp]
  exact hw

theorem store (h : Refines mem imem) (hwrite : mem.write a v = some mem') (hp : p.word? = some a)
    (hrep : Represents v w) : ∃ imem', imem.store p w = some imem' ∧ Refines mem' imem' := by
  unfold Source.Memory.write at hwrite
  split at hwrite
  next hlt =>
    cases hwrite
    refine ⟨imem.set a (some w), ?_, ?_, ?_⟩
    · unfold IR.Memory.store
      rw [hp]
      exact if_pos (h.length ▸ hlt)
    · simp [h.length]
    · intro b u hb
      unfold Source.Memory.read at hb
      by_cases hab : a = b
      · subst hab
        rw [getElem?_set_self hlt] at hb
        cases hb
        exact ⟨w, by rw [getElem?_set_self (h.length ▸ hlt)]; rfl, hrep⟩
      · rw [getElem?_set_ne hab] at hb ⊢
        exact h.read hb
  next => cases hwrite

/-- A word that the program has not set may be set in the machine. -/
theorem poke (h : Refines mem imem) (ha : mem.read a = none) (hlt : a < mem.length)
    (hp : p.word? = some a) : ∃ imem', imem.store p w = some imem' ∧ Refines mem imem' := by
  refine ⟨imem.set a (some w), ?_, ?_, ?_⟩
  · unfold IR.Memory.store
    rw [hp]
    exact if_pos (h.length ▸ hlt)
  · rw [length_set, h.length]
  · intro b u hb
    by_cases hab : a = b
    · subst hab
      rw [ha] at hb
      cases hb
    · rw [getElem?_set_ne hab]
      exact h.read hb

theorem grow (h : Refines mem imem) (n : Nat) : Refines (mem.grow n) (imem.grow n) where
  length := by simp [Source.Memory.grow, IR.Memory.grow, h.length]
  read := by
    intro a v ha
    unfold Source.Memory.read Source.Memory.grow at ha
    unfold IR.Memory.grow
    by_cases hlt : a < mem.length
    · rw [getElem?_append_left hlt] at ha
      rw [getElem?_append_left (h.length ▸ hlt)]
      exact h.read ha
    · rw [getElem?_append_right (Nat.le_of_not_lt hlt), getElem?_replicate] at ha
      split at ha <;> simp at ha

end Refines

/-! ## Variables -/

section

variable (m : IR.Module) (args : List IR.Val) (temps : Temps) (bound : Nat)

/-- A value of the code stands for a word, and goes on to do so as long as the
temporaries below `bound` keep what they hold. -/
def Stands (v : Value) (w : IR.Val) : Prop :=
  v.eval m args temps = some w ∧ ∀ t : Nat, v = .temp t → t < bound

/-- A symbol means what a variable does: it is in the same place, has the same
dimensions, and the same value is known of it. -/
def Means : Symbol → Source.Variable → Prop
  | .scalar v k, .scalar a k' => k = k' ∧ Stands m args temps bound v (.addr (.first a 1))
  | .array (.address v) dims k, .array (.words r) dims' k' =>
    dims = dims' ∧ k = k' ∧ Stands m args temps bound v (.addr (.first r.start r.length))
  | .array (.pointer v) dims k, .array (.reference a) dims' k' =>
    dims = dims' ∧ k = k' ∧ Stands m args temps bound v (.addr (.first a 1))
  | _, _ => False

/-- **The symbols in scope mean what the variables in scope do.** -/
structure Agree (symbols : Symbols) (env : Source.Scope) : Prop where
  names : ∀ name, (symbols.lookup name).isSome = (env.lookup name).isSome
  means : ∀ ⦃name s x⦄, symbols.lookup name = some s → env.lookup name = some x →
    Means m args temps bound s x

end

variable {x : Source.Variable} {s : Symbol}

section

variable {m : IR.Module} {args : List IR.Val} {temps temps' : Temps} {bound bound' : Nat}

theorem Stands.mono {v : Value} {w : IR.Val} (h : Stands m args temps bound v w)
    (hframe : ∀ t < bound, temps' t = temps t) (hle : bound ≤ bound') :
    Stands m args temps' bound' v w := by
  refine ⟨?_, fun t ht => Nat.lt_of_lt_of_le (h.2 t ht) hle⟩
  rw [← h.1]
  cases v with
  | temp t => exact congrArg some (hframe t (h.2 t rfl))
  | _ => rfl

theorem Means.mono (h : Means m args temps bound s x) (hframe : ∀ t < bound, temps' t = temps t)
    (hle : bound ≤ bound') : Means m args temps' bound' s x := by
  cases s with
  | scalar v k =>
    cases x with
    | scalar a k' => exact ⟨h.1, h.2.mono hframe hle⟩
    | array base dims k' => cases h
  | array base dims k =>
    cases x with
    | scalar a k' => cases base <;> cases h
    | array base' dims' k' =>
      cases base <;> cases base'
      · exact ⟨h.1, h.2.1, h.2.2.mono hframe hle⟩
      · cases h
      · cases h
      · exact ⟨h.1, h.2.1, h.2.2.mono hframe hle⟩

theorem Means.array {base : Base} {base' : Source.Base} {dims dims' : List Nat}
    {k k' : Option (List Int32)}
    (h : Means m args temps bound (.array base dims k) (.array base' dims' k')) :
    dims = dims' ∧ k = k' := by
  cases base <;> cases base'
  · exact ⟨h.1, h.2.1⟩
  · cases h
  · cases h
  · exact ⟨h.1, h.2.1⟩

namespace Agree

variable {symbols : Symbols} {env : Source.Scope}

theorem mono (h : Agree m args temps bound symbols env)
    (hframe : ∀ t < bound, temps' t = temps t) (hle : bound ≤ bound') :
    Agree m args temps' bound' symbols env :=
  ⟨h.names, fun _ _ _ hs hx => (h.means hs hx).mono hframe hle⟩

theorem enter (h : Agree m args temps bound symbols env) :
    Agree m args temps bound symbols.enter env.enter := by
  constructor <;> simp only [Env.lookup_enter]
  · exact h.names
  · exact h.means

theorem bind (h : Agree m args temps bound symbols env) (name : String)
    (hsx : Means m args temps bound s x) :
    Agree m args temps bound (symbols.bind name s) (env.bind name x) := by
  constructor <;> intro other <;> by_cases heq : other = name
  · rw [heq, Env.lookup_bind_self, Env.lookup_bind_self]
    rfl
  · rw [Env.lookup_bind_of_ne heq, Env.lookup_bind_of_ne heq, h.names]
  · rw [heq, Env.lookup_bind_self, Env.lookup_bind_self]
    rintro _ _ ⟨⟩ ⟨⟩
    exact hsx
  · rw [Env.lookup_bind_of_ne heq, Env.lookup_bind_of_ne heq]
    exact @h.means other

end Agree

end

/-! ## Straight runs -/

variable (m : IR.Module) (args : List IR.Val) (prev : Option Label)

/-- **A run of straight code**, in a block that was entered from `prev`: what it
makes of the temporaries and of memory. -/
inductive Steps : List Instr → Temps → IR.Memory → Temps → IR.Memory → Prop
  | nil {temps mem} : Steps [] temps mem temps mem
  | step {i is temps mem v mem' temps' final} :
    i.op.eval m args prev temps mem = some (v, mem') →
    Steps is (temps.assign i.output v) mem' temps' final →
    Steps (i :: is) temps mem temps' final
  | call {output callee vs is temps mem ws v mem' temps1 temps' final} :
    IR.evalArgs m args temps vs = some ws → IR.Calls m callee ws mem v mem' →
    temps.receive output v = some temps1 → Steps is temps1 mem' temps' final →
    Steps (⟨output, .call callee vs⟩ :: is) temps mem temps' final

namespace Steps

variable {m args prev} {is is' : List Instr} {temps temps1 temps' : Temps} {mem mem1 mem' : IR.Memory}

theorem append (h : Steps m args prev is temps mem temps1 mem1)
    (h' : Steps m args prev is' temps1 mem1 temps' mem') :
    Steps m args prev (is ++ is') temps mem temps' mem' := by
  induction h with
  | nil => exact h'
  | step heval _ ih => exact .step heval (ih h')
  | call hargs hcall hrecv _ ih => exact .call hargs hcall hrecv (ih h')

/-- A run of straight code, and one that goes on from it. -/
theorem run {f : IR.Function} {cur : Label} {rest : List Instr} {r : Option IR.Val}
    {final : IR.Memory} (h : Steps m args prev is temps mem temps' mem')
    (h' : IR.Run m f args ⟨prev, cur, rest, temps'⟩ mem' r final) :
    IR.Run m f args ⟨prev, cur, is ++ rest, temps⟩ mem r final := by
  induction h with
  | nil => exact h'
  | step heval _ ih => exact .step heval (ih h')
  | call hargs hcall hrecv _ ih =>
    obtain ⟨g, start, hg, hstart, hrun⟩ := hcall
    exact .call hargs hg hstart hrun hrecv (ih h')

end Steps

/-! ## Calls -/

/-- **The functions of a module do what a caller says**: where it has a result,
so does the machine, on memory and arguments that represent the program's. -/
def CallsMatch (m : IR.Module) (call : Source.Caller) : Prop :=
  ∀ ⦃name vs mem v mem'⦄, call name vs mem = some (v, mem') →
    ∀ ⦃ws imem⦄, List.Forall₂ Represents vs ws → Refines mem imem →
      ∃ r imem', IR.Calls m name ws imem r imem' ∧ Returns v r ∧ Refines mem' imem'

/-- The signatures in scope say which calls give nothing back. -/
def SignaturesMatch (functions : Frame Signature) (call : Source.Caller) : Prop :=
  ∀ ⦃name s vs mem v mem'⦄, List.lookup name functions = some s →
    call name vs mem = some (v, mem') → (s.void = true ↔ v = .void)

end SysY.Lower
