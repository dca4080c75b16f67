import Mathlib.Data.List.Basic
import SysY.IR.Flat

/-!
# What is known of temporaries

At each line of a function some temporaries have been assigned on every way
that leads there, and it is known what they stand for: the cell of a scalar
variable, an array, an address, or some other value. `Known` records this, and
`Step` says which instructions it permits and what is known after them. An
instruction may only read what is known; a cell may only be loaded from or
stored to; and an address is only formed and followed where it is known to be
one.

That is all that code generation relies on. A cell is never taken for a value,
so it need not have an address; and every address that is followed is that of
an array that is still there, since arrays are *settled*: when room is made
for an array, the addresses formed before are forgotten.

The arguments of a function are in the caller's hands. They may be read only
while nothing but making cells and storing arguments into them has happened.
-/

namespace SysY.IR

open List

/-! ## Kinds -/

/-- What a temporary stands for. -/
inductive Kind where
  /-- The cell of a scalar variable. -/
  | cell
  /-- The cell of an array parameter, which holds an address. -/
  | pointerCell
  /-- An array of so many words. -/
  | object (words : Nat)
  /-- The address of an element or of a row. -/
  | pointer
  | data
deriving DecidableEq, Repr

def Kind.isCell : Kind → Bool
  | cell | pointerCell => true
  | _ => false

/-- Whether it is a variable, which outlives the statement that it is used
in. -/
def Kind.isVariable : Kind → Bool
  | cell | pointerCell | object _ => true
  | _ => false

/-- The kind of the cell of a parameter, which may be an array. -/
def Kind.ofParameter (isArray : Bool) : Kind := if isArray then pointerCell else cell

/-- What is known at a place of a function. -/
structure Known where
  /-- What the temporaries stand for that have been assigned. -/
  kinds : Temp → Option Kind
  /-- Whether the arguments are still where the caller has put them. -/
  args : Bool

namespace Known

/-- Nothing but the arguments. -/
def start : Known := ⟨fun _ => none, true⟩

/-- One temporary more. -/
def add (S : Known) (t : Temp) (k : Kind) : Known :=
  { S with kinds := fun u => if u = t then some k else S.kinds u }

/-- The arguments are gone. -/
def busy (S : Known) : Known := { S with args := false }

/-- The variables only. -/
def settled (S : Known) : Known := ⟨fun t => (S.kinds t).filter (·.isVariable), false⟩

/-- What one says of temporaries, the other says too. -/
def Sub (S S' : Known) : Prop := ∀ ⦃t k⦄, S.kinds t = some k → S'.kinds t = some k

/-- Only temporaries below `n` are known. -/
def Below (S : Known) (n : Nat) : Prop := ∀ ⦃t k⦄, S.kinds t = some k → t < n

variable {S S' S'' : Known} {t u : Temp} {k k' : Kind} {n n' : Nat}

@[simp] theorem kinds_add_self (S : Known) (t : Temp) (k : Kind) : (S.add t k).kinds t = some k :=
  if_pos rfl

theorem kinds_add_of_ne (h : u ≠ t) : (S.add t k).kinds u = S.kinds u := if_neg h

@[simp] theorem kinds_busy (S : Known) : S.busy.kinds = S.kinds := rfl

theorem kinds_settled : S.settled.kinds t = some k ↔ S.kinds t = some k ∧ k.isVariable = true :=
  Option.filter_eq_some_iff

theorem eq_or_of_kinds_add (h : (S.add t k).kinds u = some k') :
    u = t ∧ k' = k ∨ u ≠ t ∧ S.kinds u = some k' := by
  by_cases hu : u = t
  · subst hu
    rw [kinds_add_self] at h
    cases h
    exact .inl ⟨rfl, rfl⟩
  · exact .inr ⟨hu, kinds_add_of_ne hu ▸ h⟩

namespace Sub

protected theorem refl (S : Known) : Sub S S := fun _ _ h => h

protected theorem trans (h : Sub S S') (h' : Sub S' S'') : Sub S S'' := fun _ _ ht => h' (h ht)

theorem add_of_below (h : S.Below n) (hn : n ≤ t) (k : Kind) : Sub S (S.add t k) := by
  intro u k' hu
  have hlt := h hu
  rw [kinds_add_of_ne (Nat.ne_of_lt (Nat.lt_of_lt_of_le hlt hn))]
  exact hu

theorem add (h : Sub S S') (t : Temp) (k : Kind) : Sub (S.add t k) (S'.add t k) := by
  intro u k' hu
  by_cases heq : u = t
  · subst heq
    rw [kinds_add_self] at hu ⊢
    exact hu
  · rw [kinds_add_of_ne heq] at hu ⊢
    exact h hu

theorem settled (h : Sub S S') : Sub S.settled S'.settled := by
  intro t k ht
  rw [kinds_settled] at ht ⊢
  exact ⟨h ht.1, ht.2⟩

theorem of_settled (h : Sub S.settled S') : Sub S.settled S'.settled := by
  intro t k ht
  exact kinds_settled.2 ⟨h ht, (kinds_settled.1 ht).2⟩

end Sub

theorem settled_sub (S : Known) : Sub S.settled S := fun _ _ h => (kinds_settled.1 h).1

theorem Below.mono (h : S.Below n) (hn : n ≤ n') : S.Below n' :=
  fun _ _ ht => Nat.lt_of_lt_of_le (h ht) hn

theorem Below.of_sub (h : S'.Below n) (hsub : Sub S S') : S.Below n := fun _ _ ht => h (hsub ht)

theorem Below.add (h : S.Below n) (k : Kind) : (S.add n k).Below (n + 1) := by
  intro u k' hu
  rcases eq_or_of_kinds_add hu with ⟨rfl, -⟩ | ⟨-, hu⟩
  · exact Nat.lt_succ_self _
  · exact Nat.lt_succ_of_lt (h hu)

theorem Below.settled (h : S.Below n) : S.settled.Below n := fun _ _ ht => h (settled_sub S ht)

theorem below_start (n : Nat) : start.Below n := fun _ _ h => by cases h

end Known

/-! ## Values -/

/-- A value that may be read as it is. -/
def Value.Usable (S : Known) : Value → Prop
  | const _ | global _ => True
  | arg _ => False
  | temp t => ∃ k, S.kinds t = some k ∧ k.isCell = false

/-- A temporary that may be read as it is. -/
def Value.Held (S : Known) (v : Value) : Prop := (∃ t, v = temp t) ∧ v.Usable S

/-- A value that is an address. -/
def Value.Points (S : Known) : Value → Prop
  | global _ => True
  | temp t => S.kinds t = some .pointer ∨ ∃ words, S.kinds t = some (.object words)
  | const _ | arg _ => False

namespace Value

variable {S S' : Known} {v : Value}

theorem Usable.mono (h : v.Usable S) (hsub : Known.Sub S S') : v.Usable S' := by
  cases v with
  | temp t => exact h.imp fun _ hk => ⟨hsub hk.1, hk.2⟩
  | _ => exact h

theorem Points.mono (h : v.Points S) (hsub : Known.Sub S S') : v.Points S' := by
  cases v with
  | temp t => exact h.imp (hsub ·) fun ⟨words, hw⟩ => ⟨words, hsub hw⟩
  | _ => exact h

theorem Points.usable (h : v.Points S) : v.Usable S := by
  cases v with
  | temp t =>
    rcases h with hp | ⟨words, ho⟩
    · exact ⟨_, hp, rfl⟩
    · exact ⟨_, ho, rfl⟩
  | global name => trivial
  | const n => cases h
  | arg i => cases h

theorem usable_const {S : Known} {n : Int32} : (const n).Usable S := trivial

theorem usable_add {S : Known} {t : Temp} {k : Kind} (hk : k.isCell = false) :
    (temp t).Usable (S.add t k) :=
  ⟨k, S.kinds_add_self t k, hk⟩

end Value

/-! ## Instructions -/

/-- Which parameters are arrays: those of the function itself, and those of
the functions that it calls. -/
structure Signatures where
  own : List Bool
  /-- Those of other functions, by name. -/
  wants : String → List Bool

/-- Every argument is known, and those for arrays are addresses. -/
def ArgsFit (wants : List Bool) (S : Known) (vs : List Value) : Prop :=
  (∀ v ∈ vs, v.Usable S) ∧
    ∀ (i : Nat) (v : Value), wants[i]? = some true → vs[i]? = some v → v.Points S

variable (sig : Signatures)

/-- **What an instruction does to what is known**, if it is permitted: one that
stays in the block and is no phi. -/
inductive Step : Known → Instr → Known → Prop
  | alloca {S t k} : k.isCell = true → Step S ⟨some t, .alloca⟩ (S.add t k)
  | array {S t n} : 0 < n → Step S ⟨some t, .array n⟩ (S.settled.add t (.object n))
  | loadCell {S t s} : S.kinds s = some .cell →
    Step S ⟨some t, .load (.temp s)⟩ (S.busy.add t .data)
  | loadPointer {S t s} : S.kinds s = some .pointerCell →
    Step S ⟨some t, .load (.temp s)⟩ (S.busy.add t .pointer)
  | load {S t a} : a.Points S → Step S ⟨some t, .load a⟩ (S.busy.add t .data)
  | storeCell {S v s} : S.kinds s = some .cell → v.Usable S →
    Step S ⟨none, .store v (.temp s)⟩ S.busy
  | storeArg {S i s isArray} : S.args = true → sig.own[i]? = some isArray →
    S.kinds s = some (.ofParameter isArray) →
    Step S ⟨none, .store (.arg i) (.temp s)⟩ S
  | store {S v a} : a.Points S → v.Usable S → Step S ⟨none, .store v a⟩ S.busy
  | binary {S t op a b} : a.Usable S → b.Usable S →
    Step S ⟨some t, .binary op a b⟩ (S.busy.add t .data)
  | compare {S t op a b} : a.Usable S → b.Usable S →
    Step S ⟨some t, .compare op a b⟩ (S.busy.add t .data)
  | zext {S t v} : v.Usable S → Step S ⟨some t, .zext v⟩ (S.busy.add t .data)
  | element {S t b o} : b.Points S → o.Usable S →
    Step S ⟨some t, .element b o⟩ (S.busy.add t .pointer)
  | call {S t f vs} : ArgsFit (sig.wants f) S vs →
    Step S ⟨some t, .call f vs⟩ (S.busy.add t .data)
  | callVoid {S f vs} : ArgsFit (sig.wants f) S vs → Step S ⟨none, .call f vs⟩ S.busy

def Op.isPhi : Op → Bool
  | phi .. => true
  | _ => false

/-- An operation that ends a block reads only what is known. -/
def Op.Ends (S : Known) : Op → Prop
  | jump _ | retVoid => True
  | branch v _ _ | ret v => v.Usable S
  | _ => False

theorem Op.Ends.mono {S S' : Known} {op : Op} (h : op.Ends S) (hsub : Known.Sub S S') :
    op.Ends S' := by
  cases op with
  | branch | ret => exact Value.Usable.mono h hsub
  | _ => exact h

theorem Op.Ends.not_isPhi {S : Known} {op : Op} (h : op.Ends S) : op.isPhi = false := by
  cases op with
  | phi => cases h
  | _ => rfl

/-- An operation that ends a block reads what is known. -/
theorem Op.Ends.known_of_operand {S : Known} {op : Op} (h : op.Ends S) {t : Temp}
    (ht : .temp t ∈ op.operands) : ∃ k, S.kinds t = some k := by
  cases op with
  | branch | ret =>
    obtain rfl := mem_singleton.1 ht
    obtain ⟨k, hk, -⟩ := h
    exact ⟨k, hk⟩
  | jump | retVoid => cases ht
  | _ => cases h

namespace Step

variable {sig : Signatures} {S S' : Known} {i : Instr} {t : Temp} {k : Kind} {n : Nat}

/-- What is known after an instruction was known before, or is its result. -/
theorem kinds_of (h : Step sig S i S') (ht : S'.kinds t = some k) :
    i.output = some t ∨ S.kinds t = some k := by
  cases h with
  | storeCell | storeArg | store | callVoid => exact .inr ht
  | array =>
    rcases Known.eq_or_of_kinds_add ht with ⟨rfl, -⟩ | ⟨-, ht⟩
    · exact .inl rfl
    · exact .inr (S.settled_sub ht)
  | _ =>
    rcases Known.eq_or_of_kinds_add ht with ⟨rfl, -⟩ | ⟨-, ht⟩
    · exact .inl rfl
    · exact .inr ht

/-- An instruction reads what is known. -/
theorem known_of_operand (h : Step sig S i S') (ht : .temp t ∈ i.op.operands) :
    ∃ k, S.kinds t = some k := by
  have husable : ∀ {v : Value}, .temp t = v → v.Usable S → ∃ k, S.kinds t = some k := by
    rintro _ rfl ⟨k, hk, -⟩
    exact ⟨k, hk⟩
  cases h with
  | alloca | array => cases ht
  | loadCell hs | loadPointer hs =>
    cases mem_singleton.1 ht
    exact ⟨_, hs⟩
  | load ha => exact husable (mem_singleton.1 ht) ha.usable
  | storeCell hs hv =>
    rcases mem_pair.1 ht with ht | ht
    · exact husable ht hv
    · cases ht
      exact ⟨_, hs⟩
  | storeArg _ _ hs =>
    rcases mem_pair.1 ht with ht | ht
    · cases ht
    · cases ht
      exact ⟨_, hs⟩
  | store ha hv => exact (mem_pair.1 ht).elim (husable · hv) (husable · ha.usable)
  | binary ha hb | compare ha hb =>
    exact (mem_pair.1 ht).elim (husable · ha) (husable · hb)
  | zext hv => exact husable (mem_singleton.1 ht) hv
  | element hb ho => exact (mem_pair.1 ht).elim (husable · hb.usable) (husable · ho)
  | call hvs | callVoid hvs => exact husable rfl (hvs.1 _ ht)

theorem below_define {op : Op} (h : Step sig S ⟨some n, op⟩ S') (hS : S.Below n) :
    S'.Below (n + 1) := by
  intro t k ht
  rcases h.kinds_of ht with hout | ht
  · cases hout
    exact Nat.lt_succ_self _
  · exact Nat.lt_succ_of_lt (hS ht)

theorem below_perform {op : Op} (h : Step sig S ⟨none, op⟩ S') (hS : S.Below n) : S'.Below n := by
  intro t k ht
  rcases h.kinds_of ht with hout | ht
  · cases hout
  · exact hS ht

theorem not_isTerminator (h : Step sig S i S') : i.op.isTerminator = false := by
  cases h <;> rfl

theorem not_isPhi (h : Step sig S i S') : i.op.isPhi = false := by
  cases h <;> rfl

theorem copies (h : Step sig S i S') : i.copies = [] := by
  cases h <;> rfl

end Step

/-! ## Straight code -/

/-- **Straight code that is permitted**: its results are the temporaries from
`n` on, one after the other. -/
inductive Straight (sig : Signatures) : Known → Nat → List Instr → Known → Nat → Prop
  | nil {S n} : Straight sig S n [] S n
  | define {S n op S1 is S' n'} : Step sig S ⟨some n, op⟩ S1 → Straight sig S1 (n + 1) is S' n' →
    Straight sig S n (⟨some n, op⟩ :: is) S' n'
  | perform {S n op S1 is S' n'} : Step sig S ⟨none, op⟩ S1 → Straight sig S1 n is S' n' →
    Straight sig S n (⟨none, op⟩ :: is) S' n'

namespace Straight

variable {sig : Signatures} {S S1 S' : Known} {n n1 n' : Nat} {is is' : List Instr} {op : Op}

theorem append (h : Straight sig S n is S1 n1) (h' : Straight sig S1 n1 is' S' n') :
    Straight sig S n (is ++ is') S' n' := by
  induction h with
  | nil => exact h'
  | define hstep _ ih => exact .define hstep (ih h')
  | perform hstep _ ih => exact .perform hstep (ih h')

theorem known_below (h : Straight sig S n is S' n') (hS : S.Below n) : S'.Below n' := by
  induction h with
  | nil => exact hS
  | define hstep _ ih => exact ih (hstep.below_define hS)
  | perform hstep _ ih => exact ih (hstep.below_perform hS)

theorem le (h : Straight sig S n is S' n') : n ≤ n' := by
  induction h with
  | nil => exact Nat.le_refl _
  | define _ _ ih => exact Nat.le_of_succ_le ih
  | perform _ _ ih => exact ih

/-- The results are the temporaries that are handed out. -/
theorem output_iff (h : Straight sig S n is S' n') {t : Temp} :
    (∃ i ∈ is, i.output = some t) ↔ n ≤ t ∧ t < n' := by
  induction h with
  | nil => exact ⟨fun ⟨_, hi, _⟩ => absurd hi not_mem_nil, fun ht => absurd ht.2 (Nat.not_lt.2 ht.1)⟩
  | define hstep hrest ih =>
    simp only [mem_cons, or_and_right, exists_or, exists_eq_left, ih, Option.some.injEq]
    constructor
    · rintro (rfl | ⟨hn, ht⟩)
      · exact ⟨Nat.le_refl _, hrest.le⟩
      · exact ⟨Nat.le_of_succ_le hn, ht⟩
    · rintro ⟨hn, ht⟩
      exact (Nat.eq_or_lt_of_le hn).imp_right fun hlt => ⟨hlt, ht⟩
  | perform hstep _ ih =>
    simpa only [mem_cons, or_and_right, exists_or, exists_eq_left, reduceCtorEq, false_or] using ih

theorem copies (h : Straight sig S n is S' n') {i : Instr} (hi : i ∈ is) : i.copies = [] := by
  induction h with
  | nil => cases hi
  | define hstep _ ih | perform hstep _ ih =>
    rcases mem_cons.1 hi with rfl | hi
    · exact hstep.copies
    · exact ih hi

theorem result (h : Step sig S ⟨some n, op⟩ S') : Straight sig S n [⟨some n, op⟩] S' (n + 1) :=
  .define h .nil

theorem effect (h : Step sig S ⟨none, op⟩ S') : Straight sig S n [⟨none, op⟩] S' n :=
  .perform h .nil

end Straight

end SysY.IR
