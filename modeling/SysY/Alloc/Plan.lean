import SysY.Live.Interval

/-!
# Giving places to live intervals

Each temporary gets one place for its whole life: a register of a pool, or a
spill slot. The intervals are taken in the order of their starts. One that
begins while a register is free takes it. If none is, the occupant of a
register that lives longest has to make way, provided it lives longer than
the new interval: it moves to a slot *for its whole life*, also the part that
is over. Otherwise the new interval goes to a slot.

A slot may be given to an evicted interval only if it has been free since
that interval began; a slot therefore remembers since when it is free.
-/

namespace SysY

/-- Where a temporary is kept. -/
inductive Place (ρ : Type) where
  | register (r : ρ)
  | slot (n : Nat)
deriving DecidableEq, Repr

/-- A temporary in a place, and the last line at which it is live. -/
structure Occupant where
  temp : Nat
  /-- The last line of its interval. -/
  stop : Nat
deriving DecidableEq, Repr

/-- A register of the pool and who is in it. -/
structure Resident (ρ : Type) where
  reg : ρ
  occupant : Option Occupant
deriving DecidableEq, Repr

/-- A spill slot. -/
structure Slot where
  /-- The last line for which it is taken, if it is. -/
  takenUntil : Option Nat
  /-- The first line from which on it has been free. -/
  freeSince : Nat
deriving DecidableEq, Repr

def Slot.unused : Slot := ⟨none, 0⟩

variable {ρ : Type}

/-- Free the register if its occupant is dead at a line. -/
def Resident.expire (line : Nat) (r : Resident ρ) : Resident ρ :=
  { r with occupant := r.occupant.filter (line ≤ ·.stop) }

/-- Free the slot if it is taken for lines before `line` only. -/
def Slot.expire (line : Nat) (s : Slot) : Slot :=
  match s.takenUntil with
  | some stop => if stop < line then ⟨none, stop + 1⟩ else s
  | none => s

/-- Whether a slot can be given to an interval that began at a line. -/
def Slot.freeFrom (start : Nat) (s : Slot) : Bool := s.takenUntil.isNone && s.freeSince ≤ start

/-- Take the first slot that has been free for an interval, or a new one. -/
def takeSlot (i : Interval) : List Slot → Nat × List Slot
  | [] => (0, [⟨some i.stop, 0⟩])
  | s :: ss =>
    if s.freeFrom i.start then (0, { s with takenUntil := some i.stop } :: ss)
    else
      let (n, ss) := takeSlot i ss
      (n + 1, s :: ss)

/-- Take the first register that has a given occupant, or none, and say which it is. -/
def takeRegister (old : Option Occupant) (new : Occupant) :
    List (Resident ρ) → Option (ρ × List (Resident ρ))
  | [] => none
  | r :: rs =>
    if r.occupant = old then some (r.reg, { r with occupant := some new } :: rs)
    else (takeRegister old new rs).map fun (reg, rs) => (reg, r :: rs)

/-- The occupant that lives longest, and of those the latest temporary. -/
def Occupant.later (a b : Occupant) : Occupant :=
  if a.stop < b.stop ∨ a.stop = b.stop ∧ a.temp < b.temp then b else a

/-- Who has to make way for an interval that ends at a line: of the occupants
that live longer, the one that lives longest. -/
def victim? (stop : Nat) (rs : List (Resident ρ)) : Option Occupant :=
  ((rs.filterMap (·.occupant)).filter (stop < ·.stop)).foldl
    (fun best o => some (match best with
      | none => o
      | some b => b.later o)) none

structure Planning (ρ : Type) where
  residents : List (Resident ρ)
  slots : List Slot
  /-- The places given so far, by temporary. -/
  places : Array (Option (Place ρ))
  /-- The registers given so far, each once, in the order of their first use. -/
  used : List ρ

namespace Planning

/-- Everything that is dead at a line leaves its place. -/
def expire (line : Nat) (s : Planning ρ) : Planning ρ :=
  { s with residents := s.residents.map (·.expire line), slots := s.slots.map (·.expire line) }

/-- Note the place of a temporary. -/
def settle (t : Nat) (p : Place ρ) (s : Planning ρ) : Planning ρ :=
  { s with places := s.places.setIfInBounds t (some p) }

/-- Seat a temporary in a register, which counts as used from then on. -/
def seat [BEq ρ] (t : Nat) (r : ρ) (s : Planning ρ) : Planning ρ :=
  { settle t (.register r) s with used := if s.used.contains r then s.used else s.used ++ [r] }

/-- Give a slot to a temporary for an interval. -/
def spill (t : Nat) (i : Interval) (s : Planning ρ) : Planning ρ :=
  let (n, slots) := takeSlot i s.slots
  settle t (.slot n) { s with slots }

/-- Give a place to a temporary whose interval begins, when nothing that is
dead is left in a place. -/
def lodge [BEq ρ] (intervals : Array (Option Interval)) (t : Nat) (i : Interval)
    (s : Planning ρ) : Planning ρ :=
  let new : Occupant := ⟨t, i.stop⟩
  match takeRegister none new s.residents with
  | some (reg, residents) => seat t reg { s with residents }
  | none =>
    match victim? i.stop s.residents with
    | none => spill t i s
    | some old =>
      match takeRegister (some old) new s.residents with
      | none => spill t i s
      | some (reg, residents) =>
        let start := ((intervals[old.temp]?).join.getD i).start
        seat t reg (spill old.temp ⟨start, old.stop⟩ { s with residents })

end Planning

/-- The places of all temporaries. -/
structure Plan (ρ : Type) where
  /-- The place of each temporary, if it has an interval. -/
  places : Array (Option (Place ρ))
  slots : Nat
  /-- The registers that are used, in the order of the pool. -/
  used : List ρ

namespace Plan

/-- The temporaries with intervals, by start and then by number. -/
def order (intervals : Array (Option Interval)) : List (Nat × Interval) :=
  (intervals.toList.zipIdx.filterMap fun (i, t) => i.map (t, ·)).mergeSort
    fun a b => a.2.start < b.2.start || a.2.start = b.2.start && a.1 ≤ b.1

/-- The number of slots set aside from the start: by how much the largest
number of live temporaries exceeds the pool. -/
def reserved (pool : List ρ) (maxLive : Nat) : Nat := maxLive - pool.length

/-- The state from which planning starts. -/
def blank (intervals : Array (Option Interval)) (pool : List ρ) (maxLive : Nat) : Planning ρ where
  residents := pool.map (⟨·, none⟩)
  slots := List.replicate (reserved pool maxLive) Slot.unused
  places := Array.replicate intervals.size none
  used := []

/-- One step of planning: the dead leave, and the next interval gets a place. -/
def step [BEq ρ] (intervals : Array (Option Interval)) (s : Planning ρ) (next : Nat × Interval) :
    Planning ρ :=
  (s.expire next.2.start).lodge intervals next.1 next.2

/-- **Plan places for intervals** in a pool of registers. -/
def make [BEq ρ] (intervals : Array (Option Interval)) (pool : List ρ) (maxLive : Nat) : Plan ρ :=
  let final := (order intervals).foldl (step intervals) (blank intervals pool maxLive)
  { places := final.places
    slots := final.slots.length
    used := final.used.mergeSort fun a b => pool.idxOf a ≤ pool.idxOf b }

end Plan

end SysY
