/-!
# Checked arithmetic

Numbers are counted in a fixed width, and the result of each operation is
checked against it. Where no operation makes a number smaller, checking each
of them is checking the last one: a loop overflows exactly when its total does.
-/

namespace SysY

/-- A number, if it is below `limit`. -/
def checked (limit n : Nat) : Option Nat := if n < limit then some n else none

/-- The number of values of a word. -/
def wordLimit : Nat := 0x100000000

variable {limit : Nat}

/-- A number that is checked on the way to a larger one is checked by it. -/
theorem checked_bind {n : Nat} {f : Nat → Nat} (h : n ≤ f n) :
    ((checked limit n).bind fun n => checked limit (f n)) = checked limit (f n) := by
  unfold checked
  by_cases hn : n < limit
  · rw [if_pos hn, Option.bind_some]
  · rw [if_neg hn, Option.bind_none, if_neg (by omega)]

/-- **A loop overflows exactly when its total does.** -/
theorem checked_foldlM {α : Type} {f : Nat → α → Nat} {ds : List α}
    (h : ∀ d ∈ ds, ∀ n, n ≤ f n d) (n : Nat) :
    (checked limit n).bind (ds.foldlM fun n d => checked limit (f n d)) =
      checked limit (ds.foldl f n) := by
  induction ds generalizing n with
  | nil => exact Option.bind_fun_some _
  | cons d ds ih =>
    rw [List.forall_mem_cons] at h
    have hstep : ((checked limit n).bind fun n => checked limit (f n d)) = checked limit (f n d) :=
      checked_bind (h.1 n)
    simp only [List.foldlM_cons, Option.bind_eq_bind]
    rw [List.foldl_cons, ← ih h.2, ← hstep, Option.bind_assoc]

theorem foldlM_checked {α : Type} {f : Nat → α → Nat} {ds : List α}
    (h : ∀ d ∈ ds, ∀ n, n ≤ f n d) {n : Nat} (hn : n < limit) :
    ds.foldlM (fun n d => checked limit (f n d)) n = checked limit (ds.foldl f n) := by
  rw [← checked_foldlM h, checked, if_pos hn, Option.bind_some]

end SysY
