import Mathlib.Data.Set.Function
import SysY.Proofs.Lower.Constant

/-!
# The order of the words of an array

The words of an array are in row-major order: a subscript counts how many
elements or rows of its dimension come before, and each of these has as many
words as the dimensions after it make (`rowMajor`). Subscripts in range find a
word of the array, different subscripts find different words, and every word is
found (`rowMajor_bijOn`).

An initial value is laid out over these words. Where it is braced as the
dimensions are, each of its expressions is at the word that its path selects. In
general, an expression takes the next word and a list the next row, so that what
is inside of a list shows in one row only (`layOut_places`).
-/

namespace SysY

open List Source

variable {n : Nat}

namespace Lower

/-- **The row-major offset**, in words, of the element or the row that subscripts
select in an array with these dimensions. -/
def rowMajor : List Nat → List Nat → Nat
  | _ :: ds, i :: is => i * volume ds + rowMajor ds is
  | _, _ => 0

/-- There is a dimension for each subscript, and the subscript is in its range. -/
def InRange : List Nat → List Nat → Prop
  | _, [] => True
  | [], _ :: _ => False
  | d :: ds, i :: is => i < d ∧ InRange ds is

section

variable {dims is js : List Nat}

@[simp] theorem rowMajor_nil (dims : List Nat) : rowMajor dims [] = 0 := by cases dims <;> rfl

theorem InRange.length_le (h : InRange dims is) : is.length ≤ dims.length := by
  induction is generalizing dims with
  | nil => exact Nat.zero_le _
  | cons i is ih =>
    cases dims with
    | nil => exact h.elim
    | cons d ds => exact Nat.succ_le_succ (ih h.2)

theorem InRange.take (h : InRange dims is) (j : Nat) : InRange dims (is.take j) := by
  induction is generalizing dims j with
  | nil => simp [InRange]
  | cons i is ih =>
    cases dims with
    | nil => exact h.elim
    | cons d ds =>
      cases j with
      | zero => trivial
      | succ j => exact ⟨h.1, ih h.2 j⟩

/-- What subscripts in range select is inside of the array. -/
theorem rowMajor_add_volume_le (h : InRange dims is) :
    rowMajor dims is + volume (dims.drop is.length) ≤ volume dims := by
  induction is generalizing dims with
  | nil => simp
  | cons i is ih =>
    cases dims with
    | nil => exact h.elim
    | cons d ds =>
      calc rowMajor (d :: ds) (i :: is) + volume ((d :: ds).drop (i :: is).length)
          = i * volume ds + (rowMajor ds is + volume (ds.drop is.length)) := Nat.add_assoc ..
        _ ≤ i * volume ds + volume ds := Nat.add_le_add_left (ih h.2) _
        _ = (i + 1) * volume ds := (Nat.succ_mul ..).symm
        _ ≤ volume (d :: ds) := Nat.mul_le_mul_right _ h.1

theorem rowMajor_lt (h : InRange dims is) (hlength : is.length = dims.length) :
    rowMajor dims is < volume dims := by
  have hle := rowMajor_add_volume_le h
  rw [hlength, drop_length] at hle
  exact hle

/-- Different subscripts select different words. -/
theorem rowMajor_inj (hi : InRange dims is) (hj : InRange dims js) (hilen : is.length = dims.length)
    (hjlen : js.length = dims.length) (h : rowMajor dims is = rowMajor dims js) : is = js := by
  induction dims generalizing is js with
  | nil => rw [length_eq_zero_iff.1 hilen, length_eq_zero_iff.1 hjlen]
  | cons d ds ih =>
    obtain ⟨i, is, rfl⟩ := exists_cons_of_length_eq_add_one hilen
    obtain ⟨j, js, rfl⟩ := exists_cons_of_length_eq_add_one hjlen
    have hri := rowMajor_lt hi.2 (Nat.succ.inj hilen)
    have hrj := rowMajor_lt hj.2 (Nat.succ.inj hjlen)
    have hrows : i * volume ds + rowMajor ds is = j * volume ds + rowMajor ds js := h
    -- the row is the quotient, and what is in it the remainder
    have hdiv := congrArg (· / volume ds) hrows
    have hmod := congrArg (· % volume ds) hrows
    simp only [Nat.mul_comm _ (volume ds), Nat.mul_add_mod, Nat.mod_eq_of_lt hri,
      Nat.mod_eq_of_lt hrj, Nat.mul_add_div (Nat.zero_lt_of_lt hri), Nat.div_eq_of_lt hri,
      Nat.div_eq_of_lt hrj] at hdiv hmod
    rw [show i = j from hdiv, ih hi.2 hj.2 (Nat.succ.inj hilen) (Nat.succ.inj hjlen) hmod]

/-- Every word is selected. -/
theorem exists_rowMajor_eq (hn : n < volume dims) :
    ∃ is, is.length = dims.length ∧ InRange dims is ∧ rowMajor dims is = n := by
  induction dims generalizing n with
  | nil => exact ⟨[], rfl, trivial, (Nat.lt_one_iff.1 hn).symm⟩
  | cons d ds ih =>
    have hn' : n < d * volume ds := hn
    have hpos : 0 < volume ds := Nat.pos_of_ne_zero fun h => by simp [h] at hn'
    obtain ⟨is, hlength, hrange, hoffset⟩ := ih (Nat.mod_lt n hpos)
    refine ⟨n / volume ds :: is, congrArg (· + 1) hlength, ⟨?_, hrange⟩, ?_⟩
    · exact (Nat.div_lt_iff_lt_mul hpos).2 hn'
    · rw [rowMajor, hoffset, Nat.mul_comm]
      exact Nat.div_add_mod n (volume ds)

/-- **Subscripts in range correspond to the words of the array.** -/
theorem rowMajor_bijOn (dims : List Nat) :
    Set.BijOn (rowMajor dims) {is | is.length = dims.length ∧ InRange dims is}
      {n | n < volume dims} := by
  refine ⟨fun is h => rowMajor_lt h.2 h.1, fun is hi js hj h => ?_, fun n hn => ?_⟩
  · exact rowMajor_inj hi.2 hj.2 hi.1 hj.1 h
  · obtain ⟨is, hlength, hrange, hoffset⟩ := exists_rowMajor_eq hn
    exact ⟨is, ⟨hlength, hrange⟩, hoffset⟩

end

end Lower

/-! ## Paths in initial values -/

namespace InitVal

/-- The expression at the end of a path, if there is one. -/
def leaf? : List Nat → InitVal → Option Expr
  | [], expr e => some e
  | j :: path, list _ items => items[j]?.bind (leaf? path)
  | _, _ => none

/-- Whether there is a list at the end of a path. -/
def hasList : List Nat → InitVal → Bool
  | [], list .. => true
  | j :: path, list _ items => items[j]?.any (hasList path)
  | _, _ => false

/-- An initial value with other contents of the list at the end of a path. -/
def replace (contents : List InitVal) : List Nat → InitVal → InitVal
  | [], list span _ => list span contents
  | j :: path, list span items => list span (items.modify j (replace contents path))
  | _, i => i

/-- **An initial value is braced as the dimensions are**: the expressions are as
deep as there are dimensions, and no list has more items than its dimension. -/
inductive Braced : List Nat → InitVal → Prop
  | expr (e : Expr) : Braced [] (.expr e)
  | list {d ds span items} : items.length ≤ d → (∀ i ∈ items, Braced ds i) →
    Braced (d :: ds) (.list span items)

end InitVal

variable {path : List Nat}

namespace Lower

section

variable {d : Nat} {ds dims : List Nat} {items : List InitVal} {i : InitVal}

/-! ## Braced values -/

theorem roundUp_mul (k : Nat) {stride : Nat} (h : 0 < stride) :
    roundUp (k * stride) stride = k * stride := by
  have hdiv : (k * stride + stride - 1) / stride = k := by
    rw [Nat.add_sub_assoc h, Nat.mul_comm, Nat.mul_add_div h, Nat.div_eq_of_lt (by omega), Nat.add_zero]
  rw [roundUp, hdiv]

theorem itemSize_of_braced (h : i.Braced dims) : itemSize dims i = volume dims := by cases h <;> rfl

/-- Where all items are braced, each of them is for the next row. -/
theorem listAt_of_braced (hpos : ∀ d ∈ ds, 0 < d) (hitems : ∀ i ∈ items, i.Braced ds) {k j r : Nat}
    (hr : r < volume ds) :
    listAt (d :: ds) ((k + j) * volume ds + r) (k * volume ds) items =
      items[j]?.bind (itemAt ds r) := by
  induction items generalizing k j with
  | nil => rfl
  | cons i is ih =>
    rw [forall_mem_cons] at hitems
    rw [listAt, tail_cons, itemSize_of_braced hitems.1, roundUp_mul k (volume_pos hpos)]
    cases j with
    | zero =>
      rw [Nat.add_zero, if_neg (by omega), if_pos (by omega), Nat.add_sub_cancel_left]
      rfl
    | succ j =>
      have hrest : k * volume ds + volume ds ≤ (k + (j + 1)) * volume ds := by
        rw [← Nat.succ_mul]
        exact Nat.mul_le_mul_right _ (by omega)
      rw [if_neg (by omega), if_neg (by omega), ← Nat.succ_mul,
        show k + (j + 1) = k.succ + j by omega, ih hitems.2]
      rfl

/-- **In a braced value, paths select words.** -/
theorem itemAt_of_braced (h : i.Braced dims) (hpos : ∀ d ∈ dims, 0 < d)
    (hlength : path.length = dims.length) (hrange : InRange dims path) :
    itemAt dims (rowMajor dims path) i = i.leaf? path := by
  induction h generalizing path with
  | expr e =>
    cases length_eq_zero_iff.1 hlength
    rfl
  | @list d ds span items _ hitems ih =>
    obtain ⟨j, path, rfl⟩ := exists_cons_of_length_eq_add_one hlength
    have hlength' : path.length = ds.length := Nat.succ.inj hlength
    rw [forall_mem_cons] at hpos
    have hrow := listAt_of_braced (d := d) hpos.2 hitems (k := 0) (j := j)
      (rowMajor_lt hrange.2 hlength')
    rw [Nat.zero_mul, Nat.zero_add] at hrow
    rw [itemAt, rowMajor, hrow, InitVal.leaf?]
    cases hj : items[j]? with
    | none => rfl
    | some i => exact ih i (mem_of_getElem? hj) hpos.2 hlength' hrange.2

/-! ## Contents of a list -/

/-- Words depend on the contents of a list, if at all, in one aligned row, not
before number `next`: there stand the words of the list. -/
def Confined (next width size : Nat) (g f : List InitVal → Nat → Option Expr) : Prop :=
  (∀ c, ∀ n < size, f c n = f [] n) ∨ ∃ first, next ≤ first ∧ width ∣ first ∧ first + width ≤ size ∧
    ∀ c, ∀ n < size, f c n = if n < first ∨ first + width ≤ n then f [] n else g c (n - first)

theorem itemSize_replace {c : List InitVal} (h : i.hasList path = true) :
    itemSize dims (i.replace c path) = volume dims := by
  cases i with
  | expr => cases path <;> cases h
  | list => cases path <;> rfl

/-- A list is for a row, and what comes after it does not depend on its
contents. -/
theorem listAt_confined {width j : Nat} {g : List InitVal → Nat → Option Expr}
    (hpos : ∀ d ∈ dims.tail, 0 < d) (hwidth : width ∣ volume dims.tail) (hi : items[j]? = some i)
    (hlist : i.hasList path = true)
    (hconfined : Confined 0 width (volume dims.tail) g fun c n =>
      itemAt dims.tail n (i.replace c path)) (next : Nat) :
    Confined next width (volume dims) g fun c n =>
      listAt dims n next (items.modify j (InitVal.replace c path)) := by
  induction items generalizing next j with
  | nil => cases hi
  | cons i' is ih =>
    cases j with
    | zero =>
      cases hi
      have hle := le_roundUp (volume_pos hpos) (n := next)
      have hdvd : width ∣ roundUp next (volume dims.tail) :=
        Nat.dvd_trans hwidth (Nat.dvd_mul_left _ _)
      have hend := roundUp_add_le (n := next) (volume_tail_dvd dims)
      simp only [modify_zero_cons, listAt, itemSize_replace hlist]
      generalize roundUp next (volume dims.tail) = start at hle hdvd hend
      by_cases hstart : start < volume dims
      · obtain hsame | ⟨first, -, hfirst, hfits, hword⟩ := hconfined
        · exact .inl fun c n hn => by grind
        · exact .inr ⟨start + first, by omega, Nat.dvd_add hdvd hfirst, by omega, by grind⟩
      · exact .inl fun c n hn => by grind
    | succ j =>
      have hle := le_roundUp (itemSize_pos hpos i') (n := next)
      simp only [modify_succ_cons, listAt]
      generalize roundUp next (itemSize dims.tail i') = start at hle
      obtain hsame | ⟨first, hnext, hfirst, hfits, hword⟩ := ih hi (start + itemSize dims.tail i')
      · exact .inl fun c n hn => by grind
      · exact .inr ⟨first, by omega, hfirst, hfits, fun c n hn => by grind⟩

theorem volume_drop_dvd (dims : List Nat) (n : Nat) : volume (dims.drop n) ∣ volume dims := by
  induction n generalizing dims with
  | zero => exact Nat.dvd_refl _
  | succ n ih =>
    rw [← drop_tail]
    exact Nat.dvd_trans (ih dims.tail) (volume_tail_dvd dims)

/-- What is inside of a list shows in one row only. -/
theorem itemAt_confined (hpos : ∀ d ∈ dims, 0 < d) (h : i.hasList path = true) :
    Confined 0 (volume (dims.drop path.length)) (volume dims)
      (fun c n => listAt (dims.drop path.length) n 0 c) fun c n => itemAt dims n (i.replace c path) := by
  induction path generalizing dims i with
  | nil =>
    cases i with
    | expr => cases h
    | list span items =>
      refine .inr ⟨0, Nat.le_refl 0, Nat.dvd_zero _, by simp, fun c n hn => ?_⟩
      simp [InitVal.replace, itemAt, hn]
  | cons j path ih =>
    cases i with
    | expr => cases h
    | list span items =>
      rw [InitVal.hasList, Option.any_eq_true] at h
      obtain ⟨i, hi, h⟩ := h
      have hpos' : ∀ d ∈ dims.tail, 0 < d := fun d hd => hpos d (mem_of_mem_tail hd)
      have hinner := ih hpos' h
      rw [drop_tail] at hinner
      simp only [InitVal.replace, itemAt]
      refine listAt_confined hpos' ?_ hi h hinner 0
      rw [← drop_tail]
      exact volume_drop_dvd _ _

end

end Lower

/-- The list has some contents. -/
theorem InitVal.exists_replace_eq {i : InitVal} (h : i.hasList path = true) :
    ∃ contents, i.replace contents path = i := by
  induction path generalizing i with
  | nil =>
    cases i with
    | expr => cases h
    | list span items => exact ⟨items, rfl⟩
  | cons j path ih =>
    cases i with
    | expr => cases h
    | list span items =>
      rw [hasList, Option.any_eq_true] at h
      obtain ⟨i, hi, h⟩ := h
      obtain ⟨contents, hcontents⟩ := ih h
      obtain ⟨hj, rfl⟩ := List.getElem?_eq_some_iff.1 hi
      refine ⟨contents, ?_⟩
      rw [replace, modify_eq_take_cons_drop hj, hcontents, ← drop_eq_getElem_cons hj,
        take_append_drop]

namespace Lower

theorem layOut_getElem? {dims : List Nat} (hpos : ∀ d ∈ dims, 0 < d) (i : InitVal) (n : Nat) :
    (layOut dims i)[n]? = if n < volume dims then some (itemAt dims n i) else none := by
  rw [layOut_eq_initialWords hpos, initialWords, getElem?_map]
  split
  next hn => rw [getElem?_range hn, Option.map_some]
  next hn => rw [getElem?_eq_none (by simpa using hn), Option.map_none]

/-- **Each expression of an initial value has its word.**

There is a word for each element, and the expressions keep their order. If the
value is braced as the dimensions are, then paths select words. The contents of a
list, wherever it is, matter only to one aligned row, which has the words of the
list alone; or they do not matter, because the array ends before. -/
theorem layOut_places {dims : List Nat} (hpos : ∀ d ∈ dims, 0 < d) (i : InitVal) :
    (layOut dims i).length = volume dims ∧
    ((layOut dims i).filterMap id).Sublist i.exprs ∧
    (i.Braced dims → ∀ path, path.length = dims.length → InRange dims path →
      (layOut dims i)[rowMajor dims path]? = some (i.leaf? path)) ∧
    ∀ path, i.hasList path = true → ∃ first, volume (dims.drop path.length) ∣ first ∧
      first + volume (dims.drop path.length) ≤ volume dims ∧
      (∀ contents n, n < first ∨ first + volume (dims.drop path.length) ≤ n →
        (layOut dims (i.replace contents path))[n]? = (layOut dims i)[n]?) ∧
      ((∀ contents, layOut dims (i.replace contents path) = layOut dims i) ∨
        ∀ contents r, r < volume (dims.drop path.length) →
          (layOut dims (i.replace contents path))[first + r]? =
            (layItems (dims.drop path.length) 0 contents)[r]?) := by
  have hword := layOut_getElem? hpos
  refine ⟨layOut_length hpos i, layOut_sublist dims i, fun h path hlength hrange => ?_,
    fun path h => ?_⟩
  · rw [hword, if_pos (rowMajor_lt hrange hlength), itemAt_of_braced h hpos hlength hrange]
  · obtain ⟨own, hown⟩ := InitVal.exists_replace_eq h
    obtain hsame | ⟨first, -, hdvd, hfits, hrow⟩ := itemAt_confined hpos h
    · have hall : ∀ contents, layOut dims (i.replace contents path) = layOut dims i := by
        intro contents
        refine ext_getElem? fun n => ?_
        dsimp only at hsame
        rw [hword, hword]
        split
        next hn => rw [hsame contents n hn, ← hsame own n hn, hown]
        next => rfl
      exact ⟨0, Nat.dvd_zero _, by simpa using Nat.le_of_dvd (volume_pos hpos) (volume_drop_dvd _ _),
        fun contents n _ => by rw [hall], .inl hall⟩
    · dsimp only at hrow
      refine ⟨first, hdvd, hfits, fun contents n hn => ?_, .inr fun contents r hr => ?_⟩
      · have hsame (c : List InitVal) (hlt : n < volume dims) := (hrow c n hlt).trans (if_pos hn)
        rw [hword, hword]
        split
        next hlt => rw [hsame contents hlt, ← hsame own hlt, hown]
        next => rfl
      · have hlist := @layOut_getElem? (dims.drop path.length)
          (fun d hd => hpos d (mem_of_mem_drop hd)) (.list default contents) r
        rw [layOut, if_pos hr] at hlist
        rw [hword, if_pos (by omega), hrow contents _ (by omega), if_neg (by omega),
          Nat.add_sub_cancel_left, hlist]
        rfl

/-- The value of `int a[3][2] = {{1, 2}, {3}};`. -/
def pairs : InitVal :=
  .list default [.list default [.expr (.number default "1"), .expr (.number default "2")],
    .list default [.expr (.number default "3")]]

/-- The number 3 is at the third word, and only two words depend on the contents
of its list. -/
theorem layOut_places_pairs :
    (layOut [3, 2] pairs).length = 6 ∧
    (layOut [3, 2] pairs)[2]? = some (some (.number default "3")) ∧
    ∃ first, 2 ∣ first ∧ ∀ contents n, n < first ∨ first + 2 ≤ n →
      (layOut [3, 2] (pairs.replace contents [1]))[n]? = (layOut [3, 2] pairs)[n]? := by
  obtain ⟨hlength, -, hleaf, hrow⟩ := @layOut_places [3, 2] (by decide) pairs
  have hbraced : pairs.Braced [3, 2] := by
    refine .list (by decide) (List.forall_mem_cons.2 ⟨?_, List.forall_mem_singleton.2 ?_⟩)
    · exact .list (by decide)
        (List.forall_mem_cons.2 ⟨.expr _, List.forall_mem_singleton.2 (.expr _)⟩)
    · exact .list (by decide) (List.forall_mem_singleton.2 (.expr _))
  obtain ⟨first, hdvd, -, hrest, -⟩ := hrow [1] rfl
  exact ⟨hlength, hleaf hbraced [1, 0] rfl ⟨by decide, by decide, trivial⟩, first, hdvd, hrest⟩

end Lower

end SysY
