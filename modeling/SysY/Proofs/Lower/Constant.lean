import SysY.Proofs.Lower.Shape
import SysY.Proofs.Source

/-!
# What is known when a program is compiled

Two facts about compile-time evaluation. The value of a constant expression
depends on the environment only through what it says of constants and of
dimensions, so two environments that agree on these give the same values. And
the layout of an initial value has one entry for each word of the variable: what
the meaning of programs says that the word is initialised with.
-/

namespace SysY

open List Source

/-- Induction over initial values, with the lists that they are made of. -/
theorem InitVal.induction {P : InitVal → Prop} (expr : ∀ e, P (.expr e))
    (list : ∀ span items, (∀ i ∈ items, P i) → P (.list span items)) (i : InitVal) : P i :=
  @InitVal.rec P (fun is => ∀ i ∈ is, P i) expr list (fun _ h => absurd h not_mem_nil)
    (fun _ _ hhead htail => forall_mem_cons.2 ⟨hhead, htail⟩) i

mutual

/-- The expressions of an initial value. -/
def InitVal.exprs : InitVal → List Expr
  | expr e => [e]
  | list _ items => InitVal.exprsAll items

def InitVal.exprsAll : List InitVal → List Expr
  | [] => []
  | i :: is => i.exprs ++ InitVal.exprsAll is

end

variable {e : Expr}

theorem InitVal.mem_exprsAll {is : List InitVal} :
    e ∈ InitVal.exprsAll is ↔ ∃ i ∈ is, e ∈ i.exprs := by
  induction is with
  | nil => simp [InitVal.exprsAll]
  | cons i is ih => simp [InitVal.exprsAll, ih]

variable {sizes : List Nat} {items : List InitVal}

namespace Lower

/-! ## Constants -/

/-- A symbol without its address. -/
def Symbol.known : Symbol → Symbol
  | scalar _ k => .scalar (.const 0) k
  | array _ dims k => .array (.address (.const 0)) dims k

/-- Two environments know the same names, and the same of them. -/
def SameKnown (A B : Symbols) : Prop :=
  ∀ name, (A.lookup name).map Symbol.known = (B.lookup name).map Symbol.known

variable {A B : Symbols} {span : Span} {es : List Expr} {dims : List Nat}

theorem evalConst_lval {name : Ident} {indices : List Expr} {n : Int32}
    (h : evalConst A (.lval span name indices) = .ok n) :
    (∃ v, A.lookup name.value = some (.scalar v (some n))) ∨
    ∃ base dims values k, A.lookup name.value = some (.array base dims (some values)) ∧
      indices.length = dims.length ∧ evalOffset A span 0 indices dims = .ok k ∧
      values[k]? = some n := by
  rw [evalConst] at h
  obtain ⟨s, hs, h⟩ := except_bind_ok.1 h
  have hlookup := resolve_ok hs
  split at h
  next v n' =>
    split at h
    · cases h
      exact .inl ⟨v, hlookup⟩
    · cases h
  next base dims values =>
    split at h
    next hlength =>
      obtain ⟨k, hk, h⟩ := except_bind_ok.1 h
      split at h
      next hn =>
        cases h
        exact .inr ⟨base, dims, values, k, hlookup, hlength, hk, hn⟩
      next => cases h
    next => cases h
  next => cases h

/-- A subscript that is in range goes on from the offset of those before it. -/
theorem evalOffset_cons {offset size k : Nat}
    (h : evalOffset A span offset (e :: es) (size :: sizes) = .ok k) :
    ∃ i next, evalConst A e = .ok i ∧ offsetStep offset size i = some next ∧
      evalOffset A span next es sizes = .ok k := by
  rw [evalOffset] at h
  obtain ⟨i, hi, h⟩ := except_bind_ok.1 h
  cases hstep : offsetStep offset size i with
  | none =>
    rw [hstep] at h
    cases h
  | some next =>
    rw [hstep] at h
    exact ⟨i, next, hi, hstep, h⟩

theorem evalOffset_known (hes : ∀ e ∈ es, evalConst A e = evalConst B e) (offset : Nat)
    (sizes : List Nat) : evalOffset A span offset es sizes = evalOffset B span offset es sizes := by
  induction es generalizing offset sizes with
  | nil => rw [evalOffset, evalOffset] <;> simp
  | cons e es ih =>
    cases sizes with
    | nil => rw [evalOffset, evalOffset] <;> simp
    | cons size sizes =>
      rw [evalOffset, evalOffset, hes e mem_cons_self]
      refine bind_congr fun n => ?_
      cases offsetStep offset size n with
      | none => rfl
      | some next => exact ih (fun e he => hes e (mem_cons_of_mem _ he)) next sizes

section Known

variable (hAB : SameKnown A B)
include hAB

/-- **Constants do not depend on addresses.** -/
theorem evalConst_known (e : Expr) : evalConst A e = evalConst B e := by
  induction e using Expr.induction with
  | number span text | call span callee args => rw [evalConst, evalConst]
  | paren span e ih | unary span op e ih => rw [evalConst, evalConst, ih]
  | binary span op a b iha ihb => rw [evalConst, evalConst, iha, ihb]
  | lval span name indices ih =>
    have hname := hAB name.value
    rw [evalConst, evalConst, Symbols.resolve, Symbols.resolve]
    generalize A.lookup name.value = s, B.lookup name.value = s' at hname ⊢
    rcases s with _ | ⟨v, k⟩ | ⟨base, dims, k⟩ <;>
      rcases s' with _ | ⟨v', k'⟩ | ⟨base', dims', k'⟩ <;> cases hname
    · rfl
    · cases k <;> rfl
    · cases k with
      | none => rfl
      | some values =>
        show (if indices.length = dims.length then evalOffset A span 0 indices dims >>= _ else _)
          = if indices.length = dims.length then evalOffset B span 0 indices dims >>= _ else _
        rw [evalOffset_known ih]

theorem evalDims_known (es : List Expr) : evalDims A es = evalDims B es := by
  induction es with
  | nil => rfl
  | cons e es ih => rw [evalDims, evalDims, evalConst_known hAB, ih]

theorem evalItems_known (items : List (Option Expr)) : evalItems A items = evalItems B items := by
  induction items with
  | nil => rfl
  | cons item items ih =>
    cases item with
    | none => rw [evalItems, evalItems, ih]
    | some e => rw [evalItems, evalItems, evalConst_known hAB, ih]

end Known

theorem evalItems_length {items : List (Option Expr)} {ks : List Int32}
    (h : evalItems A items = .ok ks) : ks.length = items.length := by
  induction items generalizing ks with
  | nil =>
    cases h
    rfl
  | cons item items ih =>
    cases item with
    | none =>
      rw [evalItems] at h
      obtain ⟨rest, hrest, h⟩ := except_bind_ok.1 h
      cases h
      rw [length_cons, length_cons, ih hrest]
    | some e =>
      rw [evalItems] at h
      obtain ⟨n, -, h⟩ := except_bind_ok.1 h
      obtain ⟨rest, hrest, h⟩ := except_bind_ok.1 h
      cases h
      rw [length_cons, length_cons, ih hrest]

/-- What is known of a definition's words is known of all of them, and only if
it is constant. -/
theorem knownValues_ok {constant : Bool} {items : Option (List (Option Expr))}
    {constants : Option (List Int32)} (h : knownValues constant A items = .ok constants) :
    (∀ l, constants = some l → l.length = (items.getD []).length) ∧
      (constants = none → constant = false ∨ items = none) := by
  unfold knownValues at h
  split at h
  next items' =>
    obtain ⟨l, hl, h⟩ := except_bind_ok.1 h
    cases h
    refine ⟨?_, fun hnone => by cases hnone⟩
    rintro _ ⟨⟩
    exact evalItems_length hl
  next hcases =>
    cases h
    refine ⟨fun _ hsome => (by cases hsome), fun _ => ?_⟩
    cases constant with
    | false => exact .inl rfl
    | true =>
      cases items with
      | none => exact .inr rfl
      | some items => exact absurd rfl (hcases items rfl)

/-- The dimensions of an array are positive. -/
theorem evalDims_pos (h : evalDims A es = .ok dims) : ∀ d ∈ dims, 0 < d := by
  induction es generalizing dims with
  | nil =>
    cases h
    exact fun _ h => absurd h not_mem_nil
  | cons e es ih =>
    rw [evalDims] at h
    obtain ⟨n, -, h⟩ := except_bind_ok.1 h
    split at h
    next hpos =>
      obtain ⟨ds, hds, h⟩ := except_bind_ok.1 h
      cases h
      exact forall_mem_cons.2 ⟨by omega, ih hds⟩
    next => cases h

/-! ## Layouts -/

theorem volume_pos (h : ∀ d ∈ dims, 0 < d) : 0 < volume dims := by
  induction dims with
  | nil => exact Nat.one_pos
  | cons d ds ih =>
    rw [forall_mem_cons] at h
    exact Nat.mul_pos h.1 (ih h.2)

/-- **Multiplying dimensions overflows exactly when their volume does.** -/
theorem foldlM_volume (hpos : ∀ d ∈ dims, 0 < d) {limit : Nat} (hlimit : 1 < limit) :
    dims.foldlM (fun n d => checked limit (n * d)) 1 = checked limit (volume dims) := by
  have hvolume (n : Nat) : dims.foldl (· * ·) n = n * volume dims := by
    clear hpos
    induction dims generalizing n with
    | nil => exact (Nat.mul_one n).symm
    | cons d ds ih => rw [foldl_cons, ih, volume, Nat.mul_assoc]
  rw [foldlM_checked (fun d hd n => Nat.le_mul_of_pos_right n (hpos d hd)) hlimit, hvolume,
    Nat.one_mul]

/-- The words of a row are multiplied out in 32 bits. -/
theorem wordVolume_eq (hpos : ∀ d ∈ dims, 0 < d) :
    wordVolume dims = (dims.foldlM (fun n d => checked wordLimit (n * d)) 1).elim
      (.error (.fault .sizeOverflow)) .ok := by
  rw [foldlM_volume hpos (by decide), wordVolume, checked, wordLimit]
  split <;> rfl

/-- The words of an array are multiplied out in 32 bits, and once more in 64
bits where there are too many. -/
theorem checkedWords_eq (hpos : ∀ d ∈ dims, 0 < d) (name : Ident) :
    checkedWords dims name =
      ((dims.foldlM (fun n d => checked wordLimit (n * d)) 1).filter (· ≤ maxWords)).elim
        ((dims.foldlM (fun n d => checked 0x8000000000000000 (n * d)) 1).elim
          (.error (.fault .sizeOverflow)) fun total => fail name.span (.badDimension total)) .ok := by
  rw [foldlM_volume hpos (by decide), foldlM_volume hpos (by decide)]
  simp only [checkedWords, checked, wordLimit, maxWords]
  grind

/-- An array is made of rows. -/
theorem volume_tail_dvd (dims : List Nat) : volume dims.tail ∣ volume dims := by
  cases dims with
  | nil => exact Nat.dvd_refl _
  | cons d ds => exact Nat.dvd_mul_left _ _

theorem le_roundUp {n stride : Nat} (h : 0 < stride) : n ≤ roundUp n stride := by
  unfold roundUp
  have hdiv := Nat.div_add_mod (n + stride - 1) stride
  have hmod := Nat.mod_lt (n + stride - 1) h
  rw [Nat.mul_comm] at hdiv
  omega

/-- A row that begins inside of an array ends inside of it. -/
theorem roundUp_add_le {n stride total : Nat} (hdvd : stride ∣ total)
    (h : roundUp n stride < total) : roundUp n stride + stride ≤ total := by
  obtain ⟨k, rfl⟩ := hdvd
  unfold roundUp at *
  rw [Nat.mul_comm stride k] at *
  have hlt : (n + stride - 1) / stride < k := Nat.lt_of_mul_lt_mul_right h
  rw [← Nat.succ_mul]
  exact Nat.mul_le_mul_right stride hlt

theorem itemSize_pos (hpos : ∀ d ∈ dims, 0 < d) (i : InitVal) : 0 < itemSize dims i := by
  cases i
  · exact Nat.one_pos
  · exact volume_pos hpos

/-- An item begins at the first multiple of its size, be it a list or not. -/
theorem layItems_cons (dims : List Nat) (filled : Nat) (i : InitVal) (is : List InitVal) :
    layItems dims filled (i :: is) =
      if roundUp filled (itemSize dims.tail i) < volume dims then
        replicate (roundUp filled (itemSize dims.tail i) - filled) none ++ layItem dims.tail i ++
          layItems dims (roundUp filled (itemSize dims.tail i) + itemSize dims.tail i) is
      else replicate (volume dims - filled) none := by
  rw [layItems]
  cases i <;> simp [isList, itemSize, roundUp]

theorem layItems_length {filled : Nat}
    (hitems : ∀ i ∈ items, (layItem dims.tail i).length = itemSize dims.tail i)
    (hpos : ∀ d ∈ dims, 0 < d) (hfilled : filled ≤ volume dims) :
    (layItems dims filled items).length = volume dims - filled := by
  induction items generalizing filled with
  | nil =>
    rw [layItems]
    exact length_replicate
  | cons i is ih =>
    obtain ⟨hitem, hrest⟩ := forall_mem_cons.1 hitems
    have hle : filled ≤ roundUp filled (itemSize dims.tail i) :=
      le_roundUp (itemSize_pos (fun d hd => hpos d (mem_of_mem_tail hd)) i)
    have hdvd : itemSize dims.tail i ∣ volume dims := by
      cases i
      · exact Nat.one_dvd _
      · exact volume_tail_dvd dims
    rw [layItems_cons]
    split
    next hstart =>
      have hend := roundUp_add_le hdvd hstart
      rw [length_append, length_append, length_replicate, hitem, ih hrest hend]
      omega
    next => exact length_replicate

theorem layItem_length (i : InitVal) : ∀ {dims : List Nat}, (∀ d ∈ dims, 0 < d) →
    (layItem dims i).length = itemSize dims i := by
  induction i using InitVal.induction with
  | expr e =>
    intro dims _
    rw [layItem]
    rfl
  | list span items ih =>
    intro dims hpos
    rw [layItem, layItems_length (fun i hi => ih i hi fun d hd => hpos d (mem_of_mem_tail hd))
      hpos (Nat.zero_le _)]
    rfl

/-- **Every word of a variable has an entry** in the layout of its initial
value. -/
theorem layOut_length (hpos : ∀ d ∈ dims, 0 < d) (i : InitVal) :
    (layOut dims i).length = volume dims := by
  have hvolume := volume_pos hpos
  cases i with
  | expr e =>
    rw [layOut, length_cons, length_replicate]
    omega
  | list span items =>
    have hlist := layItem_length (.list span items) hpos
    rwa [layItem] at hlist

/-- The words of a list from number `next` on are what they are initialised
with. -/
theorem layItems_getElem? {next : Nat}
    (hitems : ∀ i ∈ items, ∀ n < itemSize dims.tail i,
      (layItem dims.tail i)[n]? = some (itemAt dims.tail n i))
    (hpos : ∀ d ∈ dims, 0 < d) (hle : next ≤ n) (hn : n < volume dims) :
    (layItems dims next items)[n - next]? = some (listAt dims n next items) := by
  induction items generalizing next with
  | nil => rw [layItems, listAt, getElem?_replicate, if_pos (by omega)]
  | cons i is ih =>
    obtain ⟨hitem, hrest⟩ := forall_mem_cons.1 hitems
    have hrow : ∀ d ∈ dims.tail, 0 < d := fun d hd => hpos d (mem_of_mem_tail hd)
    have hfirst := le_roundUp (itemSize_pos hrow i) (n := next)
    rw [layItems_cons, listAt]
    generalize roundUp next (itemSize dims.tail i) = start at hfirst ⊢
    split
    next =>
      rw [append_assoc, getElem?_append, getElem?_append, length_replicate, layItem_length i hrow,
        Nat.sub_sub_sub_cancel_right hfirst, Nat.sub_sub, getElem?_replicate]
      by_cases h : n < start
      · rw [if_pos (by omega), if_pos (by omega), if_pos h]
      · rw [if_neg (by omega), if_neg h]
        by_cases h' : n < start + itemSize dims.tail i
        · rw [if_pos (by omega), if_pos h', hitem _ (by omega)]
        · rw [if_neg (by omega), if_neg h', ih hrest (by omega)]
    next => rw [getElem?_replicate, if_pos (by omega), if_pos (by omega)]

theorem layItem_getElem? (i : InitVal) : ∀ {dims : List Nat}, (∀ d ∈ dims, 0 < d) →
    ∀ n < itemSize dims i, (layItem dims i)[n]? = some (itemAt dims n i) := by
  induction i using InitVal.induction with
  | expr e =>
    intro dims _ n hn
    obtain rfl : n = 0 := Nat.lt_one_iff.1 hn
    rw [layItem, itemAt]
    rfl
  | list span items ih =>
    intro dims hpos n hn
    rw [layItem, itemAt]
    exact layItems_getElem? (fun i hi => ih i hi fun d hd => hpos d (mem_of_mem_tail hd)) hpos
      (Nat.zero_le n) hn

/-- **The layout of an initial value is where its expressions go.** -/
theorem layOut_eq_initialWords (hpos : ∀ d ∈ dims, 0 < d) (i : InitVal) :
    layOut dims i = initialWords dims i := by
  refine ext_getElem? fun n => ?_
  rw [initialWords, getElem?_map]
  by_cases hn : n < volume dims
  · rw [getElem?_range hn]
    cases i with
    | expr e =>
      rw [layOut, Option.map_some, itemAt]
      cases n with
      | zero => rfl
      | succ n => rw [getElem?_cons_succ, getElem?_replicate, if_pos (by omega), if_neg (by simp)]
    | list span items =>
      have hword := layItem_getElem? (.list span items) hpos n hn
      rw [layItem] at hword
      rw [layOut, hword]
      rfl
  · rw [getElem?_eq_none (by rw [layOut_length hpos]; omega), getElem?_eq_none (by simpa using hn)]
    rfl

/-! ## Expressions of initial values -/

theorem mem_of_join_head? {α : Type} {items : Option (List (Option α))} {a : α}
    (h : (items.bind (·.head?)).join = some a) : some a ∈ items.getD [] := by
  obtain ⟨as, rfl, has⟩ := Option.bind_eq_some_iff.1 (Option.join_eq_some_iff.1 h)
  exact mem_of_head? has

theorem layItems_sublist
    (hitems : ∀ i ∈ items, ((layItem dims.tail i).filterMap id).Sublist i.exprs) (filled : Nat) :
    ((layItems dims filled items).filterMap id).Sublist (InitVal.exprsAll items) := by
  induction items generalizing filled with
  | nil => simp [layItems, filterMap_replicate_of_none]
  | cons i is ih =>
    rw [layItems_cons, InitVal.exprsAll]
    split
    · rw [filterMap_append, filterMap_append, filterMap_replicate_of_none rfl,
        nil_append]
      exact (hitems i mem_cons_self).append
        (ih (fun j hj => hitems j (mem_cons_of_mem _ hj)) _)
    · rw [filterMap_replicate_of_none rfl]
      exact nil_sublist _

theorem layItem_sublist (i : InitVal) :
    ∀ dims, ((layItem dims i).filterMap id).Sublist i.exprs := by
  induction i using InitVal.induction with
  | expr e =>
    intro dims
    rw [layItem]
    exact Sublist.refl [e]
  | list span items ih =>
    intro dims
    rw [layItem]
    exact layItems_sublist (fun i hi => ih i hi dims.tail) 0

/-- **What is laid out are expressions of the initial value**, each at most once
and in their order. -/
theorem layOut_sublist (dims : List Nat) (i : InitVal) :
    ((layOut dims i).filterMap id).Sublist i.exprs := by
  cases i with
  | expr e =>
    simp [layOut, InitVal.exprs, filterMap_replicate_of_none]
  | list span items =>
    have hitem := layItem_sublist (.list span items) dims
    rwa [layItem] at hitem

theorem mem_exprs_of_mem_layOut {i : InitVal} (he : some e ∈ layOut dims i) : e ∈ i.exprs :=
  (layOut_sublist dims i).subset (mem_filterMap.2 ⟨_, he, rfl⟩)

end Lower

end SysY
