import SysY.Proofs.Lower.Ends
import SysY.Proofs.Lower.Expr
import SysY.Proofs.Lower.Layout

/-!
# Subscripts

The code for the address of an element does not add up products as the row-major
offset does (`rowMajor`). It goes from subscript to subscript, scales what it has
by the next dimension, and in the end by the size of a row. As an array has at
most `maxWords` words, nothing of this exceeds 32 bits, and the address that it
comes to is that of the array moved by the row-major offset
(`lowerAddress_rowMajor`). The first dimension does not occur in the code; so the
same holds of a parameter, whose first dimension is that of the array that is
passed.
-/

namespace SysY.Lower

open IR (Value Op Instr Label Temp Temps)
open List

/-! ## The way the code computes the offset -/

section

variable {dims path : List Nat}

theorem InRange.lt_volume (hpos : ∀ s ∈ dims.tail, 0 < s) (h : InRange dims path) {i : Nat}
    (hi : i ∈ path) : i < volume dims := by
  induction path generalizing dims with
  | nil => cases hi
  | cons j path ih =>
    cases dims with
    | nil => exact h.elim
    | cons d ds =>
      rcases mem_cons.1 hi with rfl | hi
      · exact Nat.lt_of_lt_of_le h.1 (Nat.le_mul_of_pos_right _ (volume_pos hpos))
      · have hlt := ih (fun s hs => hpos s (mem_of_mem_tail hs)) h.2 hi
        exact Nat.lt_of_lt_of_le hlt (Nat.le_mul_of_pos_left _ (Nat.zero_lt_of_lt h.1))

theorem offsetStep_of_lt {size i : Nat} (h : i < size) (hi : i ≤ maxWords) (offset : Nat) :
    offsetStep offset size (Int32.ofNat i) = some (offset * size + i) := by
  rw [offsetStep, toInt_ofNat_of_le hi, if_pos ⟨Int.natCast_nonneg i, Int.ofNat_lt.2 h⟩, Int.toNat_natCast]

/-- What is computed from subscript to subscript, scaled by the size of a row,
is the row-major offset. -/
theorem position_of_inRange (h : InRange dims path) (hfits : ∀ i ∈ path, i ≤ maxWords)
    (offset : Nat) :
    ∃ k, Source.position offset (path.map Int32.ofNat) dims = some k ∧
      k * volume (dims.drop path.length) = offset * volume dims + rowMajor dims path := by
  induction path generalizing dims offset with
  | nil => exact ⟨offset, rfl, by simp⟩
  | cons i path ih =>
    cases dims with
    | nil => exact h.elim
    | cons d ds =>
      rw [forall_mem_cons] at hfits
      obtain ⟨k, hk, hoffset⟩ := ih h.2 hfits.2 (offset * d + i)
      refine ⟨k, ?_, ?_⟩
      · rw [map_cons, Source.position, offsetStep_of_lt h.1 hfits.1]
        exact hk
      · rw [length_cons, drop_succ_cons, hoffset, rowMajor, volume, Nat.add_mul,
          Nat.mul_assoc, Nat.add_assoc]

/-- No number on the way exceeds the size of the array: not the position so far
scaled by the next dimension, nor that with the next subscript added. -/
theorem position_next_le {d : Nat} {ds : List Nat} (hpos : ∀ s ∈ ds, 0 < s)
    (h : InRange (d :: ds) path) (hfits : ∀ i ∈ path, i ≤ maxWords) {j k size : Nat}
    (hj : j ≤ path.length) (hk : Source.position 0 ((path.take j).map Int32.ofNat) (d :: ds) = some k)
    (hsize : (d :: ds)[j]? = some size) : (k + 1) * size ≤ volume (d :: ds) := by
  have hbound := rowMajor_add_volume_le (h.take j)
  obtain ⟨_, hk', hoffset⟩ := position_of_inRange (h.take j)
    (fun i hi => hfits i (mem_of_mem_take hi)) 0
  cases hk.symm.trans hk'
  rw [length_take_of_le hj] at hbound hoffset
  rw [Nat.zero_mul, Nat.zero_add] at hoffset
  obtain ⟨hlt, hget⟩ := List.getElem?_eq_some_iff.1 hsize
  have hdrop : volume ((d :: ds).drop j) = size * volume (ds.drop j) := by
    rw [drop_eq_getElem_cons hlt, hget]
    rfl
  have hrest : 0 < volume (ds.drop j) := volume_pos fun s hs => hpos s (mem_of_mem_drop hs)
  calc (k + 1) * size ≤ (k + 1) * volume ((d :: ds).drop j) := by
        rw [hdrop]
        exact Nat.mul_le_mul_left _ (Nat.le_mul_of_pos_right _ hrest)
    _ = rowMajor (d :: ds) (path.take j) + volume ((d :: ds).drop j) := by rw [Nat.succ_mul, hoffset]
    _ ≤ volume (d :: ds) := hbound

end

/-! ## Code and constants -/

section

variable {ctx : Context} {name : Ident} {base : Base} {d extent : Nat} {ds : List Nat}
  {ks : Option (List Int32)} {es : List Expr} {path : List Nat}

/-- There is code for an address if there is for the subscripts. -/
theorem exists_lowerAddress (hs : ctx.symbols.lookup name.value = some (.array base (d :: ds) ks))
    (hfits : volume (extent :: ds) ≤ maxWords) (hlength : path.length = es.length)
    (hrange : InRange (extent :: ds) path) (hes : ∀ e ∈ es, ∀ σ, ∃ r, lowerExpr ctx e σ = .ok r)
    (σ : Supply) : ∃ r, lowerAddress ctx name es σ = .ok r := by
  have hends : ∀ e ∈ es, GenEnds (fun _ => False) (lowerExpr ctx e) fun _ => True := by
    intro e he σ
    obtain ⟨r, hr⟩ := hes e he σ
    rw [hr]
    trivial
  have hresolve : ctx.symbols.resolve name = .ok (.array base (d :: ds) ks) := by
    unfold Symbols.resolve
    rw [hs]
  have haddress : GenEnds (fun _ => False) (lowerAddress ctx name es) fun _ => True := by
    refine lowerAddress_ends ?_ hends
    rw [hresolve]
    rintro _ _ _ ⟨⟩ e es rfl
    have hrow := rowMajor_add_volume_le hrange
    rw [hlength, length_cons, drop_succ_cons] at hrow
    have hwide : maxWords < 0x100000000 := by decide
    refine .inl ?_
    rw [length_cons, drop_succ_cons]
    omega
  have hend := haddress σ
  cases hr : lowerAddress ctx name es σ with
  | ok r => exact ⟨r, rfl⟩
  | error e =>
    rw [hr] at hend
    exact hend.elim

/-- The offset of a constant is that of its subscripts. -/
theorem evalOffset_of_position {symbols : Symbols} {span : Span} {is : List Int32} {offset k : Nat}
    {sizes : List Nat}
    (hes : Forall₂ (fun e i => evalConst symbols e = .ok i) es is)
    (hk : Source.position offset is sizes = some k) :
    evalOffset symbols span offset es sizes = .ok k := by
  induction hes generalizing offset sizes with
  | nil =>
    cases hk
    cases sizes <;> rfl
  | cons he _ ih =>
    cases sizes with
    | nil => cases hk
    | cons size sizes =>
      obtain ⟨next, hnext, hk⟩ := Option.bind_eq_some_iff.1 hk
      simp only [evalOffset, he, bind, Except.bind, hnext]
      exact ih hk

/-- **Subscripts are linearized in row-major order.** For an array of at most
`maxWords` words, in whose dimensions `extent` stands for the first one:

* if its subscripts can be lowered and come to values in range, there is code for the
  address; there is a scalar at it if and only if there are as many subscripts as
  dimensions; the code comes to the address of the array moved by an integer of
  32 bits that is the row-major offset exactly, and the offset in bytes fits as well;
  and what it computes on the way does not exceed the size of the array;
* full subscripts in range correspond to the words of the array;
* a constant is read at the same offset. -/
theorem lowerAddress_rowMajor (hs : ctx.symbols.lookup name.value = some (.array base (d :: ds) ks))
    (hpos : ∀ s ∈ ds, 0 < s) (hfits : volume (extent :: ds) ≤ maxWords) :
    (∀ {es path m args prev temps imem M p} {σ : Supply},
      (∀ e ∈ es, ∀ σ, ∃ r, lowerExpr ctx e σ = .ok r) → InRange (extent :: ds) path →
      base.At m args temps imem p → (∀ t, base = .address (.temp t) → t < σ.temps) →
      ComeTo m args prev ctx σ.temps temps (· = imem) es (path.map Int32.ofNat) M →
      ∃ code v scalar σ', ∃ n : Int32, lowerAddress ctx name es σ = .ok ((code, v, scalar), σ') ∧
        (scalar = true ↔ es.length = (d :: ds).length) ∧
        n.toInt = rowMajor (extent :: ds) path ∧ 4 * n.toInt ≤ 0x7fffffff ∧
        (∀ j k size, j ≤ path.length →
          Source.position 0 ((path.take j).map Int32.ofNat) (extent :: ds) = some k →
          (extent :: ds)[j]? = some size → (k + 1) * size ≤ maxWords) ∧
        Yields m args prev code σ.temps temps imem M fun temps' =>
          v.eval m args temps' = some (.addr (p.shift n))) ∧
    Set.BijOn (rowMajor (extent :: ds))
      {path | path.length = (extent :: ds).length ∧ InRange (extent :: ds) path}
      {n | n < volume (extent :: ds)} ∧
    ∀ {es path values} (span : Span), ks = some values → extent = d → es.length = (d :: ds).length →
      List.Forall₂ (fun e i => evalConst ctx.symbols e = .ok i) es (path.map Int32.ofNat) →
      InRange (d :: ds) path →
      evalConst ctx.symbols (.lval span name es) =
        (values[rowMajor (d :: ds) path]?).elim (fail span .notConstant) .ok := by
  have hsmall : ∀ {path}, InRange (extent :: ds) path → ∀ i ∈ path, i ≤ maxWords :=
    fun h _ hi => Nat.le_trans (Nat.le_of_lt (h.lt_volume (by exact hpos) hi)) hfits
  refine ⟨?_, rowMajor_bijOn _, ?_⟩
  · intro es path m args prev temps imem M p σ hlowers hrange hp hbelow hes
    have hlength : path.length = es.length := by simpa using hes.length_eq
    obtain ⟨⟨⟨code, v, scalar⟩, σ'⟩, hlower⟩ :=
      exists_lowerAddress hs hfits hlength hrange hlowers σ
    obtain ⟨k, hk, hoffset⟩ := position_of_inRange hrange (hsmall hrange) 0
    rw [Nat.zero_mul, Nat.zero_add] at hoffset
    obtain ⟨rfl, hyields⟩ := lowerAddress_yields (M := (· = imem)) hlower hs hp hbelow rfl hes hk
    have hshift : k * volume ((d :: ds).drop es.length) = rowMajor (extent :: ds) path := by
      rw [← hoffset, hlength]
      -- without subscripts the first extent is not looked at
      cases es with
      | nil =>
        cases List.length_eq_zero_iff.1 hlength
        cases hk
        simp
      | cons => rfl
    have hle : rowMajor (extent :: ds) path ≤ maxWords :=
      Nat.le_trans (Nat.le_of_add_right_le (rowMajor_add_volume_le hrange)) hfits
    rw [hshift] at hyields
    refine ⟨code, v, _, σ', Int32.ofNat _, hlower, ?_, toInt_ofNat_of_le hle, ?_, ?_,
      hyields.imp fun _ hv => hv.1⟩
    · have hmost := hrange.length_le
      simp only [Bool.and_eq_true, Bool.not_eq_true', List.isEmpty_eq_false_iff, ne_eq,
        ← List.length_eq_zero_iff, List.isEmpty_iff, List.length_drop, List.length_cons] at hmost ⊢
      omega
    · rw [toInt_ofNat_of_le hle]
      have hmax : maxWords = 0x7fffffff / 4 := rfl
      omega
    · intro j k size hj hk hsize
      exact Nat.le_trans (position_next_le hpos hrange (hsmall hrange) hj hk hsize) hfits
  · rintro es path values span rfl rfl hlength hes hrange
    obtain ⟨k, hk, hoffset⟩ := position_of_inRange hrange (hsmall hrange) 0
    have hfull : path.length = es.length := by simpa using hes.length_eq.symm
    rw [hfull, hlength, List.drop_length, Nat.zero_mul, Nat.zero_add,
      show k * volume [] = k from Nat.mul_one k] at hoffset
    subst hoffset
    have hresolve : ctx.symbols.resolve name = .ok (.array base (extent :: ds) (some values)) := by
      unfold Symbols.resolve
      rw [hs]
    simp only [evalConst, hresolve, bind, Except.bind, hlength, if_true,
      evalOffset_of_position hes hk]
    cases values[rowMajor (extent :: ds) path]? <;> rfl

/-- `const int a[2][3] = {{0, 1, 2}, {3, 4, 5}};` -/
def matrix : Context where
  symbols := [[("a", .array (.address (.global "a")) [2, 3] (some [0, 1, 2, 3, 4, 5]))]]
  functions := []

/-- The same as a global variable. -/
def matrixModule : IR.Module := ⟨[⟨"a", [0, 1, 2, 3, 4, 5]⟩], []⟩

open Source.Sample (ident num) in
/-- The element `a[1][2]` is the last word. -/
theorem lowerAddress_rowMajor_last :
    ∃ code v σ' temps', ∃ n : Int32,
      lowerAddress matrix (ident "a") [num "1", num "2"] {} = .ok ((code, v, true), σ') ∧
      n.toInt = 5 ∧ Steps matrixModule [] none code (fun _ => .int 0) [] temps' [] ∧
      v.eval matrixModule [] temps' = some (.addr ((IR.Pointer.first 0 6).shift n)) ∧
      evalConst matrix.symbols (.lval default (ident "a") [num "1", num "2"]) = .ok 5 := by
  have hs : matrix.symbols.lookup (ident "a").value =
      some (.array (.address (.global "a")) [2, 3] (some [0, 1, 2, 3, 4, 5])) := rfl
  have hfits : volume [2, 3] ≤ maxWords := by decide
  have hrange : InRange [2, 3] [1, 2] := ⟨by decide, by decide, trivial⟩
  obtain ⟨hcode, -, hconstant⟩ := lowerAddress_rowMajor hs (by decide) hfits
  have hlowers : ∀ text n, literal default text = .ok n → ∀ σ, ∃ r,
      lowerExpr matrix (num text) σ = .ok r := by
    intro text n hn σ
    rw [num, lowerExpr, hn]
    exact ⟨_, rfl⟩
  have hcomes : ∀ {text n} {M : IR.Memory → Prop}, literal default text = .ok n →
      ComesTo matrixModule [] none matrix 0 (fun _ => .int 0) M M (num text) n := by
    intro text n M hn σ σ' is v h _ temps' imem _ hmem
    obtain ⟨n', hn', rfl, rfl, rfl⟩ := lowerExpr_number h
    cases hn.symm.trans hn'
    exact .nil hmem ⟨rfl, by rintro _ ⟨⟩⟩
  have hes : ComeTo matrixModule [] none matrix 0 (fun _ => .int 0) (· = [])
      [num "1", num "2"] [1, 2] (· = []) :=
    .cons (hcomes rfl) (.cons (hcomes rfl) .nil)
  have hp : Base.At matrixModule [] (fun _ => .int 0) [] (.first 0 6) (.address (.global "a")) := rfl
  have hall : ∀ e ∈ [num "1", num "2"], ∀ σ, ∃ r, lowerExpr matrix e σ = .ok r :=
    List.forall_mem_cons.2 ⟨hlowers "1" 1 rfl, List.forall_mem_singleton.2 (hlowers "2" 2 rfl)⟩
  obtain ⟨code, v, scalar, σ', n, hlower, hscalar, hn, -, -, temps', _, hsteps, rfl, -, hv⟩ :=
    hcode (σ := {}) hall hrange hp (by rintro t ⟨⟩) hes
  cases hscalar.2 rfl
  refine ⟨code, v, σ', temps', n, hlower, hn, hsteps, hv, ?_⟩
  have hvalues : List.Forall₂ (fun e i => evalConst matrix.symbols e = .ok i) [num "1", num "2"] [1, 2] :=
    .cons rfl (.cons rfl .nil)
  exact hconstant default rfl rfl rfl hvalues hrange

end

end SysY.Lower
