import SysY.FrontEnd
import SysY.Proofs.Grammar.Sound
import SysY.Proofs.Lower.Sizes
import SysY.Proofs.Scan
import SysY.Proofs.WellFormed

/-!
# Programs that lowering has an answer for

Lowering a program gives a module or an error that stands somewhere, unless a
size cannot be counted where it is needed. Acceptance does not see to that: the
judgement looks at no size. So there are accepted programs that lowering has no
answer for, and this module says which: only those that declare a variable that
is not `countable`.
-/

namespace SysY

namespace Lower

/-! ## Variables that do not fit -/

section Oversized

variable {dims : List Nat} {d : Definition}

theorem checkedWords_oversized (hlarge : maxWords < volume dims)
    (hcount : volume dims < 0x8000000000000000) (name : Ident) :
    checkedWords dims name = fail name.span (.badDimension (volume dims)) := by
  unfold checkedWords
  dsimp only
  rw [if_neg (Nat.not_le.2 hlarge), if_pos hcount]

/-- A global variable that does not fit is refused at its name. -/
theorem lowerGlobals_oversized {symbols : Symbols} (hdims : evalDims symbols d.dims = .ok dims)
    (hlarge : maxWords < volume dims) (hcount : volume dims < 0x8000000000000000)
    (constant : Bool) (ds : List Definition) :
    lowerGlobals constant symbols (d :: ds) = fail d.name.span (.badDimension (volume dims)) := by
  rw [lowerGlobals, hdims]
  show (checkedWords dims d.name >>= _) = _
  rw [checkedWords_oversized hlarge hcount]
  rfl

/-- A step that draws on no supply and gives something. -/
theorem lift_ok_bind {α β : Type} (a : α) (f : α → Gen β) :
    ((liftM (.ok a : Except Stop α) : Gen α) >>= f) = f a := rfl

/-- A local variable that does not fit is refused at its name, if nothing is
wrong with its initial value. -/
theorem lowerDefinition_oversized {ctx : Context} (hdims : evalDims ctx.symbols d.dims = .ok dims)
    (hlarge : maxWords < volume dims)
    (hcount : volume dims < if d.init.isSome then 0x100000000 else 0x8000000000000000)
    {constant : Bool}
    (hknown : constant = true → ∀ i, d.init = some i →
      ∃ ks, evalItems ctx.symbols (layOut dims i.value) = .ok ks) (σ : Supply) :
    lowerDefinition constant ctx d σ = fail d.name.span (.badDimension (volume dims)) := by
  have hitems : definitionItems dims d.init = .ok (d.init.map fun i => layOut dims i.value) := by
    cases hi : d.init with
    | none => rfl
    | some i =>
      rw [hi, Option.isSome_some, if_pos rfl] at hcount
      rw [definitionItems, wordVolume, if_pos hcount]
      rfl
  obtain ⟨ks, hks⟩ : ∃ ks, knownValues constant ctx.symbols
      (d.init.map fun i => layOut dims i.value) = .ok ks := by
    cases constant with
    | false => exact ⟨none, rfl⟩
    | true =>
      cases hi : d.init with
      | none => exact ⟨none, rfl⟩
      | some i =>
        obtain ⟨ks, hks⟩ := hknown rfl i hi
        exact ⟨some ks, by rw [Option.map_some, knownValues, hks]; rfl⟩
  have hcount' : volume dims < 0x8000000000000000 := Nat.lt_of_lt_of_le hcount (by split <;> decide)
  have harray : ¬ dims.isEmpty = true := fun h => by
    rw [List.isEmpty_iff.1 h] at hlarge
    exact absurd hlarge (by decide)
  rw [lowerDefinition, hdims, lift_ok_bind, hitems, lift_ok_bind, hks, lift_ok_bind, if_neg harray,
    checkedWords_oversized hlarge hcount']
  rfl

end Oversized

end Lower

/-! ## Texts -/

variable {p : Program}

/-- A program is spelled by the tokens that it is parsed from. -/
theorem Program.spelled_of_parse {tokens : List (Located Token)} {p : Program}
    (h : Program.parse tokens = .ok p) : p.spell = tokens.map (·.value) := by
  rw [(Program.exact_of_parse h).map_value, p.tokens_outline]

variable {text literal : String}

/-- The literals of a program that a text spells have a value. -/
theorem Program.valued_of_ofText (h : Program.ofText text = .ok p)
    (hliteral : .number literal ∈ p.spell) : Scan.Valued (.number literal) := by
  obtain ⟨tokens, htokens, hparse⟩ := Program.ofText_ok h
  obtain ⟨t, ht, hvalue⟩ := List.mem_map.1 (Program.spelled_of_parse hparse ▸ hliteral)
  exact hvalue ▸ Scan.valued_of_tokens htokens ht

/-- They can be decoded. -/
theorem Program.boundary_of_ofText (h : Program.ofText text = .ok p)
    (hliteral : .number literal ∈ p.spell) : Literal.boundary 2 literal.toList = true := by
  obtain ⟨n, hn⟩ := Program.valued_of_ofText h hliteral
  exact Scan.boundary_of_value hn

open Lower (volume maxWords evalDims evalItems layOut lowerGlobals lowerDefinition fail Context Symbols
  Supply) in
/-- **Lowering has an answer** for every program whose variables can be counted:
a module or an error that stands somewhere.

A fault comes from a variable that is not countable, or from a literal whose
first two bytes end inside a character, which no text has. If there is a module,
all variables fit; each has as many values as words if it is a constant, so that
subscripts in range select one, and a function has no more temporaries than
instructions. A global or local variable that can be counted but does not fit is
refused at its name, wherever it is declared. The sizes of parameters are not
looked at. -/
theorem Program.lower_answers (p : Program) :
    (∀ f, p.lower.result = .error (.fault f) →
      (f = .sizeOverflow ∧ ∃ v ∈ p.declared, v.countable = false) ∨
      (f = .splitCharacter ∧ ∃ literal, .number literal ∈ p.spell ∧
        Literal.boundary 2 literal.toList = false)) ∧
    (∀ text, Program.ofText text = .ok p → p.lower.result ≠ .error (.fault .splitCharacter)) ∧
    (∀ m, p.lower.result = .ok m →
      (∀ v ∈ p.declared, v.storage ≠ .parameter → volume v.dims ≤ maxWords) ∧
      ∀ f ∈ m.functions, f.temps ≤ f.instrs.length) ∧
    (∀ v ∈ p.declared, ∀ ks, v.values = some ks → ∀ (is : List Int32) k, is.length = v.dims.length →
      Source.position 0 is v.dims = some k → k < ks.length) ∧
    (∀ (constant : Bool) (symbols : Symbols) (d : Definition) ds dims,
      evalDims symbols d.dims = .ok dims → maxWords < volume dims →
      volume dims < 0x8000000000000000 →
      lowerGlobals constant symbols (d :: ds) = fail d.name.span (.badDimension (volume dims))) ∧
    ∀ (constant : Bool) (ctx : Context) (d : Definition) dims (σ : Supply),
      evalDims ctx.symbols d.dims = .ok dims → maxWords < volume dims →
      volume dims < (if d.init.isSome then 0x100000000 else 0x8000000000000000) →
      (constant = true → ∀ i, d.init = some i →
        ∃ ks, evalItems ctx.symbols (layOut dims i.value) = .ok ks) →
      lowerDefinition constant ctx d σ = fail d.name.span (.badDimension (volume dims)) := by
  have hunits : Lower.Answers (fun f =>
      (f = .sizeOverflow ∧ ∃ v ∈ p.declared, v.countable = false) ∨
      (f = .splitCharacter ∧ ∃ literal, .number literal ∈ p.spell ∧
        Literal.boundary 2 literal.toList = false)) p.lower.result
      fun _ => ∀ v ∈ p.declared, v.fits = true :=
    Lower.lowerUnits_answers [] .start
      (fun u hu literal hliteral hsplit =>
        .inr ⟨rfl, literal, List.mem_flatMap.2 ⟨u, hu, hliteral⟩, hsplit⟩)
      fun v hv hcount => .inl ⟨rfl, v, hv, hcount⟩
  refine ⟨fun f hf => ?_, fun text htext hf => ?_, fun m hm => ⟨fun v hv hstorage => ?_, ?_⟩, ?_, ?_, ?_⟩
  · rw [hf] at hunits
    exact hunits
  · rw [hf] at hunits
    obtain ⟨hfault, -⟩ | ⟨-, literal, hliteral, hsplit⟩ := hunits
    · cases hfault
    · rw [Program.boundary_of_ofText htext hliteral] at hsplit
      cases hsplit
  · rw [hm] at hunits
    have hfits := hunits v hv
    rw [Declared.fits, Bool.or_eq_true, decide_eq_true_eq, decide_eq_true_eq] at hfits
    exact hfits.resolve_left hstorage
  · intro f hf
    obtain ⟨_, ps, htyped⟩ := Program.lower_typed hm hf
    have houtputs := congrArg List.length htyped.outputs
    rw [List.length_range, ← htyped.instrs_eq] at houtputs
    exact houtputs ▸ List.length_filterMap_le _ _
  · intro v _ ks hks is k hlength hposition
    have hk := Lower.position_lt hlength Nat.one_pos hposition
    rwa [Nat.one_mul, ← v.sized ks hks] at hk
  · intro constant symbols d ds dims hdims hlarge hcount
    exact Lower.lowerGlobals_oversized hdims hlarge hcount constant ds
  · intro constant ctx d dims σ hdims hlarge hcount hknown
    exact Lower.lowerDefinition_oversized hdims hlarge hcount hknown σ

namespace Source.Sample

/-- A program with a constant array, from which the dimensions of others come,
and an array parameter:

    const int n[2] = {2, 3};
    int g[n[0]][n[1]] = {{1, 2}, {3}};
    int f(int a[][n[1]]) { int b[n[0] + 1] = {4}; return a[1][0] + b[0]; }
    int main() { return f(g); }
-/
def matrix : Program where
  units := [
    .decl ⟨true, array "n" [num "2"] (row [num "2", num "3"]), []⟩,
    .decl ⟨false, array "g" [get "n" [num "0"], get "n" [num "1"]]
      (some (.list default [row [num "1", num "2"], row [num "3"]])), []⟩,
    .function (function "f" [⟨ident "a", some [get "n" [num "1"]]⟩] <|
      .decl ⟨false, array "b" [add (get "n" [num "0"]) (num "1")] (row [num "4"]), []⟩ <|
      ret (add (get "a" [num "1", num "0"]) (get "b" [num "0"]))),
    .function (function "main" [] (ret (call "f" [get "g"])))]

/-- A program with one local array, which may have an initial value:
`int main() { int a[n]...[n] = {1}; return 0; }`. -/
def localArray (dims : List String) (init : Option InitVal) : Program where
  units := [.function (function "main" [] <|
    .decl ⟨false, array "a" (dims.map num) init, []⟩ (ret (num "0")))]

/-- A program in which a row of an array parameter is passed on, if it is:

    int g(int a[][65536]) { return 0; }
    int f(int a[][65536][65536]) { return g(a[1]); }
-/
def largeRow (value : Expr) : Program where
  units := [
    .function (function "g" [⟨ident "a", some [num "65536"]⟩] (ret (num "0"))),
    .function (function "f" [⟨ident "a", some [num "65536", num "65536"]⟩] (ret value))]

end Source.Sample

open Source.Sample

theorem Program.lower_answers_matrix :
    matrix.accepted = true ∧ (∃ m, matrix.lower.result = .ok m) ∧
      matrix.declared.map (fun v => (v.name.value, v.dims, v.values))
        = [("n", [2], some [2, 3]), ("g", [2, 3], none), ("a", [0, 3], none), ("b", [3], none)] ∧
      (∀ v ∈ matrix.declared, v.countable = true) ∧
      (∀ v ∈ matrix.declared, v.storage ≠ .parameter →
        Lower.volume v.dims ≤ Lower.maxWords) ∧
      matrix.lower.result ≠ .error (.fault .sizeOverflow) := by
  have hcountable : ∀ v ∈ matrix.declared, v.countable = true := by decide +kernel
  obtain ⟨hfaults, -, hfits, -⟩ := Program.lower_answers matrix
  obtain ⟨m, hm⟩ : ∃ m, matrix.lower.result = .ok m :=
    exists_ok (by decide +kernel)
  refine ⟨by decide +kernel, ⟨m, hm⟩, by decide +kernel, hcountable, (hfits m hm).1, fun hfault => ?_⟩
  obtain ⟨-, v, hv, hcount⟩ | ⟨hsplit, -⟩ := hfaults _ hfault
  · rw [hcountable v hv] at hcount
    cases hcount
  · cases hsplit

/-- Acceptance alone is not enough. There is no answer for a local array with an
initial value that needs 33 bits to count its words, nor for one without that
needs 64; nor for a row of a parameter, while the parameter alone is lowered
whatever its size. -/
theorem Program.accepted_lower_sizeOverflow :
    ((localArray ["65536", "65536"]
        (row [num "1"])).accepted = true ∧
      (localArray ["65536", "65536"]
        (row [num "1"])).lower.result
        = .error (.fault .sizeOverflow)) ∧
    ((localArray ["2097152", "2097152", "2097152"] none).accepted = true ∧
      (localArray ["2097152", "2097152", "2097152"] none).lower.result
        = .error (.fault .sizeOverflow)) ∧
    ((largeRow (call "g"
        [get "a" [num "1"]])).accepted = true ∧
      (largeRow (call "g"
        [get "a" [num "1"]])).lower.result
        = .error (.fault .sizeOverflow)) ∧
    (largeRow (num "0")).accepted = true ∧
      (largeRow (num "0")).lower.result.toOption.isSome = true :=
  ⟨⟨by decide +kernel, rfl⟩, ⟨by decide +kernel, rfl⟩, ⟨by decide +kernel, rfl⟩, by decide +kernel,
    by decide +kernel⟩

end SysY
