import SysY.Proofs.Interpreter
import SysY.Proofs.Lower.Program

/-!
# Lowering keeps the meaning of programs

When a function of an accepted program runs to its end, so does the function
of the module that it is lowered to, in the interpreter of modules: with the
same result, and with the same words in memory wherever the program has set
one. As the words of the global variables are the first ones of memory, this
is so of the contents of the global variables in particular.
-/

namespace SysY

open List

/-! ## What the program's memory is in words -/

/-- A value as a word: an array is passed by the address of its first word. -/
def Source.Val.word : Source.Val → Int
  | int n => n.toInt
  | array r => r.start
  | void => 0

/-- The words hold what memory does, where something was written. -/
structure Source.Memory.HeldBy (mem : Source.Memory) (words : List Int) : Prop where
  length : words.length = mem.length
  /-- What was written is there. -/
  word : ∀ {a v}, mem.read a = some v → words[a]? = some v.word

variable {words : List Int} {v : Source.Val} {mem : Source.Memory}

namespace Lower

/-- The word of the strict machine for a value: an array is an object of its
own. -/
def strictVal : Source.Val → IR.Val
  | .int n => .int n
  | .array r => .addr (.first r.start r.length)
  | .void => .int 0

theorem represents_strictVal (v : Source.Val) : Represents v (strictVal v) := by
  cases v with
  | int n => rfl
  | array r => exact ⟨r.start, r.length, 0, rfl, rfl, Nat.le_of_eq (Nat.zero_add _)⟩
  | void => rfl

theorem word_strictVal (v : Source.Val) : (strictVal v).word = v.word := by
  cases v with
  | int n => rfl
  | array r => exact Int.add_zero _
  | void => rfl

theorem Represents.word {w : IR.Val} (h : Represents v w) : w.word = v.word := by
  cases v with
  | int n =>
    cases h
    rfl
  | array r =>
    obtain ⟨base, size, k, rfl, hstart, -⟩ := h
    exact congrArg Nat.cast hstart
  | void =>
    cases h
    rfl

theorem Returns.resultWord {r : Option IR.Val} (h : Returns v r) : IR.resultWord r = v.word := by
  cases v with
  | int n =>
    cases h
    rfl
  | array r => cases h
  | void =>
    cases h
    rfl

/-- The program's memory as one of the strict machine. -/
def strictMemory (mem : Source.Memory) : IR.Memory := mem.map (Option.map strictVal)

theorem getElem?_strictMemory (mem : Source.Memory) (a : Nat) :
    (strictMemory mem)[a]?.join = (mem.read a).map strictVal := by
  unfold strictMemory Source.Memory.read
  rw [getElem?_map]
  cases mem[a]? <;> rfl

theorem refines_strictMemory (mem : Source.Memory) : Refines mem (strictMemory mem) where
  length := length_map ..
  read := by
    intro a v hv
    refine ⟨strictVal v, ?_, represents_strictVal v⟩
    rw [getElem?_strictMemory, hv]
    rfl

theorem heldBy_strictMemory (h : mem.HeldBy words) :
    (strictMemory mem).HeldBy words where
  length := h.length.trans (length_map ..).symm
  word := by
    intro a w hw
    rw [getElem?_strictMemory] at hw
    obtain ⟨v, hv, rfl⟩ := Option.map_eq_some_iff.1 hw
    rw [word_strictVal]
    exact h.word hv

theorem Refines.heldBy {imem : IR.Memory} (h : Refines mem imem) (hheld : imem.HeldBy words) :
    mem.HeldBy words where
  length := hheld.length.trans h.length
  word := by
    intro a v hv
    obtain ⟨w, hw, hrep⟩ := h.read hv
    rw [hheld.word hw, hrep.word]

/-- The strict machine ends the calls that the program ends. -/
theorem calls_of_runs {p : Program} {m : IR.Module} (haccepted : p.accepted = true)
    (hlower : p.lower.result = .ok m) {name : String} {vs : List Source.Val} {final : Source.Memory}
    (hrun : Source.Runs p name vs mem v final) :
    ∃ r imem, IR.Calls m name (vs.map strictVal) (strictMemory mem) r imem ∧ Returns v r ∧
      Refines final imem := by
  obtain ⟨cs, fuel, hcs, hcall⟩ := hrun
  have hargs : List.Forall₂ Represents vs (vs.map strictVal) :=
    forall₂_map_right_iff.2 (forall₂_same.2 fun v _ => represents_strictVal v)
  exact callsMatch_of_accepted haccepted hlower hcs fuel hcall hargs (refines_strictMemory mem)

end Lower

/-! ## The theorem -/

/-- **Lowering preserves meaning.** Take a program that the checker accepts and
that is lowered to a module, and a run of one of its functions that ends, from
any memory and with any arguments. The interpreter of the module ends the call
of that function as well, from any words that hold this memory; it returns the
same, and its words hold the memory at the end. -/
theorem Program.lower_preserves_runs {p : Program} {m : IR.Module} (haccepted : p.accepted = true)
    (hlower : p.lower.result = .ok m) {name : String} {vs : List Source.Val} {mem : Source.Memory}
    {v : Source.Val} {final : Source.Memory} (hrun : Source.Runs p name vs mem v final)
    {words : List Int} (hwords : mem.HeldBy words) :
    ∃ fuel words', m.interpret fuel name (vs.map (·.word)) words = some (v.word, words') ∧
      final.HeldBy words' := by
  obtain ⟨r, imem', hcalls, hreturns, hrefines⟩ := Lower.calls_of_runs haccepted hlower hrun
  obtain ⟨steps, words', hinterpret, hheld⟩ := hcalls.interpret (Lower.heldBy_strictMemory hwords)
  refine ⟨steps, words', ?_, hrefines.heldBy hheld⟩
  rw [← hreturns.resultWord, ← hinterpret, List.map_map]
  simp only [Function.comp_def, Lower.word_strictVal]

open Source.Sample

theorem Program.lower_preserves_runs_sample :
    program.accepted = true ∧ ∃ m, program.lower.result = .ok m ∧
      ∃ fuel words', m.interpret fuel "main" [] [1, 2, 0] = some (1, words') ∧
        words'.take 3 = [1, 2, 1] := by
  obtain ⟨m, hm⟩ := program_lowers
  have hwords : before.HeldBy [1, 2, 0] := by
    refine ⟨rfl, fun {a v} ha => ?_⟩
    match a with
    | 0 | 1 | 2 =>
      cases ha
      rfl
    | a + 3 => cases ha
  obtain ⟨fuel, words', hrun, hheld⟩ := Program.lower_preserves_runs program_accepted
    hm program_runs hwords
  refine ⟨program_accepted, m, hm, fuel, words', hrun, ?_⟩
  have h0 : words'[0]? = some 1 :=
    hheld.word (show after.read 0 = some (.int 1) from rfl)
  have h1 : words'[1]? = some 2 :=
    hheld.word (show after.read 1 = some (.int 2) from rfl)
  have h2 : words'[2]? = some 1 :=
    hheld.word (show after.read 2 = some (.int 1) from rfl)
  simp [List.take_add_one, h0, h1, h2]

end SysY
