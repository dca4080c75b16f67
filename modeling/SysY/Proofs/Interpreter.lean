import SysY.Proofs.Machine

/-!
# Interpreting a module

An interpreter for modules that runs. Its memory is a sequence of words,
each a number: an integer of 32 bits, or the address of a word, which is its
index. New words are zero, and an address is only looked at where it is used.
It is not strict in what it does with addresses and with words that were never
written, and so it does everything that the strict machine does
(`Run.interpret`): it forgets which object an address points into.

What the interpreter has no result for is an access outside of memory, a
division by zero, and a block that does not lead on. A call may take as many
steps as its *fuel*; more fuel does not change a result.
-/

namespace SysY.IR

open Option List

/-! ## The interpreter -/

/-- What a value stands for. -/
def Value.word (m : Module) (args : List Int) (temps : Temp → Int) : Value → Option Int
  | const n => some n.toInt
  | global name => (m.global? name).map fun p => (p.base : Int)
  | arg i => args[i]?
  | temp t => some (temps t)

def wordAt (words : List Int) (a : Int) : Option Int :=
  if 0 ≤ a then words[a.toNat]? else none

def setWord (words : List Int) (a w : Int) : Option (List Int) :=
  if 0 ≤ a ∧ a < words.length then some (words.set a.toNat w) else none

/-- What the values of a list stand for. -/
def wordsOf (m : Module) (args : List Int) (temps : Temp → Int) : List Value → Option (List Int)
  | [] => some []
  | v :: vs => do
    let w ← v.word m args temps
    let ws ← wordsOf m args temps vs
    return w :: ws

/-- What an operation asks for. -/
inductive Action where
  /-- To go on in the block, with a result and these words. -/
  | result (w : Int) (words : List Int)
  | goto (l : Label)
  | call (callee : String) (args : List Int)
  | leave (w : Int)
deriving DecidableEq, Repr

/-- **What an operation does**, in a block that was entered from `previous`. -/
def Op.action (m : Module) (args : List Int) (previous : Option Label) (temps : Temp → Int)
    (words : List Int) : Op → Option Action
  | alloca => some (.result words.length (words ++ [0]))
  | array n => some (.result words.length (words ++ List.replicate n 0))
  | load source => do
    let a ← source.word m args temps
    let w ← wordAt words a
    return .result w words
  | store value target => do
    let w ← value.word m args temps
    let a ← target.word m args temps
    let words ← setWord words a w
    return .result 0 words
  | binary op lhs rhs => do
    let a ← lhs.word m args temps
    let b ← rhs.word m args temps
    let n ← op.apply (Int32.ofInt a) (Int32.ofInt b)
    return .result n.toInt words
  | compare op lhs rhs => do
    let a ← lhs.word m args temps
    let b ← rhs.word m args temps
    return .result (truthValue (op.holds (Int32.ofInt a) (Int32.ofInt b))).toInt words
  | zext value => do
    let w ← value.word m args temps
    return .result w words
  | phi a fromA b fromB => do
    let w ← if previous = some fromA then a.word m args temps
      else if previous = some fromB then b.word m args temps
      else none
    return .result w words
  | element base offset => do
    let a ← base.word m args temps
    let n ← offset.word m args temps
    return .result (a + n) words
  | jump l => some (.goto l)
  | branch cond yes no => do
    let n ← cond.word m args temps
    return .goto (if n = 0 then no else yes)
  | call callee vs => do
    let ws ← wordsOf m args temps vs
    return .call callee ws
  | ret value => do
    let w ← value.word m args temps
    return .leave w
  | retVoid => some (.leave 0)

/-- The temporaries after an instruction gave a result. -/
def setTemp (temps : Temp → Int) (output : Option Temp) (w : Int) : Temp → Int :=
  match output with
  | some t => fun u => if u = t then w else temps u
  | none => temps

/-- **Interpret a function** from inside of a block on: what it returns, zero if
that is nothing, and the words at the end. -/
def Function.interpret (m : Module) : Nat → Function → List Int → Option Label → Label →
    List Instr → (Temp → Int) → List Int → Option (Int × List Int)
  | 0, _, _, _, _, _, _, _ => none
  | _ + 1, _, _, _, _, [], _, _ => none
  | fuel + 1, f, args, previous, current, i :: rest, temps, words =>
    match i.op.action m args previous temps words with
    | none => none
    | some (.leave w) => some (w, words)
    | some (.result w words) =>
      interpret m fuel f args previous current rest (setTemp temps i.output w) words
    | some (.goto l) => do
      let code ← f.code? l
      interpret m fuel f args (some current) l code temps words
    | some (.call callee ws) => do
      let g ← m.function? callee
      let l ← g.layout.head?
      let code ← g.code? l
      let (w, words) ← interpret m fuel g ws none l code (fun _ => 0) words
      interpret m fuel f args previous current rest (setTemp temps i.output w) words

/-- **Interpret a call** of a function of a module. -/
def Module.interpret (m : Module) (fuel : Nat) (name : String) (args words : List Int) :
    Option (Int × List Int) := do
  let f ← m.function? name
  let l ← f.layout.head?
  let code ← f.code? l
  Function.interpret m fuel f args none l code (fun _ => 0) words

/-! ## Fuel -/

variable {f : Function} {p : Pointer} {v : Value} {r : Option Val} {previous : Option Label}
  {is : List Instr} {current : Label}

/-- **More fuel does not change a result.** -/
theorem Function.interpret_mono {m : Module} {fuel fuel' : Nat} (hle : fuel ≤ fuel')
    {args : List Int} {temps : Temp → Int} {words : List Int} {r : Int × List Int}
    (h : interpret m fuel f args previous current is temps words = some r) :
    interpret m fuel' f args previous current is temps words = some r := by
  induction fuel generalizing fuel' f args previous current is temps words r with
  | zero => cases h
  | succ fuel ih =>
    obtain ⟨fuel', rfl⟩ := Nat.exists_eq_succ_of_ne_zero (Nat.ne_zero_of_lt hle)
    have hle := Nat.le_of_succ_le_succ hle
    cases is with
    | nil => cases h
    | cons i rest =>
      rw [interpret] at h ⊢
      cases hact : i.op.action m args previous temps words with
      | none =>
        rw [hact] at h
        cases h
      | some act =>
        rw [hact] at h
        cases act with
        | leave w => exact h
        | result w words => exact ih hle h
        | goto l =>
          obtain ⟨code, hcode, h⟩ := bind_eq_some_iff.1 h
          exact bind_eq_some_iff.2 ⟨code, hcode, ih hle h⟩
        | call callee ws =>
          obtain ⟨g, hg, h⟩ := bind_eq_some_iff.1 h
          obtain ⟨l, hl, h⟩ := bind_eq_some_iff.1 h
          obtain ⟨code, hcode, h⟩ := bind_eq_some_iff.1 h
          obtain ⟨r1, hr1, h⟩ := bind_eq_some_iff.1 h
          exact bind_eq_some_iff.2 ⟨g, hg, bind_eq_some_iff.2 ⟨l, hl,
            bind_eq_some_iff.2 ⟨code, hcode, bind_eq_some_iff.2 ⟨r1, ih hle hr1, ih hle h⟩⟩⟩⟩

/-! ## What the strict machine does -/

/-- A word without the object that it points into. -/
def Val.word : Val → Int
  | int n => n.toInt
  | addr p => p.base + p.offset

@[simp] theorem Val.word_int (n : Int32) : (int n).word = n.toInt := rfl

@[simp] theorem Val.word_addr (p : Pointer) : (addr p).word = p.base + p.offset := rfl

/-- The words hold what memory does, where something was written. -/
structure Memory.HeldBy (mem : Memory) (words : List Int) : Prop where
  length : words.length = mem.length
  /-- What was written is there. -/
  word : ∀ {a : Nat} {v : Val}, mem[a]?.join = some v → words[a]? = some v.word

variable {m : Module} {args : List Val} {temps : Temps} {mem mem' : Memory} {words : List Int}
  {prev : Option Label} {name : String} {final : Memory}

theorem Value.word_of_eval {w : Val} (h : v.eval m args temps = some w) :
    v.word m (args.map (·.word)) (fun t => (temps t).word) = some w.word := by
  cases v with
  | const n =>
    cases h
    rfl
  | temp t =>
    cases h
    rfl
  | arg i => exact (getElem?_map ..).trans (congrArg (Option.map Val.word) h)
  | global name =>
    obtain ⟨p, hp, rfl⟩ := map_eq_some_iff.1 h
    have hword : (Val.addr p).word = p.base := by simp [globalFrom_offset hp]
    rw [Value.word, hp, hword]
    rfl

theorem Value.word_of_int? {n : Int32} (h : v.int? m args temps = some n) :
    v.word m (args.map (·.word)) (fun t => (temps t).word) = some n.toInt :=
  Value.word_of_eval (Value.eval_of_int? h)

theorem Value.word_of_addr? (h : v.addr? m args temps = some p) :
    v.word m (args.map (·.word)) (fun t => (temps t).word) = some (p.base + p.offset) :=
  Value.word_of_eval (Value.eval_of_addr? h)

theorem wordsOf_of_evalArgs {vs : List Value} {ws : List Val}
    (h : evalArgs m args temps vs = some ws) :
    wordsOf m (args.map (·.word)) (fun t => (temps t).word) vs = some (ws.map (·.word)) := by
  induction vs generalizing ws with
  | nil =>
    cases h
    rfl
  | cons v vs ih =>
    obtain ⟨w, hw, h⟩ := bind_eq_some_iff.1 h
    obtain ⟨ws, hws, h⟩ := bind_eq_some_iff.1 h
    cases h
    simp [wordsOf, Value.word_of_eval hw, ih hws]

/-- The word of an address inside of an object. -/
theorem Pointer.toNat_of_word? {a : Nat} (h : p.word? = some a) :
    (p.base : Int) + p.offset = a := by
  unfold Pointer.word? at h
  split at h
  next hin =>
    cases h
    omega
  next => cases h

namespace Memory.HeldBy

theorem wordAt (h : mem.HeldBy words) {p : Pointer} {v : Val} (hload : mem.load p = some v) :
    IR.wordAt words (p.base + p.offset) = some v.word := by
  obtain ⟨a, ha, hv⟩ := bind_eq_some_iff.1 hload
  rw [Pointer.toNat_of_word? ha, IR.wordAt, if_pos (Int.natCast_nonneg a), Int.toNat_natCast]
  exact h.word hv

theorem setWord (h : mem.HeldBy words) {p : Pointer} {v : Val} (hstore : mem.store p v = some mem') :
    ∃ words', IR.setWord words (p.base + p.offset) v.word = some words' ∧ mem'.HeldBy words' := by
  obtain ⟨a, ha, hlt, rfl⟩ := Memory.store_eq_some hstore
  refine ⟨words.set a v.word, ?_, by simp [h.length], ?_⟩
  · rw [Pointer.toNat_of_word? ha, IR.setWord, if_pos (by rw [h.length]; omega), Int.toNat_natCast]
  · intro b w hb
    by_cases hab : a = b
    · subst hab
      rw [getElem?_set_self hlt] at hb
      cases hb
      exact getElem?_set_self (h.length ▸ hlt)
    · rw [getElem?_set_ne hab] at hb ⊢
      exact h.word hb

theorem grow (h : mem.HeldBy words) (n : Nat) :
    (mem.grow n).HeldBy (words ++ List.replicate n 0) where
  length := by simp [Memory.grow, h.length]
  word := by
    intro a v ha
    unfold Memory.grow at ha
    by_cases hlt : a < mem.length
    · rw [getElem?_append_left hlt] at ha
      rw [getElem?_append_left (h.length ▸ hlt)]
      exact h.word ha
    · rw [getElem?_append_right (Nat.le_of_not_lt hlt), getElem?_replicate] at ha
      split at ha <;> simp at ha

end Memory.HeldBy

/-- An operation of the strict machine is one of the interpreter. -/
theorem Op.action_of_eval {op : Op} {v : Val} (h : op.eval m args prev temps mem = some (v, mem'))
    (hheld : mem.HeldBy words) :
    ∃ words', op.action m (args.map (·.word)) prev (fun t => (temps t).word) words
      = some (.result v.word words') ∧ mem'.HeldBy words' := by
  cases op with
  | alloca =>
    cases h
    refine ⟨_, ?_, hheld.grow 1⟩
    simp [action, Pointer.first, hheld.length]
  | array n =>
    cases h
    refine ⟨_, ?_, hheld.grow n⟩
    simp [action, Pointer.first, hheld.length]
  | load source =>
    obtain ⟨rfl, p, hp, hw⟩ := Op.exists_load h
    exact ⟨words, by simp [action, Value.word_of_addr? hp, hheld.wordAt hw], hheld⟩
  | store value target =>
    obtain ⟨rfl, w, p, hw, hp, hstore⟩ := Op.exists_store h
    obtain ⟨words', hset, hheld'⟩ := hheld.setWord hstore
    refine ⟨words', ?_, hheld'⟩
    simp [action, Value.word_of_eval hw, Value.word_of_addr? hp, hset]
  | binary op lhs rhs =>
    obtain ⟨a, ha, h⟩ := bind_eq_some_iff.1 h
    obtain ⟨b, hb, h⟩ := bind_eq_some_iff.1 h
    obtain ⟨n, hn, h⟩ := bind_eq_some_iff.1 h
    cases h
    refine ⟨words, ?_, hheld⟩
    simp [action, Value.word_of_int? ha, Value.word_of_int? hb, hn]
  | compare op lhs rhs =>
    obtain ⟨a, ha, h⟩ := bind_eq_some_iff.1 h
    obtain ⟨b, hb, h⟩ := bind_eq_some_iff.1 h
    cases h
    refine ⟨words, ?_, hheld⟩
    simp [action, Value.word_of_int? ha, Value.word_of_int? hb]
  | zext value =>
    obtain ⟨w, hw, h⟩ := bind_eq_some_iff.1 h
    cases h
    exact ⟨words, by simp [action, Value.word_of_eval hw], hheld⟩
  | phi a la b lb =>
    rw [Op.eval] at h
    split at h
    next hla =>
      obtain ⟨w, hw, h⟩ := map_eq_some_iff.1 h
      cases h
      exact ⟨words, by simp [action, hla, Value.word_of_eval hw], hheld⟩
    next hla =>
      split at h
      next hlb =>
        obtain ⟨w, hw, h⟩ := map_eq_some_iff.1 h
        cases h
        exact ⟨words, by rw [action, if_neg hla, if_pos hlb, Value.word_of_eval hw]; rfl, hheld⟩
      next => cases h
  | element base offset =>
    obtain ⟨p, hp, h⟩ := bind_eq_some_iff.1 h
    obtain ⟨n, hn, h⟩ := bind_eq_some_iff.1 h
    cases h
    refine ⟨words, ?_, hheld⟩
    simp [action, Value.word_of_addr? hp, Value.word_of_int? hn,
      Pointer.shift, Int.add_assoc]
  | jump _ => cases h
  | branch _ _ _ => cases h
  | call _ _ => cases h
  | ret _ => cases h
  | retVoid => cases h

/-- A way to another block of the strict machine is one of the interpreter. -/
theorem Op.action_of_target? {op : Op} {l : Label} (h : op.target? m args temps = some l) :
    op.action m (args.map (·.word)) prev (fun t => (temps t).word) words = some (.goto l) := by
  cases op with
  | jump target =>
    cases h
    rfl
  | branch cond yes no =>
    obtain ⟨n, hn, rfl⟩ := map_eq_some_iff.1 h
    have hzero : n.toInt = 0 ↔ n = 0 := by
      rw [← Int32.toInt_zero, Int32.toInt_inj]
    simp [action, Value.word_of_int? hn, hzero]
  | _ => cases h

theorem setTemp_word (output : Option Temp) (v : Val) :
    setTemp (fun t => (temps t).word) output v.word = fun t => (temps.assign output v t).word := by
  cases output with
  | none => rfl
  | some t =>
    funext u
    simp only [setTemp, Temps.assign]
    split <;> rfl

/-- What is returned, as a word: zero if it is nothing. -/
def resultWord : Option Val → Int
  | some v => v.word
  | none => 0

theorem setTemp_receive {output : Option Temp} {temps' : Temps}
    (h : temps.receive output r = some temps') :
    setTemp (fun t => (temps t).word) output (resultWord r) = fun t => (temps' t).word := by
  cases output with
  | none =>
    cases h
    rfl
  | some t =>
    cases r with
    | none => cases h
    | some v =>
      cases h
      exact setTemp_word (some t) v

theorem Function.entry?_eq_some {start : Point} (h : f.entry? = some start) :
    ∃ l code, f.layout.head? = some l ∧ f.code? l = some code ∧
      start = ⟨none, l, code, fun _ => .int 0⟩ := by
  obtain ⟨l, hl, h⟩ := bind_eq_some_iff.1 h
  obtain ⟨code, hcode, h⟩ := bind_eq_some_iff.1 h
  cases h
  exact ⟨l, code, hl, hcode, rfl⟩

/-- **The interpreter does what the strict machine does.** -/
theorem Run.interpret {point : Point} (h : Run m f args point mem r final) :
    ∀ {words}, mem.HeldBy words → ∃ fuel words',
      Function.interpret m fuel f (args.map (·.word)) point.previous point.current point.rest
        (fun t => (point.temps t).word) words = some (resultWord r, words') ∧
      final.HeldBy words' := by
  induction h with
  | step hop _ ih =>
    intro words hheld
    obtain ⟨words1, hact, hheld1⟩ := Op.action_of_eval hop hheld
    obtain ⟨fuel, words', hrun, hheld'⟩ := ih hheld1
    refine ⟨fuel + 1, words', ?_, hheld'⟩
    rw [Function.interpret, hact]
    simp only [setTemp_word]
    exact hrun
  | goto htarget hcode _ ih =>
    intro words hheld
    obtain ⟨fuel, words', hrun, hheld'⟩ := ih hheld
    refine ⟨fuel + 1, words', ?_, hheld'⟩
    rw [Function.interpret, Op.action_of_target? htarget]
    exact bind_eq_some_iff.2 ⟨_, hcode, hrun⟩
  | call hargs hg hstart _ htemps _ ihcall ihrest =>
    intro words hheld
    obtain ⟨l, code, hl, hcode, rfl⟩ := Function.entry?_eq_some hstart
    obtain ⟨fuel1, words1, hrun1, hheld1⟩ := ihcall hheld
    obtain ⟨fuel2, words2, hrun2, hheld2⟩ := ihrest hheld1
    refine ⟨max fuel1 fuel2 + 1, words2, ?_, hheld2⟩
    simp only [Function.interpret, Op.action, wordsOf_of_evalArgs hargs, bind_eq_bind,
      bind_some, Option.pure_def, hg, hl, hcode]
    have hcall := Function.interpret_mono (Nat.le_max_left fuel1 fuel2) hrun1
    have hrest := Function.interpret_mono (Nat.le_max_right fuel1 fuel2) hrun2
    refine bind_eq_some_iff.2 ⟨_, hcall, ?_⟩
    simp only [setTemp_receive htemps]
    exact hrest
  | ret hv =>
    intro words hheld
    refine ⟨1, words, ?_, hheld⟩
    simp [Function.interpret, Op.action, Value.word_of_eval hv, resultWord]
  | retVoid =>
    intro words hheld
    exact ⟨1, words, rfl, hheld⟩

/-- **The interpreter ends a call that the strict machine ends**, with the same
result. -/
theorem Calls.interpret (h : Calls m name args mem r final) (hheld : mem.HeldBy words) :
    ∃ fuel words', m.interpret fuel name (args.map (·.word)) words = some (resultWord r, words') ∧
      final.HeldBy words' := by
  obtain ⟨f, start, hf, hstart, hrun⟩ := h
  obtain ⟨l, code, hl, hcode, rfl⟩ := Function.entry?_eq_some hstart
  obtain ⟨fuel, words', hinterpret, hheld'⟩ := hrun.interpret hheld
  refine ⟨fuel, words', ?_, hheld'⟩
  simp only [Module.interpret, hf, hl, hcode, bind_eq_bind, bind_some]
  exact hinterpret

end SysY.IR
