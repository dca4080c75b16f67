import SysY.Proofs.Lower.Constant
import SysY.Proofs.Lower.Expr

/-!
# Declarations keep their meaning

A local definition takes the same words of memory on both sides and gives
them the same values, word after word, so that afterwards the new symbol means
what the new variable does. Dimensions and constants come from the same
evaluation at compile time, in environments of which the same is known.
-/

namespace SysY.Lower

open List

open IR (Value Op Instr Label Temp Temps)

variable {m : IR.Module} {args : List IR.Val} {prev : Option Label} {call : Source.Caller}
  {ctx : Context} {env env' : Source.Scope} {σ σ' : Supply} {temps : Temps} {imem : IR.Memory}
  {mem mem' : Source.Memory} {bound : Nat} {items : Option (List (Option Expr))}

/-! ## Constants -/

theorem lookup_symbol (frame : Frame Source.Variable) (name : String) :
    List.lookup name (frame.map fun (n, v) => (n, v.symbol))
      = (List.lookup name frame).map Source.Variable.symbol := by
  induction frame with
  | nil => rfl
  | cons p frame ih =>
    obtain ⟨n, v⟩ := p
    by_cases hn : name = n
    · simp [hn]
    · have hne : (name == n) = false := by simpa using hn
      simp [lookup_cons, hne, ih]

theorem known_lookup (env : Source.Scope) (name : String) :
    env.known.lookup name = (env.lookup name).map Source.Variable.symbol := by
  unfold Source.Scope.known
  induction env with
  | nil => rfl
  | cons frame outer ih =>
    rw [map_cons, Env.lookup, lookup_symbol, ih, Env.lookup]
    cases List.lookup name frame <;> rfl

theorem Means.known {s : Symbol} {x : Source.Variable} (h : Means m args temps bound s x) :
    s.known = x.symbol.known := by
  cases s with
  | scalar v k =>
    cases x with
    | scalar a k' => exact congrArg (Symbol.scalar _) h.1
    | array base dims k' => cases h
  | array base dims k =>
    cases x with
    | scalar a k' => cases base <;> cases h
    | array base' dims' k' =>
      obtain ⟨rfl, rfl⟩ := h.array
      cases base' <;> rfl

/-- Where symbols mean what variables do, the same is known of them. -/
theorem Agree.sameKnown {symbols : Symbols} (h : Agree m args temps bound symbols env) :
    SameKnown symbols env.known := by
  intro name
  have hname := h.names name
  rw [known_lookup]
  cases hs : symbols.lookup name <;> cases hx : env.lookup name <;> rw [hs, hx] at hname
  · rfl
  · cases hname
  · cases hname
  · exact congrArg some (h.means hs hx).known

theorem constantValues_eq {constant : Bool} {symbols : Symbols}
    (hknown : SameKnown symbols env.known) (items : Option (List (Option Expr))) :
    Source.constantValues constant env items = (knownValues constant symbols items).toOption := by
  cases constant with
  | false => rfl
  | true =>
    cases items with
    | none => rfl
    | some items =>
      rw [Source.constantValues, knownValues, evalItems_known hknown]
      cases evalItems env.known items <;> rfl

/-! ## Initial values -/

variable {is : List Instr} {ks : Option (List Int32)} {constant : Bool} {symbols : Symbols}

/-- A scalar has one item, or no initial value. -/
theorem scalarItems {init : Option Initializer}
    (hks : knownValues constant symbols (init.map fun i => layOut [] i.value) = .ok ks)
    (mem : Source.Memory) :
    (init.map fun i => layOut [] i.value) = none ∧ ks = none ∧
        (mem.grow 1).read mem.length = none ∧ mem.length < (mem.grow 1).length ∨
      ∃ item, (init.map fun i => layOut [] i.value) = some [item] := by
  cases init with
  | none =>
    refine .inl ⟨rfl, ?_, ?_, ?_⟩
    · cases constant <;> cases hks <;> rfl
    · simp [Source.Memory.read, Source.Memory.grow]
    · simp [Source.Memory.grow]
  | some i =>
    obtain ⟨item, hitem⟩ := length_eq_one_iff.1
      (show (layOut [] i.value).length = 1 from layOut_length (fun _ h => absurd h not_mem_nil) _)
    exact .inr ⟨item, congrArg some hitem⟩

section

variable (hcalls : CallsMatch m call) (hsigs : SignaturesMatch ctx.functions call)
  (hagree : Agree m args temps σ.temps ctx.symbols env) (href : Refines mem imem)

include hcalls hsigs hagree href

theorem initialValue_sound {k : Option Int32} {item : Option Expr} {v : Value}
    {n : Int32} (h : initialValue ctx k item σ = .ok ((is, v), σ'))
    (heval : Source.initialValue call env k item mem = some (n, mem')) :
    Simulates m args prev is σ.temps temps imem mem' fun temps' =>
      Stands m args temps' σ'.temps v (.int n) := by
  obtain ⟨_, rfl, rfl, rfl, rfl⟩ | ⟨e, rfl, rfl, h⟩ | ⟨rfl, rfl, rfl, rfl, rfl⟩ :=
    initialValue_ok h
  · cases heval
    exact .nil href ⟨rfl, fun _ h => by cases h⟩
  · refine (lowerExpr_sound hcalls hsigs e h hagree href (expectInt_eq_some.1 heval)).imp ?_
    rintro temps' ⟨_, rfl, hv⟩
    exact hv
  · cases heval
    exact .nil href ⟨rfl, fun _ h => by cases h⟩

/-- The words of an array from number `i` on. -/
theorem storeItems_sound {base : Value} {i a words : Nat} {items : List (Option Expr)}
    (h : storeItems ctx base ks i items σ = .ok (is, σ'))
    (hbase : Stands m args temps σ.temps base (.addr (.first a words)))
    (hlength : i + items.length ≤ words) (hwords : words ≤ maxWords)
    (heval : Source.initialise call env (a + i) ks items mem = some mem') :
    Simulates m args prev is σ.temps temps imem mem' fun _ => True := by
  induction items generalizing ks i σ is temps imem mem with
  | nil =>
    obtain ⟨rfl, rfl⟩ := storeItems_nil h
    cases heval
    exact .nil href trivial
  | cons item items ih =>
    obtain ⟨c1, v, σ1, rest, h1, h2, rfl⟩ := storeItems_cons h
    obtain ⟨⟨n, mem1⟩, hn, heval⟩ := Option.bind_eq_some_iff.1 heval
    obtain ⟨mem2, hwrite, heval⟩ := Option.bind_eq_some_iff.1 heval
    rw [length_cons] at hlength
    have hle1 := (initialValue_extends h1).temps
    have hle2 : σ1.temps ≤ σ1.bump.temps := Nat.le_succ _
    have hword : (IR.Pointer.shift (.first a words) (Int32.ofNat i)).word? = some (a + i) := by
      have hi : (Int32.ofNat i).toInt = i := toInt_ofNat_of_le (by omega)
      simp only [IR.Pointer.shift, IR.Pointer.first, IR.Pointer.word?, hi, Int.zero_add]
      rw [if_pos (by omega), Int.toNat_natCast]
    rw [append_assoc]
    refine (initialValue_sound hcalls hsigs hagree href h1 hn).append hle1
      fun temps1 imem1 href1 hframe1 hv => ?_
    have hbase1 := hbase.mono hframe1 hle1
    rw [← singleton_append, append_assoc]
    refine (Yields.result (eval_element hbase1.1 rfl) href1).append hle2
      fun temps2 imem2 href2 hframe2 htarget => ?_
    obtain ⟨imem3, hstore, href3⟩ := href2.store hwrite hword rfl
    refine (Yields.perform (eval_store (hv.mono hframe2 hle2).1 htarget.1 hstore) href3).append
      (Nat.le_refl _) ?_
    rintro _ imem4 href4 - rfl
    exact ih ((hagree.mono hframe1 hle1).mono hframe2 hle2) href4 h2 (hbase1.mono hframe2 hle2)
      (by omega) heval

/-- The word of a scalar. Without an initial value the program leaves it unset,
and the machine sets it to zero. -/
theorem storeScalar_sound {slot v : Value} {a : Nat} {c : List Instr}
    (hitems : items = none ∧ ks = none ∧ mem.read a = none ∧ a < mem.length ∨
      ∃ item, items = some [item])
    (h : initialValue ctx (ks.bind (·.head?)) (items.bind (·.head?)).join σ = .ok ((c, v), σ'))
    (hslot : Stands m args temps σ.temps slot (.addr (.first a 1)))
    (heval : Source.initialise call env a ks (items.getD []) mem = some mem') :
    Simulates m args prev (c ++ [⟨none, .store v slot⟩]) σ.temps temps imem mem' fun _ => True := by
  have hle := (initialValue_extends h).temps
  obtain ⟨rfl, rfl, hread, hlt⟩ | ⟨item, rfl⟩ := hitems
  · cases heval
    refine (initialValue_sound hcalls hsigs hagree href h rfl).append hle
      fun temps1 imem1 href1 hframe1 hv => ?_
    obtain ⟨imem2, hstore, href2⟩ := href1.poke hread hlt (word?_first a)
    exact (Yields.perform (eval_store hv.1 (hslot.mono hframe1 hle).1 hstore) href2).imp
      fun _ _ => trivial
  · obtain ⟨⟨n, mem1⟩, hn, heval⟩ := Option.bind_eq_some_iff.1 heval
    obtain ⟨mem2, hwrite, heval⟩ := Option.bind_eq_some_iff.1 heval
    cases heval
    refine (initialValue_sound hcalls hsigs hagree href h hn).append hle
      fun temps1 imem1 href1 hframe1 hv => ?_
    obtain ⟨imem2, hstore, href2⟩ := href1.store hwrite (word?_first a) rfl
    exact (Yields.perform (eval_store hv.1 (hslot.mono hframe1 hle).1 hstore) href2).imp
      fun _ _ => trivial

/-! ## Definitions -/

/-- **The code of a local definition follows it**, and its symbol means the
variable afterwards. -/
theorem lowerDefinition_sound {d : Definition}
    (h : lowerDefinition constant ctx d σ = .ok ((is, symbols), σ'))
    (heval : Source.declare call constant env d mem = some (env', mem')) :
    Simulates m args prev is σ.temps temps imem mem' fun temps' =>
      Agree m args temps' σ'.temps symbols env' := by
  obtain ⟨dims, ks, hdims, hks, h⟩ := lowerDefinition_ok h
  obtain ⟨dims', hdims', heval⟩ := Option.bind_eq_some_iff.1 heval
  rw [← evalDims_known hagree.sameKnown, hdims] at hdims'
  cases hdims'
  have hpos := evalDims_pos hdims
  simp only [← layOut_eq_initialWords hpos] at heval
  obtain ⟨ks', hks', heval⟩ := Option.bind_eq_some_iff.1 heval
  rw [constantValues_eq hagree.sameKnown, hks] at hks'
  cases hks'
  split at heval
  next hfits =>
    obtain ⟨mem1, hinit, heval⟩ := Option.bind_eq_some_iff.1 heval
    cases heval
    have hroom : σ.temps ≤ σ.bump.temps := Nat.le_succ _
    obtain ⟨rfl, c, v, rfl, hc, rfl⟩ | ⟨hne, -, c, rfl, hc, rfl⟩ := h
    · rw [append_assoc]
      refine (Yields.result rfl (href.grow 1)).append hroom
        fun temps1 imem1 href1 hframe1 hslot => ?_
      rw [href.length] at hslot
      have hmeans : Means m args temps1 σ.bump.temps (.scalar (.temp σ.temps) (ks.bind (·.head?)))
        (.at ⟨mem.length, volume [], hfits⟩ [] ks) := ⟨rfl, hslot⟩
      have hagree1 := (hagree.mono hframe1 hroom).bind d.name.value hmeans
      exact (storeScalar_sound hcalls (by exact hsigs) hagree1 href1 (scalarItems hks mem) hc hslot
        hinit).framed.imp fun _ h => hagree1.mono h.1 (initialValue_extends hc).temps
    · refine (Yields.result rfl (href.grow (volume dims))).append hroom
        fun temps1 imem1 href1 hframe1 hbase => ?_
      rw [href.length] at hbase
      have hmeans : Means m args temps1 σ.bump.temps (.array (.address (.temp σ.temps)) dims ks)
          (.at ⟨mem.length, volume dims, hfits⟩ dims ks) := by
        unfold Source.Variable.at
        rw [if_neg (by simpa using hne)]
        exact ⟨rfl, rfl, hbase⟩
      have hagree1 := (hagree.mono hframe1 hroom).bind d.name.value hmeans
      have hlength : 0 + ((d.init.map fun i => layOut dims i.value).getD []).length ≤ volume dims := by
        cases d.init with
        | none => exact Nat.zero_le _
        | some init =>
          rw [Option.map_some, Option.getD_some, layOut_length hpos]
          exact Nat.le_of_eq (Nat.zero_add _)
      exact (storeItems_sound hcalls (by exact hsigs) hagree1 href1 hc hbase hlength hfits
        hinit).framed.imp fun _ h => hagree1.mono h.1 (storeItems_extends hc).temps
  next => cases heval

theorem lowerDefinitions_sound {ds : List Definition}
    (h : lowerDefinitions constant ctx ds σ = .ok ((is, symbols), σ'))
    (heval : Source.declareAll call constant env ds mem = some (env', mem')) :
    Simulates m args prev is σ.temps temps imem mem' fun temps' =>
      Agree m args temps' σ'.temps symbols env' := by
  induction ds generalizing ctx env σ is temps imem mem with
  | nil =>
    obtain ⟨rfl, rfl, rfl⟩ := lowerDefinitions_nil h
    cases heval
    exact .nil href hagree
  | cons d ds ih =>
    obtain ⟨c1, inner, σ1, c2, h1, h2, rfl⟩ := lowerDefinitions_cons h
    obtain ⟨⟨env1, mem1⟩, hd, heval⟩ := Option.bind_eq_some_iff.1 heval
    exact (lowerDefinition_sound hcalls hsigs hagree href h1 hd).append
      (lowerDefinition_extends h1).temps
      fun temps1 imem1 href1 _ hagree1 => ih (by exact hsigs) hagree1 href1 h2 heval

end

end SysY.Lower
