import SysY.Proofs.Lower.Stmt
import SysY.Proofs.Names

/-!
# Programs keep their meaning

From statements to functions: the parameters are stored into slots of their
own, the body is run, and if it does not return the function returns at its
end. From functions to programs: a call of a function is the run of what it
was lowered to, because the functions of a program and of its module come in
the same order and under the same names, and the global variables have the
same words.

Calls are followed by induction on the depth to which they may nest.
-/

namespace SysY.Lower

open IR (Value Op Instr Label Temp Temps Point Run)
open List Option

variable {m : IR.Module} {args : List IR.Val} {prev : Option Label} {call : Source.Caller}
  {σ σ' : Supply} {temps : Temps} {imem : IR.Memory} {mem mem' : Source.Memory}

/-! ## Parameters -/

/-- A new word that is written at once. -/
theorem write_grow (mem : Source.Memory) (v : Source.Val) :
    (mem.grow 1).write mem.length v = some (mem ++ [some v]) := by
  unfold Source.Memory.write Source.Memory.grow
  rw [if_pos (by simp)]
  simp

variable {env : Source.Scope} {symbols inner : Symbols} {v : Source.Val} {vs : List Source.Val}
  {d : FunctionDef} {f : IR.Function} {functions : Frame Signature} {o : Source.Outcome}
  {gs : List IR.Global} {name : String} {dims : List Nat} {next : Nat} {cs : List Source.Closure}
  {us : List TopLevel} {init : Option Initializer} {env' : Source.Scope} {ds : List Definition}
  {constant : Bool} {all : List Source.Closure}

theorem parameter_means {bound : Nat}
    (hagree : Agree m args temps bound symbols env) {slot : Value} {a : Nat} {p : Parameter}
    {s : Symbol} {x : Source.Variable} (hslot : Stands m args temps bound slot (.addr (.first a 1)))
    (hs : parameterSymbol symbols slot p = .ok s)
    (hx : Source.Parameter.variable? env a p v = some x) : Means m args temps bound s x := by
  unfold parameterSymbol at hs
  unfold Source.Parameter.variable? at hx
  cases hp : p.array with
  | none =>
    rw [hp] at hs hx
    cases hs
    cases v with
    | int n =>
      cases hx
      exact ⟨rfl, hslot⟩
    | array r => cases hx
    | void => cases hx
  | some es =>
    rw [hp] at hs hx
    obtain ⟨dims, hdims, hs⟩ := except_bind_ok.1 hs
    cases hs
    cases v with
    | int n => cases hx
    | void => cases hx
    | array r =>
      obtain ⟨dims', hdims', hx⟩ := bind_eq_some_iff.1 hx
      cases hx
      rw [← evalDims_known hagree.sameKnown, hdims] at hdims'
      cases hdims'
      exact ⟨rfl, rfl, hslot⟩

/-- The code that stores the parameters from number `i` on. -/
theorem lowerParameters_sound {ps : List Parameter} {i : Nat} {is : List Instr}
    (h : lowerParameters symbols i ps σ = .ok ((is, inner), σ'))
    (hagree : Agree m args temps σ.temps symbols env) (href : Refines mem imem)
    (hargs : Forall₂ Represents vs (args.drop i))
    (heval : Source.bindParams env ps vs mem = some (env', mem')) :
    Simulates m args prev is σ.temps temps imem mem' fun temps' =>
      Agree m args temps' σ'.temps inner env' := by
  induction ps generalizing symbols env i σ is temps imem mem vs with
  | nil =>
    obtain ⟨rfl, rfl, rfl⟩ := lowerParameters_nil h
    cases vs with
    | nil =>
      cases heval
      exact .nil href hagree
    | cons v vs => cases heval
  | cons p ps ih =>
    obtain ⟨s, rest, hs, hrest, rfl⟩ := lowerParameters_cons h
    cases vs with
    | nil => cases heval
    | cons v vs =>
      obtain ⟨x, hx, heval⟩ := bind_eq_some_iff.1 heval
      obtain ⟨w, ws, hrep, hws, hdrop⟩ : ∃ w ws, Represents v w ∧ Forall₂ Represents vs ws ∧
          args.drop i = w :: ws := by
        cases hargs' : args.drop i with
        | nil => rw [hargs'] at hargs; cases hargs
        | cons w ws =>
          rw [hargs'] at hargs
          cases hargs with
          | cons hw hws => exact ⟨w, ws, hw, hws, rfl⟩
      have harg : ∀ temps : Temps, (Value.arg i).eval m args temps = some w := by
        intro temps
        show args[i]? = some w
        rw [← Nat.add_zero i, ← getElem?_drop, hdrop]
        rfl
      have hws' : args.drop (i + 1) = ws := by
        rw [← drop_drop, hdrop]
        rfl
      have hle : σ.temps ≤ σ.bump.temps := Nat.le_succ _
      rw [← singleton_append, append_assoc]
      refine (Yields.result rfl (href.grow 1)).append hle
        fun temps1 imem1 href1 hframe1 hslot => ?_
      rw [href.length] at hslot
      obtain ⟨imem2, hstore, href2⟩ := href1.store (write_grow mem v) (word?_first _) hrep
      refine (Yields.perform (eval_store (harg _) hslot.1 hstore) href2).append (Nat.le_refl _) ?_
      rintro _ imem3 href3 - rfl
      have hagree1 := hagree.mono hframe1 hle
      exact ih hrest (hagree1.bind _ (parameter_means hagree1 hslot hs hx)) href3 (hws' ▸ hws) heval

/-! ## Functions -/

/-- The blocks of a lowered function are those of its code. -/
theorem placed_of_lowerFunction (h : lowerFunction symbols functions d = .ok f) :
    ∃ is inner σ1 body σ',
      lowerParameters symbols.enter 0 d.params ⟨0, #["entry"], 0⟩ = .ok ((is, inner), σ1) ∧
      lowerBlock { symbols := inner.enter, functions } d.body σ1 = .ok (body, σ') ∧
      Placed f ([.label 0] ++ (straight is ++ (body ++ perform (lastOp d.returns)))) ∧
      f.layout = Code.layout ([.label 0] ++ (straight is ++ (body ++ perform (lastOp d.returns)))) ∧
      f.layout.head? = some 0 ∧ f.temps = σ'.temps := by
  obtain ⟨code, σ', hcode, rfl⟩ := lowerFunction_ok h
  obtain ⟨hnodup, hhead, hlt⟩ := functionCode_layout hcode
  obtain ⟨is, inner, σ1, body, hparams, hbody, rfl⟩ := functionCode_ok hcode
  refine ⟨is, inner, σ1, body, σ', hparams, hbody, ?_, ?_, hhead, rfl⟩
  · simp only [append_assoc] at hnodup hlt ⊢
    refine ⟨hnodup, fun l hl => ?_⟩
    simpa [IR.Function.code?, Code.blocks] using ⟨_, Array.getElem?_eq_getElem (hlt l hl)⟩
  · simp only [append_assoc]

/-- What a function gives back, when its body is followed to where it is
left. -/
theorem Outcomes.returns {C : Code} {p : Point} {cur : Label}
    (h : Outcomes m f args C none 0 p imem cur [⟨none, lastOp d.returns⟩] mem' o)
    (hv : Source.result d.returns o = some v) :
    ∃ r imem', Run m f args p imem r imem' ∧ Returns v r ∧ Refines mem' imem' := by
  cases o with
  | break_ | continue_ =>
    obtain ⟨l, hl, -⟩ := h
    cases hl
  | return_ w =>
    obtain ⟨r, imem', hrun, hreturns, href⟩ := h
    refine ⟨r, imem', hrun, ?_, href⟩
    cases hd : d.returns <;> rw [hd] at hv <;> cases w <;> cases hv <;> exact hreturns
  | normal =>
    obtain ⟨prev, temps, imem', hreach, href, -, -⟩ := h
    cases hd : d.returns with
    | int =>
      rw [hd] at hreach hv
      cases hv
      exact ⟨some (.int 0), imem', hreach _ _ (.ret rfl), rfl, href⟩
    | void =>
      rw [hd] at hreach hv
      cases hv
      exact ⟨none, imem', hreach _ _ .retVoid, rfl, href⟩

/-- **A lowered function does what its definition says.** -/
theorem lowerFunction_sound (h : lowerFunction symbols functions d = .ok f) {globals : Source.Scope}
    (hagree : ∀ args temps, Agree m args temps 0 symbols globals) (hcalls : CallsMatch m call)
    (hsigs : SignaturesMatch functions call) (fuel : Nat)
    {ws : List IR.Val} (hargs : Forall₂ Represents vs ws) (href : Refines mem imem)
    {mem1 : Source.Memory}
    (hbind : Source.bindParams globals.enter d.params vs mem = some (env, mem1))
    (hexec : Source.execBlock call fuel false env.enter d.body mem1 = some (o, mem'))
    (hv : Source.result d.returns o = some v) :
    ∃ start r imem', f.entry? = some start ∧ Run m f ws start imem r imem' ∧ Returns v r ∧
      Refines mem' imem' := by
  obtain ⟨is, inner, σ1, body, σ', hparams, hbody, hC, -, hhead, -⟩ :=
    placed_of_lowerFunction h
  have hext := lowerParameters_extends hparams
  have hσ1 : σ1.names.size > σ1.current := by
    rw [hext.names, hext.current]
    exact Nat.one_pos
  have hentry : f.entry? = some ⟨none, 0,
      Code.head (straight is ++ (body ++ perform (lastOp d.returns))), fun _ => .int 0⟩ := by
    unfold IR.Function.entry?
    rw [hhead, bind_eq_bind, bind_some, hC.code_eq (suffix_refl _)]
    rfl
  have hfollow : Outcomes m f ws ([.label 0] ++ (straight is ++ (body ++ perform (lastOp d.returns))))
      none 0 ⟨none, 0, Code.head (straight is ++ (body ++ perform (lastOp d.returns))),
        fun _ => .int 0⟩ imem σ'.current (Code.head (perform (lastOp d.returns))) mem' o := by
    rw [Code.head_straight]
    refine (Arrives.of_simulates (lowerParameters_sound hparams (hagree ws _).enter href hargs
      hbind)).outcomes hext.temps fun prev1 temps1 imem1 href1 _ hagree1 => ?_
    have hbodyAt := suffix_of_append (suffix_of_append (suffix_refl
      ([.label 0] ++ (straight is ++ (body ++ perform (lastOp d.returns))))))
    have hrun := lowerBlock_sound hcalls hC fuel d.body { symbols := inner.enter, functions }
      ⟨hsigs, (fun _ hl => nomatch hl), rfl⟩ hbody hσ1 hbodyAt hagree1.enter href1 hexec prev1
    rwa [hext.current] at hrun
  obtain ⟨r, imem', hrun, hreturns, href'⟩ := hfollow.returns hv
  exact ⟨_, r, imem', hentry, hrun, hreturns, href'⟩

/-! ## Global variables -/

/-- The number of words of global variables. -/
def globalWords : List IR.Global → Nat
  | [] => 0
  | g :: gs => g.init.length + globalWords gs

@[simp] theorem globalWords_append (gs hs : List IR.Global) :
    globalWords (gs ++ hs) = globalWords gs + globalWords hs := by
  induction gs with
  | nil => simp [globalWords]
  | cons g gs ih => simp [globalWords, ih, Nat.add_assoc]

/-- A global variable comes after the words of the ones before it. -/
theorem globalFrom_append {base : Nat} {init : List Int32} {hs : List IR.Global}
    (h : name ∉ gs.map (·.name)) :
    IR.globalFrom base name (gs ++ ⟨name, init⟩ :: hs)
      = some (.first (base + globalWords gs) init.length) := by
  induction gs generalizing base with
  | nil => exact if_pos rfl
  | cons g gs ih =>
    rw [map_cons, mem_cons, not_or] at h
    rw [cons_append, IR.globalFrom, if_neg (Ne.symm h.1), ih h.2]
    simp [globalWords, Nat.add_assoc]

/-- The words of a global variable at the start are its constant values. -/
theorem globalInit_eq {ks : List Int32} {ks' : Option (List Int32)} {words : Nat}
    (hknown : SameKnown symbols env.known) (h : globalInit symbols dims words init = .ok ks)
    (h' : Source.constantValues true env (init.map fun i => layOut dims i.value) = some ks') :
    ks'.getD (replicate words 0) = ks := by
  cases init with
  | none =>
    cases h
    cases h'
    rfl
  | some i =>
    have hitems : evalItems symbols (layOut dims i.value) = .ok ks := h
    rw [Option.map_some, Source.constantValues, ← evalItems_known hknown, hitems] at h'
    cases h'
    rfl

theorem globalInit_length {A : Symbols} (hpos : ∀ d ∈ dims, 0 < d) {ks : List Int32}
    (h : globalInit A dims (volume dims) init = .ok ks) : ks.length = volume dims := by
  cases init with
  | none =>
    cases h
    exact length_replicate
  | some i => rw [evalItems_length h, layOut_length hpos]

/-- The symbols of global variables mean what the variables do, in every
function. -/
def GlobalsAgree (m : IR.Module) (symbols : Symbols) (env : Source.Scope) : Prop :=
  ∀ args temps, Agree m args temps 0 symbols env

/-- The symbol of a global variable means the words that it has. -/
theorem globalSymbol_means (constant : Bool) {init : List Int32}
    (hfits : volume dims ≤ maxWords) (hinit : init.length = volume dims)
    (hglobal : m.global? name = some (.first next init.length)) :
    Means m args temps 0 (globalSymbol constant name dims init)
      (.at ⟨next, volume dims, hfits⟩ dims (if constant then some init else none)) := by
  have hstands : Stands m args temps 0 (.global name) (.addr (.first next (volume dims))) := by
    refine ⟨?_, fun t h => by cases h⟩
    rw [← hinit]
    exact congrArg (Option.map IR.Val.addr) hglobal
  cases dims with
  | nil => cases constant <;> exact ⟨rfl, hstands⟩
  | cons d ds => exact ⟨rfl, rfl, hstands⟩

theorem lowerGlobals_sound {before after : List IR.Global} {next' : Nat}
    (h : lowerGlobals constant symbols ds = .ok (gs, inner))
    (heval : Source.declareGlobals constant env next ds = some (env', next'))
    (hm : m.globals = before ++ gs ++ after) (hnext : next = globalWords before)
    (hnodup : (m.globals.map (·.name)).Nodup) (hagree : GlobalsAgree m symbols env) :
    GlobalsAgree m inner env' ∧ next' = globalWords (before ++ gs) := by
  induction ds generalizing symbols env gs before next with
  | nil =>
    cases h
    cases heval
    exact ⟨hagree, by rw [hnext, append_nil]⟩
  | cons d ds ih =>
    obtain ⟨dims, init, rest, hdims, hfits, hinit, hrest, rfl⟩ := lowerGlobals_cons h
    have hknown := (hagree [] fun _ => .int 0).sameKnown
    obtain ⟨dims', hdims', heval⟩ := bind_eq_some_iff.1 heval
    rw [← evalDims_known hknown, hdims] at hdims'
    cases hdims'
    dsimp only at heval
    rw [dif_pos hfits] at heval
    obtain ⟨init', hinit', heval⟩ := bind_eq_some_iff.1 heval
    simp only [← layOut_eq_initialWords (evalDims_pos hdims)] at hinit'
    rw [globalInit_eq hknown hinit hinit'] at heval
    have hlength := globalInit_length (evalDims_pos hdims) hinit
    have hglobal : m.global? d.name.value = some (.first next init.length) := by
      unfold IR.Module.global?
      rw [hm, append_assoc, cons_append, globalFrom_append, Nat.zero_add, hnext]
      rw [hm, append_assoc, cons_append, map_append, map_cons,
        nodup_append'] at hnodup
      exact fun hmem => hnodup.2.2 hmem mem_cons_self
    have hm' : m.globals = (before ++ [⟨d.name.value, init⟩]) ++ rest ++ after := by
      simp [hm]
    have hbefore : next + volume dims = globalWords (before ++ [⟨d.name.value, init⟩]) := by
      rw [globalWords_append, hnext, ← hlength]
      rfl
    have hbind := fun args temps => (hagree args temps).bind d.name.value
      (globalSymbol_means constant hfits hlength hglobal)
    have hrest := ih hrest heval hm' hbefore hbind
    rwa [append_assoc, singleton_append] at hrest

/-! ## Programs -/

/-- The signatures in scope are those of the functions of a program. -/
def SignaturesFrom (cs : List Source.Closure) (functions : Frame Signature) : Prop :=
  ∀ ⦃name s⦄, List.lookup name functions = some s →
    ∃ c ∈ cs, c.definition.name.value = name ∧ s.void = decide (c.definition.returns = .void)

/-- A function of the module is what a function of the program was lowered
to, with the global variables that the latter sees. -/
structure Realises (m : IR.Module) (cs : List Source.Closure) (c : Source.Closure)
    (f : IR.Function) : Prop where
  name : f.name = c.definition.name.value
  lowered : ∃ symbols functions, lowerFunction symbols functions c.definition = .ok f ∧
    GlobalsAgree m symbols c.globals ∧ SignaturesFrom cs functions

theorem lookup_cons {α : Type} {n : String} {a b : α} {frame : Frame α}
    (h : List.lookup name ((n, a) :: frame) = some b) :
    name = n ∧ b = a ∨ List.lookup name frame = some b := by
  by_cases hn : name = n
  · subst hn
    simp only [List.lookup_cons, beq_self_eq_true, Option.some.injEq] at h
    exact .inl ⟨rfl, h.symm⟩
  · have hne : (name == n) = false := by simpa using hn
    simp only [List.lookup_cons, hne] at h
    exact .inr h

/-- **The functions of a module realise those of the program**, one by one. -/
theorem lowerUnits_sound {rest : IR.Module} {before : List IR.Global}
    (h : (lowerUnits symbols functions us).result = .ok rest)
    (hcs : Source.closures env next us = some cs) (hsub : ∀ c ∈ cs, c ∈ all)
    (hm : m.globals = before ++ rest.globals) (hnext : next = globalWords before)
    (hnodup : (m.globals.map (·.name)).Nodup) (hagree : GlobalsAgree m symbols env)
    (hsigs : SignaturesFrom all functions) : Forall₂ (Realises m all) cs rest.functions := by
  induction us generalizing symbols functions env next rest cs before with
  | nil =>
    cases h
    cases hcs
    exact .nil
  | cons u us ih =>
    cases u with
    | decl d =>
      obtain ⟨gs, inner, rest', hgs, hrest, rfl⟩ := lowerUnits_decl h
      obtain ⟨⟨env', next'⟩, hdecl, hcs⟩ := bind_eq_some_iff.1 hcs
      rw [← append_assoc] at hm
      obtain ⟨hagree', hnext'⟩ := lowerGlobals_sound hgs hdecl hm hnext hnodup hagree
      show Forall₂ (Realises m all) cs rest'.functions
      exact ih hrest hcs hsub hm hnext' hagree' hsigs
    | function d =>
      obtain ⟨f, rest', hf, hrest, rfl⟩ := lowerUnits_function h
      obtain ⟨cs', hcs', hcs⟩ := bind_eq_some_iff.1 hcs
      cases hcs
      have hsigs' : SignaturesFrom all
          ((d.name.value, ⟨d.returns = .void, d.params.length⟩) :: functions) := by
        intro name s hs
        obtain ⟨rfl, rfl⟩ | hs := lookup_cons hs
        · exact ⟨⟨d, env⟩, hsub _ mem_cons_self, rfl, rfl⟩
        · exact hsigs hs
      have hname : f.name = d.name.value := by
        obtain ⟨_, _, -, rfl⟩ := lowerFunction_ok hf
        rfl
      exact .cons ⟨hname, _, _, hf, hagree, hsigs'⟩
        (ih hrest hcs' (fun c hc => hsub c (mem_cons_of_mem _ hc)) hm hnext hagree hsigs')

/-- Where one list realises another, so do the entries found under a name. -/
theorem find?_realises {fs : List IR.Function} {c : Source.Closure}
    (h : Forall₂ (Realises m all) cs fs) (hc : cs.find? (·.definition.name.value = name) = some c) :
    ∃ f, fs.find? (·.name = name) = some f ∧ Realises m all c f := by
  induction h with
  | nil => cases hc
  | @cons c' f' cs fs hhead _ ih =>
    by_cases hname : c'.definition.name.value = name
    · rw [find?_cons_of_pos (by simpa using hname)] at hc
      cases hc
      exact ⟨f', find?_cons_of_pos (by simpa [hhead.name] using hname), hhead⟩
    · rw [find?_cons_of_neg (by simpa using hname)] at hc
      obtain ⟨f, hf, hrealises⟩ := ih hc
      exact ⟨f, by rw [find?_cons_of_neg (by simpa [hhead.name] using hname)]; exact hf,
        hrealises⟩

theorem callWith_succ {fuel : Nat}
    (h : Source.callWith cs (fuel + 1) name vs mem = some (v, mem')) :
    ∃ c env mem1 o, cs.find? (·.definition.name.value = name) = some c ∧
      Source.bindParams c.globals.enter c.definition.params vs mem = some (env, mem1) ∧
      Source.execBlock (Source.callWith cs fuel) fuel false env.enter c.definition.body mem1
        = some (o, mem') ∧
      Source.result c.definition.returns o = some v := by
  obtain ⟨c, hc, h⟩ := bind_eq_some_iff.1 h
  obtain ⟨⟨env, mem1⟩, hbind, h⟩ := bind_eq_some_iff.1 h
  obtain ⟨⟨o, mem2⟩, hexec, h⟩ := bind_eq_some_iff.1 h
  obtain ⟨w, hv, h⟩ := bind_eq_some_iff.1 h
  cases h
  exact ⟨c, env, mem1, o, hc, hbind, hexec, hv⟩

theorem result_void {returns : ReturnType}
    (h : Source.result returns o = some v) : decide (returns = .void) = true ↔ v = .void := by
  cases returns with
  | int =>
    refine iff_of_false (by simp) ?_
    rintro rfl
    cases o with
    | return_ w => cases w <;> cases h
    | _ => cases h
  | void =>
    refine iff_of_true (by simp) ?_
    cases o with
    | return_ w => cases w <;> cases h; rfl
    | normal => cases h; rfl
    | _ => cases h

/-- Where the functions have different names, the signatures in scope match
the calls. -/
theorem signaturesMatch_of_from
    (hnodup : (cs.map (·.definition.name.value)).Nodup) (h : SignaturesFrom cs functions)
    (fuel : Nat) : SignaturesMatch functions (Source.callWith cs fuel) := by
  intro name s vs mem v mem' hs hcall
  cases fuel with
  | zero => cases hcall
  | succ fuel =>
    obtain ⟨c, _, _, _, hc, -, -, hv⟩ := callWith_succ hcall
    obtain ⟨c', hmem', hname', hvoid⟩ := h hs
    have hname : c.definition.name.value = name := by simpa using find?_some hc
    have heq : c = c' := inj_on_of_nodup_map hnodup (mem_of_find?_eq_some hc) hmem'
      (hname.trans hname'.symm)
    rw [hvoid, ← heq]
    exact result_void hv

/-- **Calls match**, to any depth. -/
theorem callsMatch_callWith (hreal : Forall₂ (Realises m cs) cs m.functions)
    (hnodup : (cs.map (·.definition.name.value)).Nodup) (fuel : Nat) :
    CallsMatch m (Source.callWith cs fuel) := by
  induction fuel with
  | zero =>
    intro name vs mem v mem' h
    cases h
  | succ fuel ih =>
    intro name vs mem v mem' h ws imem hargs href
    obtain ⟨c, env, mem1, o, hc, hbind, hexec, hv⟩ := callWith_succ h
    obtain ⟨f, hf, hrealises⟩ := find?_realises hreal hc
    obtain ⟨symbols, functions, hlower, hagree, hsigs⟩ := hrealises.lowered
    obtain ⟨start, r, imem', hstart, hrun, hreturns, href'⟩ := lowerFunction_sound hlower hagree ih
      (signaturesMatch_of_from hnodup hsigs fuel) fuel hargs href hbind hexec hv
    exact ⟨r, imem', ⟨f, start, hf, hstart, hrun⟩, hreturns, href'⟩

/-! ## The names of a module -/

theorem lowerGlobals_names (h : lowerGlobals constant symbols ds = .ok (gs, inner)) :
    gs.map (·.name) = ds.map (·.name.value) := by
  induction ds generalizing symbols gs with
  | nil =>
    cases h
    rfl
  | cons d ds ih =>
    obtain ⟨_, _, rest, -, -, -, hrest, rfl⟩ := lowerGlobals_cons h
    rw [map_cons, map_cons, ih hrest]

/-- The global variables and functions of a module have the names that the
program declares. -/
theorem lowerUnits_names_perm (h : (lowerUnits symbols functions us).result = .ok m) :
    (m.globals.map (·.name) ++ m.functions.map (·.name)).Perm (us.flatMap TopLevel.names) := by
  induction us generalizing symbols functions m with
  | nil =>
    cases h
    exact .refl _
  | cons u us ih =>
    rw [flatMap_cons]
    cases u with
    | decl d =>
      obtain ⟨gs, _, rest, hgs, hrest, rfl⟩ := lowerUnits_decl h
      rw [map_append, lowerGlobals_names hgs, append_assoc]
      exact Perm.append_left _ (ih hrest)
    | function d =>
      obtain ⟨f, rest, hf, hrest, rfl⟩ := lowerUnits_function h
      obtain ⟨_, _, -, rfl⟩ := lowerFunction_ok hf
      exact perm_middle.trans ((ih hrest).cons _)

theorem closures_names (h : Source.closures env next us = some cs) :
    (cs.map (·.definition.name.value)).Sublist (us.flatMap TopLevel.names) := by
  induction us generalizing env next cs with
  | nil =>
    cases h
    exact Sublist.refl _
  | cons u us ih =>
    rw [flatMap_cons]
    cases u with
    | decl d =>
      obtain ⟨⟨env', next'⟩, -, h⟩ := bind_eq_some_iff.1 h
      exact (ih h).trans (sublist_append_right _ _)
    | function d =>
      obtain ⟨cs', hcs', h⟩ := bind_eq_some_iff.1 h
      cases h
      exact (ih hcs').cons_cons _

/-- **Calls of an accepted program are runs of its module.** -/
theorem callsMatch_of_accepted {p : Program} (haccepted : p.accepted = true)
    (hlower : p.lower.result = .ok m)
    (hcs : Source.closures [[]] 0 p.units = some cs) (fuel : Nat) :
    CallsMatch m (Source.callWith cs fuel) := by
  have hnames := Program.nodup_names haccepted
  refine callsMatch_callWith ?_ (hnames.sublist (closures_names hcs)) fuel
  exact lowerUnits_sound hlower hcs (fun _ hc => hc) (nil_append _).symm rfl
    ((lowerUnits_names_perm hlower).nodup_iff.2 hnames).of_append_left
    (fun _ _ => ⟨fun _ => rfl, fun _ _ _ hs => by cases hs⟩)
    (fun _ _ hs => by cases hs)

end SysY.Lower
