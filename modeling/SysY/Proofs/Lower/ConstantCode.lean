import SysY.Proofs.Lower.Ends
import SysY.Proofs.Lower.Program

/-!
# Constants at run time

An expression whose value is known when the program is compiled can be lowered
like any other, and the compiler does so where it needs no constant. Its code
then comes to the value that was known, wherever the words of the constants in
scope hold what was recorded for them: the two evaluations agree, on quotients
and products that wrap around and on elements of constant arrays as well.

The code only computes. It loads words and combines them, and so it leaves
memory and control alone. An element is found by its offset, which the
compiler counts with natural numbers and the code in 32 bits; the two are the
same as an array has at most `maxWords` words. This, and that an array has a
dimension, is not so in every environment that one can write down, but in those
that come up in lowering (`Symbols.Arises`).
-/

namespace SysY

open List

/-- Operations that compute: they may read memory, and do not change it or leave
the block. -/
def IR.Op.computes : IR.Op → Bool
  | load _ | binary .. | compare .. | zext _ | element .. => true
  | _ => false

/-- Memory holds integers one after the other, from an address on. -/
def IR.Memory.Holds (mem : IR.Memory) (p : IR.Pointer) (values : List Int32) : Prop :=
  ∀ (i : Nat) (n : Int32), values[i]? = some n →
    mem.load { p with offset := p.offset + i } = some (.int n)

variable {span : Span} {es indices : List Expr} {v : IR.Value} {sizes : List Nat} {name : Ident}
  {ds : List Definition}

namespace Lower

open IR (Value Op Instr Label Temp Temps)

/-! ## Environments that come up -/

/-- **The environments that come up in lowering**, when so many temporaries have
been handed out. -/
inductive Symbols.Arises : Symbols → Nat → Prop
  | start : Arises [[]] 0
  | draw {symbols n} : Arises symbols n → Arises symbols (n + 1)
  | enter {symbols n} : Arises symbols n → Arises symbols.enter n
  | global {symbols n dims init} (constant : Bool) (d : Definition) : Arises symbols n →
    evalDims symbols d.dims = .ok dims → volume dims ≤ maxWords →
    globalInit symbols dims (volume dims) d.init = .ok init →
    Arises (symbols.bind d.name.value (globalSymbol constant d.name.value dims init)) n
  | parameter {symbols n symbol} (p : Parameter) : Arises symbols n →
    parameterSymbol symbols (.temp n) p = .ok symbol →
    Arises (symbols.bind p.name.value symbol) (n + 1)
  | scalar {symbols n ks} (constant : Bool) (d : Definition) : Arises symbols n →
    evalDims symbols d.dims = .ok [] →
    knownValues constant symbols (d.init.map fun i => layOut [] i.value) = .ok ks →
    Arises (symbols.bind d.name.value (.scalar (.temp n) (ks.bind (·.head?)))) (n + 1)
  | array {symbols n dims ks} (constant : Bool) (d : Definition) : Arises symbols n →
    evalDims symbols d.dims = .ok dims → dims ≠ [] → volume dims ≤ maxWords →
    knownValues constant symbols (d.init.map fun i => layOut dims i.value) = .ok ks →
    Arises (symbols.bind d.name.value (.array (.address (.temp n)) dims ks)) (n + 1)

namespace Symbols.Arises

variable {symbols inner : Symbols} {ctx : Context} {σ σ' : Supply} {n n' : Nat}

theorem mono (h : symbols.Arises n) (hle : n ≤ n') : symbols.Arises n' := by
  induction hle with
  | refl => exact h
  | step _ ih => exact ih.draw

variable {constant : Bool} {is : List Instr}

theorem globals {gs : List IR.Global} (harises : symbols.Arises n)
    (h : lowerGlobals constant symbols ds = .ok (gs, inner)) : inner.Arises n := by
  induction ds generalizing symbols gs with
  | nil =>
    cases h
    exact harises
  | cons d ds ih =>
    obtain ⟨dims, init, rest, hdims, hfits, hinit, hrest, -⟩ := lowerGlobals_cons h
    exact ih (harises.global constant d hdims hfits hinit) hrest

theorem definition {d : Definition} (harises : ctx.symbols.Arises σ.temps)
    (h : lowerDefinition constant ctx d σ = .ok ((is, inner), σ')) : inner.Arises σ'.temps := by
  obtain ⟨dims, ks, hdims, hks, ⟨rfl, _, _, rfl, h, -⟩ | ⟨hne, hfits, _, rfl, h, -⟩⟩ :=
    lowerDefinition_ok h
  · exact (harises.scalar constant d hdims hks).mono (initialValue_extends h).temps
  · exact (harises.array constant d hdims hne hfits hks).mono (storeItems_extends h).temps

theorem definitions (harises : ctx.symbols.Arises σ.temps)
    (h : lowerDefinitions constant ctx ds σ = .ok ((is, inner), σ')) : inner.Arises σ'.temps := by
  induction ds generalizing ctx σ is with
  | nil =>
    obtain ⟨-, rfl, rfl⟩ := lowerDefinitions_nil h
    exact harises
  | cons d ds ih =>
    obtain ⟨_, _, _, _, h1, h2, -⟩ := lowerDefinitions_cons h
    exact ih (harises.definition h1) h2

theorem parameters {ps : List Parameter} {i : Nat} (harises : symbols.Arises σ.temps)
    (h : lowerParameters symbols i ps σ = .ok ((is, inner), σ')) : inner.Arises σ'.temps := by
  induction ps generalizing symbols i σ is with
  | nil =>
    obtain ⟨-, rfl, rfl⟩ := lowerParameters_nil h
    exact harises
  | cons p ps ih =>
    obtain ⟨_, _, hsymbol, hrest, -⟩ := lowerParameters_cons h
    exact ih (harises.parameter p hsymbol) hrest

end Symbols.Arises

/-! ## Proper symbols -/

/-- The value by which the words of a variable are found: their address, or that
of the slot in which it is. -/
def Symbol.access : Symbol → Value
  | .scalar v _ | .array (.address v) _ _ | .array (.pointer v) _ _ => v

/-- What the code of a variable relies on when `n` temporaries have been handed
out. -/
structure Symbol.Proper (n : Nat) (s : Symbol) : Prop where
  /-- The variable is found by a temporary of these, if by one. -/
  below : ∀ t ∈ s.access.temp?, t < n
  /-- An array of known values has a dimension, and no more words than fit. -/
  sized : ∀ {base dims values}, s = .array base dims (some values) →
    dims ≠ [] ∧ values.length ≤ maxWords

/-- The same of all variables in scope. -/
def Symbols.Proper (symbols : Symbols) (n : Nat) : Prop :=
  ∀ ⦃name s⦄, symbols.lookup name = some s → s.Proper n

section

variable {symbols : Symbols} {n n' : Nat}

theorem Symbols.Proper.mono (h : symbols.Proper n) (hle : n ≤ n') : symbols.Proper n' :=
  fun _ _ hs => ⟨fun t ht => Nat.lt_of_lt_of_le ((h hs).below t ht) hle, (h hs).sized⟩

variable {s : Symbol}

theorem Symbols.Proper.bind (h : symbols.Proper n) (name : String) (hs : s.Proper n) :
    Symbols.Proper (Env.bind symbols name s) n := by
  intro other s' hs'
  obtain ⟨-, rfl⟩ | ⟨-, hs'⟩ := Env.of_lookup_bind hs'
  · exact hs
  · exact h hs'

/-- A variable that has just got room. -/
theorem Symbol.Proper.newest (haccess : s.access = .temp n)
    (hsized : ∀ {base dims values}, s = .array base dims (some values) →
      dims ≠ [] ∧ values.length ≤ maxWords) : s.Proper (n + 1) where
  below := by
    intro t ht
    rw [haccess] at ht
    cases ht
    exact Nat.lt_succ_self n
  sized := hsized

theorem globalSymbol_proper {constant : Bool} {name : String} {dims : List Nat} {init : List Int32}
    (hfits : init.length ≤ maxWords) : (globalSymbol constant name dims init).Proper n := by
  unfold globalSymbol
  cases dims with
  | nil => exact ⟨(fun t ht => by cases ht), fun h => by cases h⟩
  | cons d ds =>
    refine ⟨(fun t ht => by cases ht), fun h => ?_⟩
    cases constant with
    | false => cases h
    | true =>
      cases h
      exact ⟨cons_ne_nil _ _, hfits⟩

theorem parameterSymbol_proper {p : Parameter}
    (h : parameterSymbol symbols (.temp n) p = .ok s) : s.Proper (n + 1) := by
  unfold parameterSymbol at h
  split at h
  · cases h
    exact .newest rfl fun h => by cases h
  · obtain ⟨dims, -, h⟩ := except_bind_ok.1 h
    cases h
    exact .newest rfl fun h => by cases h

/-- **The environments that come up are proper.** -/
theorem Symbols.Arises.proper (h : symbols.Arises n) : symbols.Proper n := by
  induction h with
  | start => exact fun _ _ hs => by cases hs
  | draw _ ih => exact ih.mono (Nat.le_succ _)
  | enter _ ih =>
    intro name s hs
    rw [Env.lookup_enter] at hs
    exact ih hs
  | global constant d _ hdims hfits hinit ih =>
    exact ih.bind _ (globalSymbol_proper (globalInit_length (evalDims_pos hdims) hinit ▸ hfits))
  | parameter p _ hs ih => exact (ih.mono (Nat.le_succ _)).bind _ (parameterSymbol_proper hs)
  | scalar constant d _ _ _ ih =>
    exact (ih.mono (Nat.le_succ _)).bind _ (.newest rfl fun h => by cases h)
  | array constant d _ hdims hne hfits hks ih =>
    refine (ih.mono (Nat.le_succ _)).bind _ (.newest rfl fun h => ?_)
    cases h
    refine ⟨hne, ?_⟩
    rw [(knownValues_ok hks).1 _ rfl]
    cases d.init with
    | none => exact Nat.zero_le _
    | some i => exact layOut_length (evalDims_pos hdims) i.value ▸ hfits

end

/-! ## Memory that holds the constants -/

section

variable (m : IR.Module) (args : List IR.Val) (temps : Temps) (mem : IR.Memory)

/-- The words of a variable hold the values that are known of it. -/
def Symbol.Held : Symbol → Prop
  | .scalar v (some n) => ∃ p, v.eval m args temps = some (.addr p) ∧ mem.load p = some (.int n)
  | .array base _ (some values) => ∃ p, base.At m args temps mem p ∧ mem.Holds p values
  | .scalar _ none | .array _ _ none => True

/-- **The words of the constants in scope hold what was recorded for them.** -/
def ConstantsHeld (symbols : Symbols) : Prop :=
  ∀ ⦃name s⦄, symbols.lookup name = some s → s.Held m args temps mem

variable {m args temps mem} {prev : Option Label} {temps' : Temps} {symbols : Symbols} {n bound bound1 : Nat}

theorem eval_frame (hbelow : ∀ t ∈ v.temp?, t < n) (hframe : ∀ t < n, temps' t = temps t) :
    v.eval m args temps' = v.eval m args temps := by
  cases v with
  | temp t => exact congrArg some (hframe t (hbelow t rfl))
  | const | global | arg => rfl

theorem Symbol.Held.frame {s : Symbol} (h : s.Held m args temps mem) (hs : s.Proper n)
    (hframe : ∀ t < n, temps' t = temps t) : s.Held m args temps' mem := by
  have heval : s.access.eval m args temps' = s.access.eval m args temps :=
    eval_frame hs.below hframe
  cases s with
  | scalar v k =>
    cases k with
    | none => trivial
    | some k =>
      obtain ⟨p, hv, hload⟩ := h
      exact ⟨p, heval.trans hv, hload⟩
  | array base dims values =>
    cases values with
    | none => trivial
    | some values =>
      obtain ⟨p, hp, hholds⟩ := h
      refine ⟨p, ?_, hholds⟩
      cases base with
      | address v => exact heval.trans hp
      | pointer slot =>
        obtain ⟨q, hq, hload⟩ := hp
        exact ⟨q, heval.trans hq, hload⟩

/-- Constants stay where they are while new temporaries are assigned. -/
theorem ConstantsHeld.frame (h : ConstantsHeld m args temps mem symbols)
    (hproper : symbols.Proper n) (hframe : ∀ t < n, temps' t = temps t) :
    ConstantsHeld m args temps' mem symbols :=
  fun _ _ hs => (h hs).frame (hproper hs) hframe

end

/-! ## The code of constants -/

section

variable {m : IR.Module} {args : List IR.Val} {prev : Option Label} {temps : Temps}
  {mem : IR.Memory} {ctx : Context} {σ σ' : Supply} {bound : Nat}

/-- The code of an expression that is a constant comes to its value, and leaves
memory alone. -/
def ConstantComesTo (m : IR.Module) (args : List IR.Val) (prev : Option Label) (mem : IR.Memory)
    (ctx : Context) (e : Expr) : Prop :=
  ∀ ⦃n : Int32⦄, evalConst ctx.symbols e = .ok n → ∀ ⦃σ σ' : Supply⦄ ⦃is : List Instr⦄ ⦃v : Value⦄,
    lowerExpr ctx e σ = .ok ((is, v), σ') → ctx.symbols.Proper σ.temps →
    ∀ ⦃temps : Temps⦄, ConstantsHeld m args temps mem ctx.symbols →
      Yields m args prev is σ.temps temps mem (· = mem) fun temps' =>
        Stands m args temps' σ'.temps v (.int n)

/-- The subscripts of a constant come to their values. -/
theorem comeTo_of_evalOffset (hes : ∀ e ∈ es, ConstantComesTo m args prev mem ctx e)
    (hproper : ctx.symbols.Proper bound) (hheld : ConstantsHeld m args temps mem ctx.symbols)
    {offset k : Nat} (hlength : es.length = sizes.length)
    (hk : evalOffset ctx.symbols span offset es sizes = .ok k) :
    ∃ indices, Source.position offset indices sizes = some k ∧
      ComeTo m args prev ctx bound temps (· = mem) es indices (· = mem) := by
  induction es generalizing sizes offset with
  | nil =>
    cases hk
    exact ⟨[], rfl, .nil⟩
  | cons e es ih =>
    cases sizes with
    | nil => cases hlength
    | cons size sizes =>
      obtain ⟨i, next, hi, hnext, hk⟩ := evalOffset_cons hk
      obtain ⟨indices, hposition, hcome⟩ :=
        ih (fun e he => hes e (mem_cons_of_mem _ he)) (Nat.succ.inj hlength) hk
      refine ⟨i :: indices, ?_, .cons ?_ hcome⟩
      · rw [Source.position, hnext]
        exact hposition
      · rintro σ σ' is v h hle temps' _ hframe rfl
        exact hes e mem_cons_self hi h (hproper.mono hle) (hheld.frame hproper hframe)

/-- **The address of a constant**, from which its value can be loaded. -/
theorem lowerAddress_comesTo (hindices : ∀ e ∈ indices, ConstantComesTo m args prev mem ctx e)
    {n : Int32} (hn : evalConst ctx.symbols (.lval span name indices) = .ok n) {is : List Instr}
    {scalar : Bool} (h : lowerAddress ctx name indices σ = .ok ((is, v, scalar), σ'))
    (hproper : ctx.symbols.Proper σ.temps) (hheld : ConstantsHeld m args temps mem ctx.symbols) :
    scalar = true ∧ Yields m args prev is σ.temps temps mem (· = mem) fun temps' =>
      ∃ p, Stands m args temps' σ'.temps v (.addr p) ∧ mem.load p = some (.int n) := by
  obtain ⟨v', hs⟩ | ⟨base, dims, values, k, hs, hlength, hk, hvalue⟩ := evalConst_lval hn
  · obtain ⟨k, hs', rfl, rfl, rfl⟩ | ⟨_, _, _, _, _, _, hs', -⟩ := lowerAddress_ok h
    · cases hs.symm.trans (resolve_ok hs')
      obtain ⟨p, hp, hload⟩ := hheld hs
      exact ⟨rfl, .nil rfl ⟨p, ⟨hp, fun t ht => (hproper hs).below t (ht ▸ rfl)⟩, hload⟩⟩
    · cases hs.symm.trans (resolve_ok hs')
  · obtain ⟨hne, hfits⟩ := (hproper hs).sized rfl
    obtain ⟨p, hp, hholds⟩ := hheld hs
    obtain ⟨d, ds, rfl⟩ := exists_cons_of_ne_nil hne
    have hbelow : ∀ t, base = .address (.temp t) → t < σ.temps := by
      rintro t rfl
      exact (hproper hs).below t rfl
    obtain ⟨is, hposition, hes⟩ := comeTo_of_evalOffset hindices hproper hheld hlength hk
    obtain ⟨hscalar, hyields⟩ := lowerAddress_yields (M := (· = mem)) h hs hp hbelow rfl hes hposition
    have hrest : (d :: ds).drop indices.length = [] := by
      rw [hlength]
      exact drop_length
    rw [hrest] at hscalar hyields
    refine ⟨?_, hyields.imp fun _ hv => ⟨_, hv, ?_⟩⟩
    · cases indices with
      | nil => cases hlength
      | cons => exact hscalar
    · have hlt : k < values.length := (List.getElem?_eq_some_iff.1 hvalue).1
      rw [show k * volume [] = k from Nat.mul_one k, IR.Pointer.shift, toInt_ofNat_of_le (by omega)]
      exact hholds k n hvalue

/-- **The code of a constant comes to its value.** -/
theorem lowerExpr_comesTo (e : Expr) : ConstantComesTo m args prev mem ctx e := by
  induction e using Expr.induction with
  | number span text =>
    intro n hn σ σ' is v h _ temps _
    obtain ⟨k, hk, rfl, rfl, rfl⟩ := lowerExpr_number h
    rw [evalConst] at hn
    cases hk.symm.trans hn
    exact .nil rfl ⟨rfl, fun t ht => by cases ht⟩
  | paren span e ih =>
    intro n hn σ σ' is v h
    rw [lowerExpr_paren] at h
    rw [evalConst] at hn
    exact ih hn h
  | lval span name indices ih =>
    intro n hn σ σ' is v h hproper temps hheld
    obtain ⟨c, a, scalar, σ1, h1, h⟩ := lowerExpr_lval h
    obtain ⟨rfl, haddress⟩ := lowerAddress_comesTo ih hn h1 hproper hheld
    obtain ⟨-, rfl, rfl, rfl⟩ | ⟨hfalse, -⟩ := h
    · refine haddress.append (lowerAddress_extends h1).temps ?_
      rintro temps1 _ rfl - ⟨p, hp, hload⟩
      exact .result (eval_load hp.1 hload) rfl
    · cases hfalse
  | unary span op e ih =>
    intro n hn σ σ' is v h hproper temps hheld
    rw [evalConst] at hn
    obtain ⟨k, hk, hn⟩ := except_bind_ok.1 hn
    cases hn
    obtain ⟨c1, x, σ1, c2, h1, h2, rfl⟩ := lowerExpr_unary h
    exact (ih hk h1 hproper hheld).append (lowerExpr_extends e h1).temps
      fun temps1 _ hmem _ hx => hmem ▸ unaryCode_yields h2 rfl hx
  | binary span op a b iha ihb =>
    intro n hn σ σ' is v h hproper temps hheld
    rw [evalConst] at hn
    obtain ⟨x, hx, hn⟩ := except_bind_ok.1 hn
    obtain ⟨y, hy, hn⟩ := except_bind_ok.1 hn
    have hvalue : binaryValue op x y = some n := by
      split at hn
      next hvalue =>
        cases hn
        exact hvalue
      next => cases hn
    obtain ⟨c1, y, σ1, c2, z, σ2, h1, h2, rfl, rfl, rfl⟩ := lowerExpr_binary h
    have hle1 := (lowerExpr_extends a h1).temps
    have hle2 := (lowerExpr_extends b h2).temps
    rw [append_assoc]
    refine (iha hx h1 hproper hheld).append hle1 ?_
    rintro temps1 _ rfl hframe1 hy1
    refine (ihb hy h2 (hproper.mono hle1) (hheld.frame hproper hframe1)).append hle2 ?_
    rintro temps2 _ rfl hframe2 hz
    rw [← binOp_apply] at hvalue
    exact .result (eval_binary (hy1.mono hframe2 hle2).1 hz.1 hvalue) rfl
  | call span callee es ih =>
    intro n hn
    rw [evalConst] at hn
    cases hn

end

/-! ## That there is code, and what it consists of -/

/-- Lowering gives code that only computes. -/
abbrev GivesComputation {α : Type} (g : Gen (List Instr × α)) : Prop :=
  GenEnds (fun _ => False) g fun r => ∀ i ∈ r.1, i.op.computes = true

section

variable {ctx : Context}

theorem define_computes {op : Op} (h : op.computes = true) : GivesComputation (define op) :=
  fun _ => forall_mem_singleton.2 h

theorem unaryCode_computes (op : UnaryOp) (v : Value) : GivesComputation (unaryCode op v) := by
  cases op with
  | plus => exact .pure (forall_mem_nil _)
  | minus => exact define_computes rfl
  | not =>
    exact (define_computes rfl).bind fun _ h1 => (define_computes rfl).bind fun _ h2 =>
      .pure (forall_mem_append.2 ⟨h1, h2⟩)

theorem lowerOffset_computes (hes : ∀ e ∈ es, GivesComputation (lowerExpr ctx e)) (offset : Value)
    (sizes : List Nat) : GivesComputation (lowerOffset ctx offset es sizes) := by
  induction es generalizing offset sizes with
  | nil => cases sizes <;> exact fun _ => forall_mem_nil _
  | cons e es ih =>
    cases sizes with
    | nil => exact fun _ => forall_mem_nil _
    | cons size sizes =>
      rw [lowerOffset]
      refine (define_computes rfl).bind fun _ h1 => (hes e mem_cons_self).bind fun _ h2 => ?_
      refine (define_computes rfl).bind fun _ h3 => ?_
      refine (ih (fun e he => hes e (mem_cons_of_mem _ he)) _ _).bind fun _ h4 => .pure ?_
      simp only [forall_mem_append]
      exact ⟨⟨⟨h1, h2⟩, h3⟩, h4⟩

/-- The subscripts of a constant are constants. -/
theorem evalConst_of_evalOffset {symbols : Symbols} {offset k : Nat}
    (hlength : es.length = sizes.length) (h : evalOffset symbols span offset es sizes = .ok k) :
    ∀ e ∈ es, ∃ n, evalConst symbols e = .ok n := by
  induction es generalizing sizes offset with
  | nil => exact fun e he => by cases he
  | cons e es ih =>
    cases sizes with
    | nil => cases hlength
    | cons size sizes =>
      obtain ⟨i, next, hi, -, h⟩ := evalOffset_cons h
      exact forall_mem_cons.2 ⟨⟨i, hi⟩, ih (Nat.succ.inj hlength) h⟩

theorem lowerAddress_computes (hindices : ∀ e ∈ indices, ∀ n, evalConst ctx.symbols e = .ok n →
      GivesComputation (lowerExpr ctx e)) {n : Int32}
    (hn : evalConst ctx.symbols (.lval span name indices) = .ok n) :
    GivesComputation (lowerAddress ctx name indices) := by
  have hresolve {s : Symbol} (hs : ctx.symbols.lookup name.value = some s) :
      ctx.symbols.resolve name = .ok s := by
    unfold Symbols.resolve
    rw [hs]
  rw [lowerAddress]
  obtain ⟨v, hs⟩ | ⟨base, dims, values, k, hs, hlength, hk, -⟩ := evalConst_lval hn
  · rw [hresolve hs]
    exact fun _ => forall_mem_nil _
  · rw [hresolve hs]
    have hconst := evalConst_of_evalOffset hlength hk
    have hbase : GivesComputation (baseAddress base) := by
      cases base with
      | address v => exact .pure (forall_mem_nil _)
      | pointer slot => exact define_computes rfl
    refine GenEnds.bind (P := (· = Symbol.array base dims (some values))) (Ends.lift rfl) ?_
    rintro _ rfl
    refine hbase.bind fun _ h1 => ?_
    cases indices with
    | nil => exact .pure h1
    | cons e es =>
      have hes : ∀ e' ∈ e :: es, GivesComputation (lowerExpr ctx e') := fun e' he' =>
        (hconst e' he').elim fun n hn => hindices e' he' n hn
      have hrest : dims.drop (es.length + 1) = [] :=
        drop_eq_nil_of_le (Nat.le_of_eq hlength.symm)
      have hscale (offset : Value) :
          GivesComputation (scaleByRow offset (dims.drop (es.length + 1))) := by
        rw [hrest]
        exact .pure (forall_mem_nil _)
      have hoffset := lowerOffset_computes fun e he => hes e (mem_cons_of_mem _ he)
      refine (hes e mem_cons_self).bind fun _ h2 => (hoffset _ _).bind fun _ h3 => ?_
      refine (hscale _).bind fun _ h4 => (define_computes rfl).bind fun _ h5 => .pure ?_
      simp only [forall_mem_append]
      exact ⟨⟨⟨⟨h1, h2⟩, h3⟩, h4⟩, h5⟩

/-- **The code of a constant only computes**, and there is some. -/
theorem lowerExpr_computes (e : Expr) : ∀ n, evalConst ctx.symbols e = .ok n →
    GivesComputation (lowerExpr ctx e) := by
  induction e using Expr.induction with
  | number span text =>
    intro n hn
    rw [evalConst] at hn
    rw [lowerExpr, hn]
    exact fun _ => forall_mem_nil _
  | paren span e ih =>
    intro n hn
    rw [evalConst] at hn
    rw [lowerExpr]
    exact ih n hn
  | lval span name indices ih =>
    intro n hn
    rw [lowerExpr]
    refine (lowerAddress_computes ih hn).bind fun r h1 => ?_
    obtain ⟨code, address, isScalar⟩ := r
    cases isScalar with
    | true =>
      exact (define_computes rfl).bind fun _ h2 => .pure (forall_mem_append.2 ⟨h1, h2⟩)
    | false => exact .pure h1
  | unary span op e ih =>
    intro n hn
    rw [evalConst] at hn
    obtain ⟨k, hk, -⟩ := except_bind_ok.1 hn
    rw [lowerExpr]
    exact (ih k hk).bind fun _ h1 => (unaryCode_computes _ _).bind fun _ h2 =>
      .pure (forall_mem_append.2 ⟨h1, h2⟩)
  | binary span op a b iha ihb =>
    intro n hn
    rw [evalConst] at hn
    obtain ⟨x, hx, hn⟩ := except_bind_ok.1 hn
    obtain ⟨y, hy, -⟩ := except_bind_ok.1 hn
    rw [lowerExpr]
    refine (iha x hx).bind fun _ h1 => (ihb y hy).bind fun _ h2 => ?_
    refine (define_computes rfl).bind fun _ h3 => .pure ?_
    simp only [forall_mem_append]
    exact ⟨⟨h1, h2⟩, h3⟩
  | call span callee es ih =>
    intro n hn
    rw [evalConst] at hn
    cases hn

/-- **Constants have the same value at run time.** Where an expression has a value
that is known when the program is compiled, in an environment that comes up there,
it can be lowered; its code, in the current block, only computes; and if memory
holds what was recorded for the constants in scope, a run of the code comes to that
value and leaves memory as it is. -/
theorem lowerExpr_of_evalConst {σ : Supply} (harises : ctx.symbols.Arises σ.temps) {e : Expr}
    {n : Int32} (hn : evalConst ctx.symbols e = .ok n) :
    ∃ is v σ', lowerExpr ctx e σ = .ok ((is, v), σ') ∧ σ'.names = σ.names ∧
      σ'.current = σ.current ∧ (∀ i ∈ is, i.op.computes = true) ∧
      ∀ ⦃m args prev temps mem⦄, ConstantsHeld m args temps mem ctx.symbols →
        ∃ temps', Steps m args prev is temps mem temps' mem ∧
          v.eval m args temps' = some (.int n) := by
  have hends := lowerExpr_computes e n hn σ
  cases hlower : lowerExpr ctx e σ with
  | error stop =>
    rw [hlower] at hends
    exact hends.elim
  | ok r =>
    obtain ⟨⟨is, v⟩, σ'⟩ := r
    rw [hlower] at hends
    have hextends := lowerExpr_extends e hlower
    refine ⟨is, v, σ', rfl, hextends.names, hextends.current, hends, ?_⟩
    intro m args prev temps mem hheld
    have hcomes : ConstantComesTo m args prev mem ctx e := lowerExpr_comesTo e
    obtain ⟨temps', _, hsteps, rfl, -, hv⟩ := hcomes hn hlower harises.proper hheld
    exact ⟨temps', hsteps, hv.1⟩

end

/-! ## A table -/

open Source.Sample (num get row)

/-- Words that are laid out at the start of memory. -/
theorem holds_first (values : List Int32) :
    IR.Memory.Holds (values.map fun n => some (.int n)) (.first 0 values.length) values := by
  intro i n hn
  have hlt : i < values.length := (List.getElem?_eq_some_iff.1 hn).1
  have hword : (IR.Pointer.mk 0 values.length (0 + i)).word? = some i := by
    unfold IR.Pointer.word?
    rw [if_pos (by dsimp only; omega)]
    exact congrArg some (by dsimp only; omega)
  show (IR.Pointer.mk 0 values.length (0 + i)).word?.bind _ = _
  rw [hword, Option.bind_some, getElem?_map, hn]
  rfl

/-- `const int t[2][2] = {{1, 2147483648}, {3, 0xffffffff}};` -/
def table : Definition :=
  Source.Sample.array "t" [num "2", num "2"] (some (.list default
    [row [num "1", num "2147483648"], row [num "3", num "0xffffffff"]]))

/-- `t[!t[0][0]][t[0][0]] / t[1][1]`, the quotient of the smallest integer and
`-1`. -/
def tableQuotient : Expr :=
  .binary default .div
    (get "t" [.unary default ⟨.not, default⟩ (get "t" [num "0", num "0"]),
      get "t" [num "0", num "0"]])
    (get "t" [num "1", num "1"])

/-- A quotient that wraps around, of elements of a constant array whose subscripts
are elements themselves. -/
theorem lowerExpr_of_evalConst_table :
    ∃ symbols gs, lowerGlobals true [[]] [table] = .ok (gs, symbols) ∧
      evalConst symbols tableQuotient = .ok (-2147483648) ∧
      ∃ is v σ' temps', lowerExpr ⟨symbols.enter, [], none⟩ tableQuotient {} = .ok ((is, v), σ') ∧
        (∀ i ∈ is, i.op.computes = true) ∧
        Steps ⟨gs, []⟩ [] none is (fun _ => .int 0) [some (.int 1), some (.int (-2147483648)),
          some (.int 3), some (.int (-1))] temps' [some (.int 1), some (.int (-2147483648)),
          some (.int 3), some (.int (-1))] ∧
        v.eval ⟨gs, []⟩ [] temps' = some (.int (-2147483648)) := by
  have hglobals : lowerGlobals true [[]] [table] = .ok ([⟨"t", [1, -2147483648, 3, -1]⟩],
      [[("t", .array (.address (.global "t")) [2, 2] (some [1, -2147483648, 3, -1]))]]) := by
    decide +kernel
  refine ⟨_, _, hglobals, by decide +kernel, ?_⟩
  let ctx : Context := ⟨Env.enter (Env.bind [[]] "t"
    (.array (.address (.global "t")) [2, 2] (some [1, -2147483648, 3, -1]))), [], none⟩
  have hvalue : evalConst ctx.symbols tableQuotient = .ok (-2147483648) := by decide +kernel
  have harises : ctx.symbols.Arises (Supply.temps {}) :=
    (Symbols.Arises.start.globals hglobals).enter
  obtain ⟨is, v, σ', hlower, -, -, hcomputes, hruns⟩ := lowerExpr_of_evalConst harises hvalue
  have hheld : ConstantsHeld ⟨[⟨"t", [1, -2147483648, 3, -1]⟩], []⟩ [] (fun _ => .int 0)
      ([1, -2147483648, 3, -1].map fun n => some (.int n)) ctx.symbols := by
    intro name s hs
    rw [Env.lookup_enter] at hs
    obtain ⟨-, rfl⟩ | ⟨-, ⟨⟩⟩ := Env.of_lookup_bind hs
    exact ⟨_, rfl, holds_first _⟩
  obtain ⟨temps', hsteps, hv⟩ := hruns hheld
  exact ⟨is, v, σ', temps', hlower, hcomputes, hsteps, hv⟩

end Lower

end SysY
