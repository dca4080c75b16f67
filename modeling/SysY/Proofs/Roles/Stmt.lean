import SysY.Proofs.Roles.Expr

/-!
# The roles of declarations and statements

What is stored is an integer: a value to be assigned and an expression of an
initial value may be no array, which is asked of the places of the program. The
words of a constant are stored as numbers, so nothing is asked of their
expressions here; but they are evaluated before, where their names must be
known.
-/

namespace SysY.Lower

open IR (Value Op Instr Label Temp)
open List

variable {P : Policy} {R : Reading P} {pre : Prop} {env : TyEnv} {ctx : Context} {returns : Ty}
  {constant : Bool} {d : Definition} {cond : Gen (Code × Value)}

/-! ## Declarations -/

/-- The expression of a word may be lowered. -/
def Policy.WordReady (P : Policy) (env : TyEnv) (e : Expr) : Prop :=
  P.site ⟨env, .word e⟩ ∧ P.Ready (e.findings env) (e.sites env)

theorem initialValue_given (h : P.Scope (pre → R.Symbol ·) env ctx.symbols ctx.functions)
    {k : Option Int32} {item : Option Expr}
    (hitem : k = none → ∀ e, item = some e → P.WordReady env e) :
    GenEnds P.allowed (initialValue ctx k item) fun r => R.Given pre r.1 (R.has .int r.2) := by
  unfold initialValue
  split
  · exact .pure (.nil fun _ => R.const _)
  next e =>
    obtain ⟨hword, hready⟩ := hitem rfl e rfl
    exact lowerWord_given h hword hready
  · exact .pure (.nil fun _ => R.const 0)

/-- The words of an array are initialised with integers; where they are known,
they are all known. -/
theorem storeItems_given (h : P.Scope (pre → R.Symbol ·) env ctx.symbols ctx.functions)
    {base : Value} (hbase : pre → R.has .array base) {constants : Option (List Int32)} {i : Nat}
    {items : List (Option Expr)} (hknown : ∀ l, constants = some l → l.length = items.length)
    (hitems : constants = none → ∀ e, some e ∈ items → P.WordReady env e) :
    GenEnds P.allowed (storeItems ctx base constants i items) fun c => R.Given pre c True := by
  induction items generalizing constants i with
  | nil => exact .pure (.nil fun _ => trivial)
  | cons item items ih =>
    have hnone : constants.bind (·.head?) = none → constants = none := by
      intro hhead
      cases constants with
      | none => rfl
      | some l =>
        cases head?_eq_none_iff.1 hhead
        cases hknown [] rfl
    rw [storeItems]
    refine (initialValue_given h fun hhead e he =>
      hitems (hnone hhead) e (he ▸ mem_cons_self)).bind fun r1 h1 => ?_
    refine R.define_given.bind fun r2 h2 => ?_
    refine (ih (fun l hl => ?_) fun hl e he => ?_).bind fun c h3 => .pure ?_
    · obtain ⟨l', rfl, rfl⟩ := Option.map_eq_some_iff.1 hl
      rw [length_tail, hknown l' rfl, length_cons, Nat.add_sub_cancel]
    · exact hitems (Option.map_eq_none_iff.1 hl) e (mem_cons_of_mem _ he)
    · rw [append_cons]
      have hplace : R.Given pre r2.1 (R.has .array r2.2) :=
        .assume fun hpre => h2 (.element (hbase hpre) (R.const _))
      exact ((h1.and hplace).perform fun hvs => .store hvs.1 (.inr hvs.2)).andThen fun _ => h3

/-- What a definition declares, and what its expressions are ready for: those
of a constant to be evaluated before it, and the others to be lowered after
it. -/
theorem Policy.Ready.definition (h : P.Ready (d.judge env).2 (d.sites constant env)) :
    (P.judged → (d.judge env).1 = env.bind d.name.value d.type) ∧
      (∀ s ∈ Expr.sitesAll env d.dims, P.site s) ∧
      ∀ dims e, some e ∈ (d.init.map fun i => layOut dims i.value).getD [] →
        (constant = true → ∀ s ∈ e.sites env, P.site s) ∧
        (constant = false → P.WordReady (d.judge env).1 e) := by
  obtain ⟨hnil, hsites⟩ := h
  rw [Definition.sites, forall_mem_append] at hsites
  refine ⟨fun hj => (judge_definition (hnil hj)).1, hsites.1, fun dims e he => ?_⟩
  cases hi : d.init with
  | none =>
    rw [hi] at he
    cases he
  | some i =>
    rw [hi] at he
    have hmem := mem_exprs_of_mem_layOut he
    have hplaces := hsites.2
    rw [hi] at hplaces
    obtain ⟨hword, hall⟩ := InitVal.forall_sites.1 hplaces e hmem
    cases constant with
    | true => exact ⟨fun _ => hall, fun h => Bool.noConfusion h⟩
    | false =>
      refine ⟨fun h => Bool.noConfusion h, fun _ => ⟨hword, fun hj => ?_, hall⟩⟩
      exact findings_of_mem_exprs _ ((judge_definition (hnil hj)).2 i hi) e hmem

theorem definitionItems_ends (P : Policy) (dims : List Nat) (init : Option Initializer) :
    Ends P.allowed (definitionItems dims init) fun items =>
      items = init.map fun i => layOut dims i.value := by
  cases init with
  | none => rfl
  | some i => exact (wordVolume_ends (.inr (P.stops _ rfl))).bind fun _ _ => rfl

/-- What is in scope after code is so if the code is there. -/
def Reading.Opens (R : Reading P) (pre : Prop) (env : TyEnv) (functions : Frame Signature)
    (r : List Instr × Symbols) : Prop :=
  R.Given pre r.1 True ∧
    P.Scope ((pre ∧ ∀ i ∈ r.1, R.there i) → R.Symbol ·) env r.2 functions

/-- **The code of a definition.** -/
theorem lowerDefinition_given (h : P.Scope (pre → R.Symbol ·) env ctx.symbols ctx.functions)
    (hready : P.Ready (d.judge env).2 (d.sites constant env)) :
    GenEnds P.allowed (lowerDefinition constant ctx d)
      (R.Opens pre (d.judge env).1 ctx.functions) := by
  obtain ⟨henv, hdims, hitem⟩ := hready.definition
  rw [lowerDefinition]
  refine (h.evalDims_ends hdims).eq_ok.lift.bind fun dims hlen => ?_
  replace hlen := evalDims_length hlen
  refine (definitionItems_ends P dims d.init).lift.bind fun items hitems => ?_
  subst hitems
  have hvalues : Ends P.allowed (knownValues constant ctx.symbols
      (d.init.map fun i => layOut dims i.value)) fun _ => True := by
    unfold knownValues
    split
    next items hitems =>
      refine (evalItems_ends fun e he => evalConst_ends h e ?_).bind fun _ _ => trivial
      exact (hitem dims e (by rw [hitems]; exact he)).1 rfl
    next => trivial
  refine hvalues.eq_ok.lift.bind fun constants hconstants => ?_
  obtain ⟨hknown, hunknown⟩ := knownValues_ok hconstants
  have hword : constants = none → ∀ e,
      some e ∈ (d.init.map fun i => layOut dims i.value).getD [] →
      P.WordReady (d.judge env).1 e := by
    intro hnone e he
    obtain rfl | hnoitems := hunknown hnone
    · exact (hitem dims e he).2 rfl
    · rw [hnoitems] at he
      cases he
  -- the scope in which the name is bound, once its room is there
  have hbind : ∀ {is : List Instr} {s : Symbol}, (pre ∧ (∀ i ∈ is, R.there i) → R.Symbol s) →
      Suits s (.arrayOf .int dims.length) → P.Scope ((pre ∧ ∀ i ∈ is, R.there i) → R.Symbol ·)
        (d.judge env).1 (ctx.symbols.bind d.name.value s) ctx.functions := fun hs hsuits =>
    (h.imp fun s hs hpre => hs hpre.1).bind _ hs fun hj =>
      ⟨_, henv hj, by rwa [Definition.type, ← hlen]⟩
  have hlater : ∀ {is is' : List Instr} {symbols : Symbols},
      P.Scope ((pre ∧ ∀ i ∈ is, R.there i) → R.Symbol ·) (d.judge env).1 symbols ctx.functions →
      P.Scope ((pre ∧ ∀ i ∈ is ++ is', R.there i) → R.Symbol ·) (d.judge env).1 symbols
        ctx.functions := fun h =>
    h.imp fun s hs hpre => hs ⟨hpre.1, fun i hi => hpre.2 i (mem_append_left _ hi)⟩
  split
  next hscalar =>
    rw [List.isEmpty_iff] at hscalar
    subst hscalar
    refine R.define_given.bind fun r1 h1 => ?_
    have hroom : R.Given pre r1.1 (R.has .cell r1.2) := h1 .alloca
    have hscope := hbind (s := .scalar r1.2 (constants.bind (·.head?)))
      (fun hpre => (hroom hpre.1 hpre.2).2) rfl
    refine (initialValue_given hscope fun hnone e he => ?_).bind fun r2 h2 => .pure ⟨?_, ?_⟩
    · have hmem := mem_of_join_head? he
      refine hword ?_ e hmem
      -- where an expression is laid out, the head of what is known is missing only if all is
      cases constants with
      | none => rfl
      | some l =>
        cases head?_eq_none_iff.1 hnone
        exact absurd (hknown [] rfl) (Nat.ne_of_lt (length_pos_of_mem hmem))
    · exact ((hroom.within fun ha => h2.imp (And.intro ha)).perform fun hvs =>
        .store hvs.2 (.inl hvs.1)).imp fun _ => trivial
    · rw [append_assoc]
      exact hlater hscope
  next harray =>
    refine (checkedWords_ends P dims d.name).lift.bind fun words _ => ?_
    refine R.define_given.bind fun r1 h1 => ?_
    have hroom : R.Given pre r1.1 (R.has .array r1.2) := h1 .array
    have hscope := hbind (s := .array (.address r1.2) dims constants)
      (fun hpre => ⟨(hroom hpre.1 hpre.2).2, by simpa using harray⟩) rfl
    refine (storeItems_given hscope (fun hpre => (hroom hpre.1 hpre.2).2) hknown hword).bind
      fun c h2 => .pure ⟨hroom.within fun _ => h2, hlater hscope⟩

theorem lowerDefinitions_given (h : P.Scope (pre → R.Symbol ·) env ctx.symbols ctx.functions) {ds : List Definition}
    (hready : P.Ready (TyEnv.judgeAll Definition.judge env ds).2
      (Definition.sitesAll constant env ds)) :
    GenEnds P.allowed (lowerDefinitions constant ctx ds)
      (R.Opens pre (TyEnv.judgeAll Definition.judge env ds).1 ctx.functions) := by
  induction ds generalizing env ctx pre with
  | nil => exact .pure ⟨.nil fun _ => trivial, h.imp fun s hs hpre => hs hpre.1⟩
  | cons d ds ih =>
    have hready' : P.Ready ((d.judge env).2 ++ (TyEnv.judgeAll Definition.judge (d.judge env).1 ds).2)
        (d.sites constant env ++ Definition.sitesAll constant (d.judge env).1 ds) := hready
    rw [P.ready_append] at hready'
    rw [lowerDefinitions]
    refine (lowerDefinition_given h hready'.1).bind fun r1 h1 => ?_
    have hrest : GenEnds P.allowed (lowerDefinitions constant { ctx with symbols := r1.2 } ds) _ :=
      ih h1.2 hready'.2
    refine hrest.bind fun r2 h2 => .pure ⟨h1.1.within fun _ => h2.1, h2.2.imp fun s hs hpre => ?_⟩
    rw [forall_mem_append] at hpre
    exact hs ⟨⟨hpre.1, hpre.2.1⟩, hpre.2.2⟩

/-! ## Statements -/

theorem branchCode_given (join : Label) {body : Gen Code}
    (hc : GenEnds P.allowed cond fun r => R.Given pre r.1.instrs (R.has .int r.2))
    (hb : GenEnds P.allowed body fun c => R.Given pre c.instrs True) :
    GenEnds P.allowed (branchCode join cond body) fun c => R.Given pre c.instrs True := by
  refine newBlock_ends.bind fun yes _ => newBlock_ends.bind fun no _ => ?_
  refine hc.bind fun r1 h1 => startBlock_instrs.bind fun c2 h2 => hb.bind fun c3 h3 => ?_
  refine startBlock_instrs.bind fun c4 h4 => .pure ?_
  simp only [Code.instrs_append, Code.instrs_perform, h2, h4, append_nil]
  exact ((h1.perform .branch).andThen fun _ => h3).perform fun _ => .jump

theorem loopCode_given {body : Loop → Gen Code}
    (hc : GenEnds P.allowed cond fun r => R.Given pre r.1.instrs (R.has .int r.2))
    (hb : ∀ loop, GenEnds P.allowed (body loop) fun c => R.Given pre c.instrs True) :
    GenEnds P.allowed (loopCode cond body) fun c => R.Given pre c.instrs True := by
  refine newBlock_ends.bind fun test _ => newBlock_ends.bind fun start _ => ?_
  refine newBlock_ends.bind fun next _ => startBlock_instrs.bind fun c1 h1 => ?_
  refine hc.bind fun r2 h2 => startBlock_instrs.bind fun c3 h3 => ?_
  refine (hb _).bind fun c4 h4 => startBlock_instrs.bind fun c5 h5 => .pure ?_
  simp only [Code.instrs_append, Code.instrs_perform, h1, h3, h5, append_nil]
  have henter : R.Given pre ([] ++ [⟨none, .jump test⟩]) True :=
    (Reading.Given.nil fun _ => trivial).perform fun _ => .jump
  exact (((henter.andThen fun _ => h2).perform .branch).andThen fun _ => h4).perform fun _ => .jump

theorem deadEnd_instrs {allowed : Stop → Prop} (op : Op) :
    GenEnds allowed (deadEnd op) fun c => c.instrs = [⟨none, op⟩] := fun _ => rfl

theorem deadEnd_given {op : Op} (hop : Uses R.has P.takes op none) :
    GenEnds P.allowed (deadEnd op) fun c => R.Given pre c.instrs True := by
  refine (deadEnd_instrs op).imp fun c hc => ?_
  rw [hc]
  exact (Reading.Given.nil fun _ => trivial).perform fun _ => hop

theorem leaveTo_given (target : Option Label) :
    GenEnds P.allowed (leaveTo target) fun c => R.Given pre c.instrs True := by
  cases target with
  | none => exact .pure (.nil fun _ => trivial)
  | some l => exact deadEnd_given .jump

mutual

/-- **The code of a statement** uses values as what they are. -/
theorem lowerStmt_given {pre : Prop} {env : TyEnv} (ctx : Context)
    (h : P.Scope (pre → R.Symbol ·) env ctx.symbols ctx.functions)
    (hreturns : returns.isArray = false) :
    (s : Stmt) → P.Ready (s.findings returns env) (s.sites env) →
    GenEnds P.allowed (lowerStmt ctx s) fun c => R.Given pre c.instrs True
  | .assign target mark value, hready => by
    obtain ⟨hnil, hsites⟩ := hready
    rw [Stmt.sites, forall_mem_cons, forall_mem_append] at hsites
    rw [lowerStmt]
    refine (lowerWord_given h hsites.1
      ⟨fun hj => (findings_assign (hnil hj)).2, hsites.2.1⟩).bind fun r1 h1 => ?_
    refine (lowerAddress_given h (fun e _ => lowerExpr_given h e)
      ⟨fun hj => (findings_assign (hnil hj)).1, hsites.2.2⟩).bind fun r2 h2 => .pure ?_
    simp only [Code.instrs_append, Code.instrs_straight, Code.instrs_perform]
    exact ((h1.and h2).perform fun hvs => .store hvs.1 hvs.2.1.word).imp fun _ => trivial
  | .eval none, _ => by
    rw [lowerStmt]
    exact .pure (.nil fun _ => trivial)
  | .eval (some e), hready => by
    rw [Stmt.findings, Stmt.sites] at hready
    rw [lowerStmt]
    refine (lowerExpr_given h e hready).bind fun r hr => .pure ?_
    rw [Code.instrs_straight]
    exact hr.imp fun _ => trivial
  | .block b, hready => by
    rw [Stmt.findings, Stmt.sites] at hready
    rw [lowerStmt]
    exact lowerBlock_given { ctx with symbols := ctx.symbols.enter } h.enter hreturns b hready
  | .if_ cond body rest, hready => by
    rw [Stmt.findings, Stmt.sites, P.ready_append, P.ready_append] at hready
    rw [lowerStmt]
    refine newBlock_ends.bind fun join _ => ?_
    refine (branchCode_given join (truth_given (lowerCond_given h cond hready.1.1))
      (lowerStmt_given ctx h hreturns body hready.1.2)).bind fun c1 h1 => ?_
    refine (lowerOtherwise_given ctx h hreturns join rest hready.2).bind fun c2 h2 => ?_
    refine startBlock_instrs.bind fun c3 h3 => .pure ?_
    simp only [Code.instrs_append, Code.instrs_perform, h3, append_nil]
    exact (h1.andThen fun _ => h2).perform fun _ => .jump
  | .while_ cond body, hready => by
    rw [Stmt.findings, Stmt.sites, P.ready_append] at hready
    rw [lowerStmt]
    exact loopCode_given (truth_given (lowerCond_given h cond hready.1)) fun loop =>
      lowerStmt_given { ctx with loop := some loop } h hreturns body hready.2
  | .break_ _, _ | .continue_ _, _ => by
    rw [lowerStmt]
    exact leaveTo_given _
  | .return_ _ none, _ => by
    rw [lowerStmt]
    exact deadEnd_given .retVoid
  | .return_ _ (some e), hready => by
    rw [Stmt.findings, Stmt.sites, P.ready_unless] at hready
    rw [lowerStmt]
    refine (lowerExpr_given h e hready.1).bind fun r hr => ?_
    refine (deadEnd_instrs _).bind fun c hc => .pure ?_
    rw [Code.instrs_append, Code.instrs_straight, hc]
    exact (hr.perform fun hv => .ret
      (R.int_of_type (fun hj => of_decide_eq_true (hready.2 hj)) hreturns hv)).imp fun _ => trivial

theorem lowerBlock_given {pre : Prop} {env : TyEnv} (ctx : Context)
    (h : P.Scope (pre → R.Symbol ·) env ctx.symbols ctx.functions)
    (hreturns : returns.isArray = false) :
    (b : Block) → P.Ready (b.findings returns env) (b.sites env) →
    GenEnds P.allowed (lowerBlock ctx b) fun c => R.Given pre c.instrs True
  | .nil, _ => by
    rw [lowerBlock]
    exact .pure (.nil fun _ => trivial)
  | .decl d rest, hready => by
    have hready' : P.Ready ((d.judge env).2 ++ rest.findings returns (d.judge env).1)
        (Definition.sitesAll d.constant env d.definitions ++ rest.sites (d.judge env).1) := by
      rwa [Block.findings, Block.sites] at hready
    rw [P.ready_append] at hready'
    rw [lowerBlock]
    refine (lowerDefinitions_given h hready'.1).bind fun r1 h1 => ?_
    refine (lowerBlock_given { ctx with symbols := r1.2 } h1.2 hreturns rest hready'.2).bind
      fun c h2 => .pure ?_
    rw [Code.instrs_append, Code.instrs_straight]
    exact h1.1.within fun _ => h2
  | .stmt s rest, hready => by
    rw [Block.findings, Block.sites, P.ready_append] at hready
    rw [lowerBlock]
    refine (lowerStmt_given ctx h hreturns s hready.1).bind fun c1 h1 => ?_
    refine (lowerBlock_given ctx h hreturns rest hready.2).bind fun c2 h2 => .pure ?_
    rw [Code.instrs_append]
    exact h1.andThen fun _ => h2

theorem lowerOtherwise_given {pre : Prop} {env : TyEnv} (ctx : Context)
    (h : P.Scope (pre → R.Symbol ·) env ctx.symbols ctx.functions)
    (hreturns : returns.isArray = false) (join : Label) :
    (o : Otherwise) → P.Ready (o.findings returns env) (o.sites env) →
    GenEnds P.allowed (lowerOtherwise ctx join o) fun c => R.Given pre c.instrs True
  | .done, _ => by
    rw [lowerOtherwise]
    exact .pure (.nil fun _ => trivial)
  | .else_ s, hready => by
    rw [Otherwise.findings, Otherwise.sites] at hready
    rw [lowerOtherwise]
    exact lowerStmt_given ctx h hreturns s hready
  | .elseIf cond body rest, hready => by
    rw [Otherwise.findings, Otherwise.sites, P.ready_append, P.ready_append] at hready
    rw [lowerOtherwise]
    refine (branchCode_given join (truth_given (lowerCond_given h cond hready.1.1))
      (lowerStmt_given ctx h hreturns body hready.1.2)).bind fun c1 h1 => ?_
    refine (lowerOtherwise_given ctx h hreturns join rest hready.2).bind fun c2 h2 => .pure ?_
    rw [Code.instrs_append]
    exact h1.andThen fun _ => h2

end

end SysY.Lower
