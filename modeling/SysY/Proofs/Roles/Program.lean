import SysY.Proofs.Roles.Stmt
import SysY.Proofs.WellFormed

/-!
# The roles of programs

A function first stores its arguments, each into a word of its own
(`parameterCode`). Everything after that is the code of its body, and uses
values as what they are (`Program.lower_given`), where the addresses of global
variables and those of the words of parameters have the roles that are given to
them.
-/

namespace SysY

open List

variable {s : Lower.Symbol} {rest : Lower.Code} {i : IR.Instr}

namespace Lower

open IR (Value Op Instr Label Temp)

variable {P : Policy} {ok : Symbol → Prop} {env : TyEnv} {symbols : Symbols}
  {functions : Frame Signature} {names : List String}

/-! ## Parameters -/

/-- The code that stores `k` arguments from number `i` on. -/
def parameterCode (i k : Nat) : List Instr :=
  (range' i k).flatMap fun j => [⟨some j, .alloca⟩, ⟨none, .store (.arg j) (.temp j)⟩]

/-- The role of the word of a parameter. -/
def Role.ofParameter (p : Parameter) : Role := if p.array.isSome then slot else cell

variable {R : Reading P} {σ : Supply} {d : FunctionDef}

theorem parameterSymbol_role {slot : Value} {p : Parameter}
    (h : parameterSymbol symbols slot p = .ok s) (hslot : R.has (.ofParameter p) slot) :
    R.Symbol s ∧ Suits s p.type := by
  unfold Role.ofParameter at hslot
  obtain ⟨hsuits, ⟨harray, rfl⟩ | ⟨harray, dims, rfl⟩⟩ := parameterSymbol_ok h <;> rw [harray] at hslot
  · exact ⟨hslot, hsuits⟩
  · exact ⟨⟨hslot, cons_ne_nil _ _⟩, hsuits⟩

/-- **The arguments are stored**, and the parameters are in scope then. -/
theorem lowerParameters_ends {ps : List Parameter} (h : P.Scope R.Symbol env symbols functions)
    (hready : P.Ready (TyEnv.judgeAll Parameter.judge env ps).2 (Parameter.sitesAll env ps))
    (hslots : ∀ j p, ps[j]? = some p → R.has (.ofParameter p) (.temp (σ.temps + j))) :
    Ends P.allowed (lowerParameters symbols σ.temps ps σ) fun r =>
      r.1.1 = parameterCode σ.temps ps.length ∧
        P.Scope R.Symbol (TyEnv.judgeAll Parameter.judge env ps).1 r.1.2 functions := by
  induction ps generalizing env symbols σ with
  | nil => exact ⟨rfl, h⟩
  | cons p ps ih =>
    have hready' : P.Ready ((p.judge env).2 ++ (TyEnv.judgeAll Parameter.judge (p.judge env).1 ps).2)
        (Expr.sitesAll env (p.array.getD []) ++ Parameter.sitesAll (p.judge env).1 ps) := hready
    rw [P.ready_append] at hready'
    have hslot : R.has (.ofParameter p) (.temp σ.temps) := hslots 0 p rfl
    have hsymbol : Ends P.allowed (parameterSymbol symbols (.temp σ.temps) p) fun _ => True := by
      unfold parameterSymbol
      cases hp : p.array with
      | none => trivial
      | some dims =>
        rw [hp] at hready'
        exact (h.evalDims_ends hready'.1.2).bind fun _ _ => trivial
    rw [lowerParameters]
    refine Ends.seq (P := fun r => r.1.1 = parameterCode σ.temps 1 ∧ r.2 = σ.bump ∧
      P.Scope R.Symbol (p.judge env).1 r.1.2 functions) ?_ fun r hr => ?_
    · rw [lowerParameter]
      have hroom : Ends P.allowed (define .alloca σ)
          (· = (([⟨some σ.temps, .alloca⟩], .temp σ.temps), σ.bump)) := rfl
      refine hroom.seq fun r hr => ?_
      subst hr
      refine Ends.seq (P := fun r => parameterSymbol symbols (.temp σ.temps) p = .ok r.1 ∧
        r.2 = σ.bump) (hsymbol.eq_ok.bind fun s hs => ⟨hs, rfl⟩) fun r hr => ⟨rfl, hr.2, ?_⟩
      obtain ⟨hrole, hsuits⟩ := parameterSymbol_role hr.1 hslot
      exact h.bind _ hrole fun hj =>
        ⟨_, (Parameter.judge_iff.1 (TyEnv.eq_of_nil (hready'.1.1 hj))).2.1, hsuits⟩
    · obtain ⟨⟨is, inner⟩, σ1⟩ := r
      obtain ⟨rfl, rfl, hscope⟩ := hr
      have hrest := ih hscope hready'.2 fun j q hq => by
        rw [Supply.bump_temps, Nat.add_right_comm]
        exact hslots (j + 1) q hq
      refine hrest.seq fun r hr => ?_
      exact ⟨congrArg (parameterCode σ.temps 1 ++ ·) hr.1, hr.2⟩

/-! ## Functions -/

/-- The code of a function: its arguments are stored, and then comes the rest. -/
def codeOf (d : FunctionDef) (rest : Code) : Code :=
  .label 0 :: (straight (parameterCode 0 d.params.length) ++ rest)

/-- The function that has this code. -/
def functionOf (d : FunctionDef) (rest : Code) (σ : Supply) : IR.Function where
  name := d.name.value
  void := d.returns = .void
  params := d.params.length
  blocks := (codeOf d rest).blocks σ.names.toList
  layout := (codeOf d rest).layout
  temps := σ.temps

theorem mem_parameterCode {n k : Nat} : i ∈ parameterCode n k ↔ ∃ j, n ≤ j ∧ j < n + k ∧
    (i = ⟨some j, .alloca⟩ ∨ i = ⟨none, .store (.arg j) (.temp j)⟩) := by
  simp [parameterCode, mem_range'_1, and_assoc]

/-- The instructions of a function store an argument, or come after that. -/
theorem mem_functionOf {b : IR.Block} (hb : b ∈ (functionOf d rest σ).blocks) (hi : i ∈ b.code) :
    i ∈ parameterCode 0 d.params.length ∨ i ∈ rest.instrs := by
  obtain ⟨l, hl, rfl⟩ := mem_mapIdx.1 hb
  have hmem : i ∈ Code.instrs (codeOf d rest) :=
    mem_filterMap.2 ⟨_, mem_of_mem_blockAt hi, rfl⟩
  rw [codeOf, ← singleton_append, Code.instrs_append, Code.instrs_append] at hmem
  simpa using hmem

/-- Cutting code at its labels keeps all instructions, if no two labels are the
same. -/
theorem Code.head_append_blocks {c : Code} (h : c.layout.Nodup) :
    c.head ++ c.layout.flatMap (Code.blockAt · c) = c.instrs := by
  induction c with
  | nil => rfl
  | cons item c ih =>
    cases item with
    | instr i => exact congrArg (i :: ·) (ih h)
    | label m =>
      obtain ⟨hm, hnodup⟩ := nodup_cons.1 h
      rw [Code.layout_label, flatMap_cons, Code.blockAt, if_pos rfl]
      have hothers : (Code.layout c).flatMap (Code.blockAt · (.label m :: c)) =
          (Code.layout c).flatMap (Code.blockAt · c) := flatMap_congr fun l hl => by
        have hne : m ≠ l := fun heq => hm (heq ▸ hl)
        rw [Code.blockAt, if_neg hne]
      rw [hothers]
      exact ih hnodup

/-- The instructions of a function, in the order of the layout. -/
theorem functionOf_instrs (h : (functionOf d rest σ).WellFormed) :
    (functionOf d rest σ).instrs = parameterCode 0 d.params.length ++ rest.instrs := by
  have hcode := Code.head_append_blocks (c := codeOf d rest) (h.layout.nodup_iff.2 nodup_range)
  have hinstrs : (codeOf d rest).instrs = parameterCode 0 d.params.length ++ rest.instrs := by
    rw [codeOf, ← singleton_append, Code.instrs_append, Code.instrs_append]
    simp
  have hhead : (codeOf d rest).head = [] := rfl
  rw [← hinstrs, ← hcode, hhead, nil_append]
  refine flatMap_congr fun l hl => ?_
  have hlt := mem_range.1 (h.layout.mem_iff.1 hl)
  rw [functionOf, Code.blocks, length_mapIdx] at hlt
  rw [IR.Function.code?, functionOf, Code.blocks, getElem?_mapIdx, getElem?_eq_getElem hlt]
  rfl

/-- Nothing is wrong with the parameters and the body of a function. -/
def Policy.FunctionReady (P : Policy) (env : TyEnv) (d : FunctionDef) : Prop :=
  P.Ready ((TyEnv.judgeAll Parameter.judge env.enter d.params).2 ++
    d.body.findings d.returns.type (TyEnv.judgeAll Parameter.judge env.enter d.params).1.enter)
    (d.sites env)

theorem functionCode_ends
    (h : P.Scope R.Symbol env symbols functions) (hready : P.FunctionReady env d)
    (hslots : ∀ j p, d.params[j]? = some p → R.has (.ofParameter p) (.temp j)) :
    Ends P.allowed (functionCode symbols functions d {}) fun r =>
      ∃ rest, r.1 = codeOf d rest ∧ R.Given True rest.instrs True := by
  rw [Policy.FunctionReady, FunctionDef.sites, P.ready_append] at hready
  have hreturns : d.returns.type.isArray = false := by cases d.returns <;> rfl
  have hentry : Ends P.allowed (newBlock "entry" {}) (· = (0, ⟨0, #["entry"], 0⟩)) := rfl
  have hstart : Ends P.allowed (startBlock 0 ⟨0, #["entry"], 0⟩)
      (· = ([.label 0], ⟨0, #["entry"], 0⟩)) := rfl
  rw [functionCode]
  refine hentry.seq fun r hr => ?_
  subst hr
  refine hstart.seq fun r hr => ?_
  subst hr
  refine (lowerParameters_ends h.enter hready.1 (σ := ⟨0, #["entry"], 0⟩) fun j p hp => ?_).seq
    fun r hr => ?_
  · rw [Nat.zero_add]
    exact hslots j p hp
  obtain ⟨⟨is, inner⟩, σ1⟩ := r
  obtain ⟨rfl, hscope⟩ := hr
  have hinner : P.Scope (True → R.Symbol ·) _ inner.enter functions :=
    hscope.enter.imp fun s hs _ => hs
  have hbody := lowerBlock_given { symbols := inner.enter, functions } hinner hreturns d.body
    hready.2 σ1
  refine hbody.seq fun r hr => ⟨r.1 ++ perform (lastOp d.returns), ?_, ?_⟩
  · cases d.returns <;> simp [codeOf, lastOp]
  · rw [Code.instrs_append, Code.instrs_perform]
    refine hr.perform fun _ => ?_
    cases d.returns
    · exact .ret (R.const 0)
    · exact .retVoid

/-- **The code of a function**, with a reading that may depend on the
instructions after the arguments are stored. -/
theorem lowerFunction_ends {R : List Instr → Reading P}
    (h : ∀ is, P.Scope (R is).Symbol env symbols functions) (hready : P.FunctionReady env d)
    (hslots : ∀ is j p, d.params[j]? = some p → (R is).has (.ofParameter p) (.temp j)) :
    Ends P.allowed (lowerFunction symbols functions d) fun f => ∃ rest σ, f = functionOf d rest σ ∧
      (R rest.instrs).Given True rest.instrs True := by
  have hcode : Ends P.allowed (functionCode symbols functions d {}) fun r =>
      ∀ is, ∃ rest, r.1 = codeOf d rest ∧ (R is).Given True rest.instrs True := by
    have hall := fun is => functionCode_ends (h is) hready (hslots is)
    cases hr : functionCode symbols functions d {} with
    | error e =>
      have hstop := hall []
      rw [hr] at hstop
      exact hstop
    | ok r =>
      intro is
      have hgives := hall is
      rw [hr] at hgives
      exact hgives
  unfold lowerFunction
  refine hcode.bind fun r hr => ?_
  obtain ⟨rest, hrest, -⟩ := hr []
  obtain ⟨rest', hrest', hgiven⟩ := hr rest.instrs
  obtain rfl : rest = rest' := by simpa [codeOf] using hrest.symm.trans hrest'
  refine ⟨rest, r.2, ?_, hgiven⟩
  rw [hrest]
  rfl

/-! ## Programs -/

/-- A global variable with one of these names. -/
def Symbol.GlobalIn (names : List String) (s : Symbol) : Prop :=
  ∃ name ∈ names, ∃ constant dims init, s = globalSymbol constant name dims init

theorem Symbol.GlobalIn.role (h : s.GlobalIn names)
    (hglobals : ∀ name ∈ names, R.has .cell (.global name) ∧ R.has .array (.global name)) :
    R.Symbol s := by
  obtain ⟨name, hname, constant, dims, init, rfl⟩ := h
  unfold globalSymbol
  split
  next => exact (hglobals name hname).1
  next hne => exact ⟨(hglobals name hname).2, by simpa using hne⟩

theorem lowerGlobals_ends (constant : Bool) {ds : List Definition}
    (h : P.Scope (·.GlobalIn names) env symbols functions)
    (hready : P.Ready (TyEnv.judgeAll Definition.judge env ds).2 (Definition.sitesAll true env ds))
    (hnames : ∀ d ∈ ds, d.name.value ∈ names) :
    Ends P.allowed (lowerGlobals constant symbols ds) fun r =>
      P.Scope (·.GlobalIn names) (TyEnv.judgeAll Definition.judge env ds).1 r.2 functions := by
  induction ds generalizing env symbols with
  | nil => exact h
  | cons d ds ih =>
    have hready' : P.Ready ((d.judge env).2 ++ (TyEnv.judgeAll Definition.judge (d.judge env).1 ds).2)
        (d.sites true env ++ Definition.sitesAll true (d.judge env).1 ds) := hready
    rw [P.ready_append] at hready'
    obtain ⟨henv, hdims, hitem⟩ := hready'.1.definition
    rw [forall_mem_cons] at hnames
    rw [lowerGlobals]
    refine (h.evalDims_ends hdims).eq_ok.bind fun dims hlen => ?_
    refine (checkedWords_ends P dims d.name).bind fun words _ => ?_
    have hinit : Ends P.allowed (globalInit symbols dims words d.init) fun _ => True := by
      unfold globalInit
      cases hi : d.init with
      | none => trivial
      | some i => exact evalItems_ends fun e he =>
        evalConst_ends h e ((hitem dims e (by rw [hi]; exact he)).1 rfl)
    refine hinit.bind fun init _ => ?_
    have hscope : P.Scope (·.GlobalIn names) (d.judge env).1
        (symbols.bind d.name.value (globalSymbol constant d.name.value dims init)) functions := by
      refine h.bind _ ⟨_, hnames.1, constant, dims, init, rfl⟩ fun hj => ⟨_, henv hj, ?_⟩
      rw [Definition.type, ← evalDims_length hlen]
      exact (globalSymbol_known .start constant _ dims init).2
    exact (ih hscope hready'.2 hnames.2).bind fun _ hr => hr

/-- What a policy must say of a function that is declared. -/
def Policy.Declares (P : Policy) (d : FunctionDef) : Prop :=
  (P.judged → P.takes d.name.value (d.params.map (·.array.isSome))) ∧
    (P.loose → ∀ arrays, P.takes d.name.value arrays)

theorem lowerUnits_ends {Q : FunctionDef → IR.Function → Prop} {us : List TopLevel}
    (h : P.Scope (·.GlobalIn names) env symbols functions)
    (hframe : P.judged → ∃ frame, env = [frame])
    (hready : P.Ready (TyEnv.judgeAll TopLevel.judge env us).2 (TopLevel.sitesAll env us))
    (hnames : ∀ name ∈ us.flatMap TopLevel.names, name ∈ names)
    (hdeclares : ∀ d, .function d ∈ us → P.Declares d)
    (hfunction : ∀ d, .function d ∈ us → ∀ env symbols functions,
      P.Scope (·.GlobalIn names) env symbols functions → P.FunctionReady env d →
      Ends P.allowed (lowerFunction symbols functions d) (Q d)) :
    Ends P.allowed (lowerUnits symbols functions us).result fun m =>
      ∀ f ∈ m.functions, ∃ d, .function d ∈ us ∧ Q d f := by
  induction us generalizing env symbols functions with
  | nil => exact fun f hf => absurd hf not_mem_nil
  | cons u us ih =>
    rw [flatMap_cons, forall_mem_append] at hnames
    have hready' : P.Ready ((u.judge env).2 ++ (TyEnv.judgeAll TopLevel.judge (u.judge env).1 us).2)
        (TopLevel.sitesAll env (u :: us)) := hready
    have hdeclares' := fun d hd => hdeclares d (mem_cons_of_mem _ hd)
    have hfunction' := fun d hd => hfunction d (mem_cons_of_mem _ hd)
    cases u with
    | decl d =>
      rw [TopLevel.sitesAll, P.ready_append] at hready'
      have hglobals := lowerGlobals_ends d.constant h hready'.1 fun e he =>
        hnames.1 _ (mem_map_of_mem he)
      rw [lowerUnits]
      split
      next gs inner heq =>
        rw [heq] at hglobals
        have hframe' : P.judged → ∃ frame,
            (TyEnv.judgeAll Definition.judge env d.definitions).1 = [frame] :=
          fun hj => judgeAll_definition_frame (hframe hj)
        refine (ih hglobals hframe' hready'.2 hnames.2 hdeclares' hfunction').map _ fun m hm f hf => ?_
        obtain ⟨e, he, hQ⟩ := hm f hf
        exact ⟨e, mem_cons_of_mem _ he, hQ⟩
      next e heq =>
        rw [heq] at hglobals
        exact hglobals
    | function d =>
      rw [TopLevel.sitesAll, P.ready_append] at hready'
      obtain ⟨hdeclared, hloose⟩ := hdeclares d mem_cons_self
      have harrays : (d.params.map (·.type)).map (·.isArray) = d.params.map (·.array.isSome) := by
        rw [map_map]
        exact map_congr_left fun p _ => isArray_parameter p
      -- a function is declared in its own body
      have hscope : P.Scope (·.GlobalIn names) (d.judge env).1 symbols
          ((d.name.value, ⟨d.returns = .void, d.params.length⟩) :: functions) := by
        refine h.declare _ (fun hj => ?_) hloose
        obtain ⟨frame, rfl⟩ := hframe hj
        obtain ⟨hfree, henv, -⟩ := FunctionDef.judge_iff.1 (TyEnv.eq_of_nil (hready'.1.1 hj))
        exact ⟨frame, _, _, rfl, hfree, henv, harrays ▸ hdeclared hj⟩
      have hinside : P.FunctionReady (d.judge env).1 d := by
        refine ⟨fun hj => ?_, hready'.1.2⟩
        exact (FunctionDef.judge_iff.1 (TyEnv.eq_of_nil (hready'.1.1 hj))).2.2
      have hlowered := hfunction d mem_cons_self _ _ _ hscope hinside
      rw [lowerUnits]
      split
      next g heq =>
        rw [heq] at hlowered
        have hframe' : P.judged → ∃ frame, (d.judge env).1 = [frame] :=
          fun hj => TyEnv.declares_frame (hframe hj)
        refine (ih hscope hframe' hready'.2 hnames.2 hdeclares' hfunction').map _ fun m hm f hf => ?_
        rcases mem_cons.1 hf with rfl | hf
        · exact ⟨d, mem_cons_self, hlowered⟩
        · obtain ⟨e, he, hQ⟩ := hm f hf
          exact ⟨e, mem_cons_of_mem _ he, hQ⟩
      next e heq =>
        rw [heq] at hlowered
        exact hlowered

end Lower

open Lower in
/-- **Every function of a lowered program** is the code that stores its
arguments, and after that instructions that use values as what they are. -/
theorem Program.lower_given {P : Policy} {p : Program}
    (R : FunctionDef → List IR.Instr → Reading P) (hready : P.Ready p.findings p.sites)
    (hdeclares : ∀ d, .function d ∈ p.units → P.Declares d)
    (hglobals : ∀ d is, ∀ name ∈ p.names,
      (R d is).has .cell (.global name) ∧ (R d is).has .array (.global name))
    (hslots : ∀ d is j q, d.params[j]? = some q → (R d is).has (.ofParameter q) (.temp j)) :
    Ends P.allowed p.lower.result fun m => ∀ f ∈ m.functions, ∃ d, .function d ∈ p.units ∧
      ∃ rest σ, f = functionOf d rest σ ∧ (R d rest.instrs).Given True rest.instrs True :=
  lowerUnits_ends .start (fun _ => ⟨[], rfl⟩) hready (fun _ hname => hname) hdeclares
    fun d _ _ _ _ hscope hinside => lowerFunction_ends
      (fun is => hscope.imp fun _ hs => hs.role (hglobals d is)) hinside (hslots d)

end SysY
