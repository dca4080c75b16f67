import SysY.Proofs.Roles.Basic

/-!
# The roles of expressions and conditions

The value of an expression is the address of an array if the expression is an
array or a row of one, and else an integer. For this to hold inside of
subscripts no array may stand there, unless the two are not told apart.
-/

namespace SysY.Lower

open List

open IR (Value Op Instr Label Temp)

variable {P : Policy} {R : Reading P} {pre : Prop} {ok : Symbol → Prop} {env : TyEnv}
  {symbols : Symbols} {functions : Frame Signature} {ctx : Context} {e : Expr} {v : Value}

/-! ## What the program says -/

/-- Whether an expression is an array, by its type. -/
def isArrayIn (env : TyEnv) (e : Expr) : Bool := (e.type? env).any (·.isArray)

/-- An expression that stands where an integer is needed. -/
theorem Reading.int_of_word (hsite : P.site ⟨env, .word e⟩)
    (hv : R.has (.ofArray (isArrayIn env e)) v) : R.has .int v := by
  rcases P.scalar _ hsite with hscalar | hloose
  · have hnot : isArrayIn env e = false := by simpa [Site.scalar, isArrayIn] using hscalar
    rw [hnot] at hv
    exact hv
  · cases h : isArrayIn env e <;> rw [h] at hv
    · exact hv
    · exact (R.same hloose v).2 hv

/-- An expression that is judged to be an integer. -/
theorem Reading.int_of_type {t : Ty} (htype : P.judged → e.type? env = some t)
    (ht : t.isArray = false) (hv : R.has (.ofArray (isArrayIn env e)) v) : R.has .int v := by
  refine R.has_ofArray (a := false) (fun hj => ?_) hv
  rw [isArrayIn, htype hj]
  exact ht.symm

variable {es indices : List Expr} {name : Ident} {span : Span}

theorem Policy.Ready.all (h : P.Ready (Expr.findingsAll env es) (Expr.sitesAll env es)) :
    ∀ e ∈ es, P.Ready (e.findings env) (e.sites env) := fun e he =>
  ⟨fun hj => findingsAll_eq_nil.1 (h.1 hj) e he,
    fun s hs => h.2 s (Expr.mem_sitesAll.2 ⟨e, he, hs⟩)⟩

/-- What the places of a variable with subscripts promise. -/
theorem Policy.Ready.subscripts (h : P.Ready ((Expr.lval span name indices).findings env)
      ((Expr.lval span name indices).sites env)) :
    P.site ⟨env, .variable name.value⟩ ∧
      ∀ e ∈ indices, P.site ⟨env, .word e⟩ ∧ P.Ready (e.findings env) (e.sites env) := by
  obtain ⟨hnil, hsites⟩ := h
  rw [Expr.sites, forall_mem_cons, forall_mem_append] at hsites
  have hall : P.Ready (Expr.findingsAll env indices) (Expr.sitesAll env indices) :=
    ⟨fun hj => findings_lval (hnil hj), hsites.2.2⟩
  exact ⟨hsites.1, fun e he => ⟨hsites.2.1 _ (mem_map_of_mem he), hall.all e he⟩⟩

theorem peel_arrayOf_eq_some {n d : Nat} {t : Ty} (h : Ty.peel n (.arrayOf .int d) = some t) :
    n ≤ d ∧ t = .arrayOf .int (d - n) := by
  induction n generalizing d with
  | zero =>
    cases h
    exact ⟨Nat.zero_le d, rfl⟩
  | succ n ih =>
    cases d with
    | zero => cases h
    | succ d =>
      obtain ⟨hle, ht⟩ := ih h
      exact ⟨Nat.succ_le_succ hle, by rw [Nat.succ_sub_succ]; exact ht⟩

theorem isArray_arrayOf (n : Nat) : (Ty.arrayOf .int n).isArray = decide (0 < n) := by
  cases n <;> rfl

/-- A variable with subscripts has a type, if nothing is wrong with it. -/
theorem exists_lvalType (h : (Expr.lval span name indices).findings env = []) :
    ∃ t, env.lvalType? name.value indices.length = some t := by
  rw [Expr.findings] at h
  split at h
  next => cases h
  next =>
    split at h
    next => cases h
    next hsome => exact Option.ne_none_iff_exists'.1 (by simpa using hsome)

/-- What a variable with subscripts is: an integer if there are as many
subscripts as dimensions, and an array otherwise. -/
theorem Policy.Scope.isArrayIn_lval (h : P.Scope ok env symbols functions) (hj : P.judged)
    (hnil : (Expr.lval span name indices).findings env = []) {s : Symbol}
    (hs : symbols.lookup name.value = some s) :
    isArrayIn env (.lval span name indices) = match s with
      | .scalar _ _ => false
      | .array _ dims _ => decide (indices.length < dims.length) := by
  obtain ⟨t, ht⟩ := exists_lvalType hnil
  obtain ⟨t0, hlookup, hsuits⟩ := (h name.value).typed hj s hs
  have htype : isArrayIn env (.lval span name indices) = t.isArray := by
    rw [isArrayIn, Expr.type?, ht]
    rfl
  have hpeel : t0.peel indices.length = some t := by
    rw [TyEnv.lvalType?, hlookup] at ht
    split at ht
    next heq => cases heq
    next heq => exact absurd (Option.some.inj heq) hsuits.ne_function
    next heq =>
      cases heq
      exact ht
  rw [htype]
  cases s with
  | scalar a k =>
    cases hsuits
    cases hlen : indices.length <;> rw [hlen] at hpeel <;> cases hpeel
    rfl
  | array base dims k =>
    cases hsuits
    obtain ⟨hle, rfl⟩ := peel_arrayOf_eq_some hpeel
    rw [isArray_arrayOf]
    exact decide_eq_decide.2 Nat.sub_pos_iff_lt

/-- Arguments are what parameters are. -/
theorem map_isArrayIn_of_applicable {ps : List Ty} {args : List Expr}
    (h : Expr.applicable env ps args = true) :
    args.map (isArrayIn env) = ps.map (·.isArray) := by
  induction ps generalizing args with
  | nil =>
    cases args with
    | nil => rfl
    | cons => cases h
  | cons p ps ih =>
    cases args with
    | nil => cases h
    | cons a args =>
      rw [Expr.applicable, Bool.and_eq_true, decide_eq_true_eq] at h
      rw [map_cons, map_cons, ih h.2, isArrayIn, h.1]
      rfl

/-- A function that is called is found, and takes the arguments. -/
theorem Policy.Scope.call_ends (h : P.Scope ok env ctx.symbols ctx.functions)
    {callee : Ident} {args : List Expr}
    (hready : P.Ready ((Expr.call span callee args).findings env)
      ((Expr.call span callee args).sites env)) :
    (Ends P.allowed (ctx.function callee) fun _ =>
      P.takes callee.value (args.map (isArrayIn env))) ∧
      P.Ready (Expr.findingsAll env args) (Expr.sitesAll env args) := by
  obtain ⟨hnil, hsites⟩ := hready
  rw [Expr.sites] at hsites
  refine ⟨?_, fun hj => ?_, hsites⟩
  · have hname := h callee.value
    unfold Context.function
    rcases P.unjudged with hj | ⟨hloose, hfree⟩
    · obtain ⟨r, ps, hlookup, -, happ⟩ := findings_call (hnil hj)
      obtain ⟨hsome, htakes⟩ := hname.function hj r ps hlookup
      obtain ⟨sig, hsig⟩ := Option.isSome_iff_exists.1 hsome
      rw [hsig, map_isArrayIn_of_applicable happ]
      exact htakes
    · cases hsig : List.lookup callee.value ctx.functions with
      | none => exact hfree _
      | some sig => exact hname.callee hloose (by rw [hsig]; rfl) _
  · obtain ⟨-, -, -, hargs, -⟩ := findings_call (hnil hj)
    exact hargs

/-! ## Expressions -/

/-- There is a word at an address, and an array if it is not that of a
scalar. -/
def Reading.Place (R : Reading P) (a : Value) (scalar : Bool) : Prop :=
  R.has .array a ∨ scalar = true ∧ R.has .cell a

theorem Reading.Place.word {a : Value} {scalar : Bool} (h : R.Place a scalar) :
    R.has .cell a ∨ R.has .array a := h.symm.imp_left And.right

theorem lowerArgs_given (hes : ∀ e ∈ es, GenEnds P.allowed (lowerExpr ctx e) fun r =>
      R.Given pre r.1 (R.has (.ofArray (isArrayIn env e)) r.2)) :
    GenEnds P.allowed (lowerArgs ctx es) fun r =>
      R.Given pre r.1
        (List.Forall₂ (fun isArray => R.has (.ofArray isArray)) (es.map (isArrayIn env)) r.2) := by
  induction es with
  | nil => exact .pure (.nil fun _ => .nil)
  | cons e es ih =>
    rw [lowerArgs]
    refine (hes e mem_cons_self).bind fun r1 h1 => ?_
    refine (ih fun e he => hes e (mem_cons_of_mem _ he)).bind fun r2 h2 => ?_
    exact .pure ((h1.and h2).imp fun hvs => .cons hvs.1 hvs.2)

theorem lowerOffset_given
    (hes : ∀ e ∈ es, GenEnds P.allowed (lowerExpr ctx e) fun r => R.Given pre r.1 (R.has .int r.2))
    (offset : Value) (sizes : List Nat) :
    GenEnds P.allowed (lowerOffset ctx offset es sizes) fun r =>
      R.has .int offset → R.Given pre r.1 (R.has .int r.2) := by
  induction es generalizing offset sizes with
  | nil => cases sizes <;> exact .pure fun h => .nil fun _ => h
  | cons e es ih =>
    cases sizes with
    | nil => exact .pure fun h => .nil fun _ => h
    | cons size sizes =>
      rw [lowerOffset]
      -- the offset so far, scaled; the subscript; their sum
      refine R.define_given.bind fun r1 h1 => (hes e mem_cons_self).bind fun r2 h2 => ?_
      refine R.define_given.bind fun r3 h3 => ?_
      refine (ih (fun e he => hes e (mem_cons_of_mem _ he)) _ _).bind fun r4 h4 => ?_
      refine .pure fun h => ?_
      have hscaled : R.Given pre r1.1 (R.has .int r1.2) := h1 (.binary h (R.const _))
      exact ((hscaled.and h2).andThen fun hvs => h3 (.binary hvs.1 hvs.2)).andThen h4

theorem baseAddress_given {base : Base} {dims : List Nat} {k : Option (List Int32)}
    (h : pre → R.Symbol (.array base dims k)) :
    GenEnds P.allowed (baseAddress base) fun r => R.Given pre r.1 (R.has .array r.2) := by
  cases base with
  | address v => exact .pure (.nil fun hpre => (h hpre).1)
  | pointer slot =>
    exact R.define_given.imp fun r hr => .assume fun hpre => hr (.loadSlot (h hpre).1)

theorem scaleByRow_given (R : Reading P) (pre : Prop) (offset : Value) (rest : List Nat) :
    GenEnds P.allowed (scaleByRow offset rest) fun r =>
      R.has .int offset → R.Given pre r.1 (R.has .int r.2) := by
  unfold scaleByRow
  split
  · exact .pure fun h => .nil fun _ => h
  · exact (wordVolume_ends (.inr (P.stops _ rfl))).lift.bind fun _ _ => R.define_given.imp fun r hr h =>
      hr (.binary h (R.const _))

theorem unaryCode_given (R : Reading P) (pre : Prop) (op : UnaryOp) (v : Value) :
    GenEnds P.allowed (unaryCode op v) fun r =>
      R.has .int v → R.Given pre r.1 (R.has .int r.2) := by
  cases op with
  | plus => exact .pure fun h => .nil fun _ => h
  | minus => exact R.define_given.imp fun r hr h => hr (.binary (R.const 0) h)
  | not =>
    refine R.define_given.bind fun r1 h1 => R.define_given.bind fun r2 h2 => ?_
    exact .pure fun h => (h1 (.compare h (R.const 0))).andThen fun hv => h2 (.zext hv)

section

variable (h : P.Scope (pre → R.Symbol ·) env ctx.symbols ctx.functions)

include h

/-- **The code of the address of a variable** or of a part of it. -/
theorem lowerAddress_given (hindices : ∀ e ∈ indices, P.Ready (e.findings env) (e.sites env) →
      GenEnds P.allowed (lowerExpr ctx e) fun r =>
        R.Given pre r.1 (R.has (.ofArray (isArrayIn env e)) r.2))
    (hready : P.Ready ((Expr.lval span name indices).findings env)
      ((Expr.lval span name indices).sites env)) :
    GenEnds P.allowed (lowerAddress ctx name indices) fun r => R.Given pre r.1
      (R.Place r.2.1 r.2.2 ∧ (P.judged → isArrayIn env (.lval span name indices) = !r.2.2)) := by
  obtain ⟨hname, hsubs⟩ := hready.subscripts
  have hes : ∀ e ∈ indices, GenEnds P.allowed (lowerExpr ctx e) fun r =>
      R.Given pre r.1 (R.has .int r.2) := fun e he =>
    (hindices e he (hsubs e he).2).imp fun _ hr => hr.imp (R.int_of_word (hsubs e he).1)
  rw [lowerAddress]
  refine (h.resolve_ends hname).lift.bind fun s hs => ?_
  have hsymbol := (h name.value).symbol s hs
  have harray := fun hj => h.isArrayIn_lval hj (hready.1 hj) hs
  cases s with
  | scalar a k => exact .pure (.nil fun hpre => ⟨.inr ⟨rfl, hsymbol hpre⟩, harray⟩)
  | array base dims k =>
    refine (baseAddress_given hsymbol).bind fun r1 h1 => ?_
    cases indices with
    | nil =>
      refine .pure (.assume fun hpre => h1.imp fun hbase => ⟨.inl hbase, fun hj => ?_⟩)
      have hdims : dims ≠ [] := by cases base <;> exact (hsymbol hpre).2
      simp [harray hj, length_pos_iff.2 hdims]
    | cons e es =>
      refine (hes e mem_cons_self).bind fun r2 h2 => ?_
      refine (lowerOffset_given (fun e he => hes e (mem_cons_of_mem _ he)) _ _).bind
        fun r3 h3 => ?_
      refine (scaleByRow_given R pre _ _).bind fun r4 h4 => R.define_given.bind fun r5 h5 => ?_
      have hscaled : R.Given pre (r1.1 ++ r2.1 ++ r3.1 ++ r4.1)
          (R.has .array r1.2 ∧ R.has .int r4.2) :=
        ((h1.and h2).next h3).next h4
      refine .pure ((hscaled.andThen fun hvs => h5 (.element hvs.1 hvs.2)).imp fun ha =>
        ⟨.inl ha, fun hj => ?_⟩)
      rw [harray hj, Bool.eq_iff_iff]
      simp [drop_eq_nil_iff]

/-- **The code of an expression** uses values as what they are, and its value is
what the expression is. -/
theorem lowerExpr_given (e : Expr) :
    P.Ready (e.findings env) (e.sites env) → GenEnds P.allowed (lowerExpr ctx e) fun r =>
      R.Given pre r.1 (R.has (.ofArray (isArrayIn env e)) r.2) := by
  induction e using Expr.induction with
  | number span text =>
    intro _
    rw [lowerExpr]
    exact (literal_ends P span text).lift.bind fun n _ => .pure (.nil fun _ => R.const n)
  | lval span name indices ih =>
    intro hready
    rw [lowerExpr]
    refine (lowerAddress_given h ih hready).bind fun r hr => ?_
    obtain ⟨code, address, scalar⟩ := r
    cases scalar with
    | true =>
      refine R.define_given.bind fun r' hr' => .pure (hr.andThen fun hq => ?_)
      exact (hr' (.load hq.1.word)).imp fun hv => R.has_ofArray hq.2 hv
    | false =>
      exact .pure (hr.imp fun hq => R.has_ofArray hq.2 (hq.1.resolve_right fun h => Bool.noConfusion h.1))
  | call span callee args ih =>
    intro hready
    obtain ⟨hcallee, hargs⟩ := h.call_ends hready
    have hint : isArrayIn env (.call span callee args) = false := by
      rw [isArrayIn, Expr.type?]
      split <;> rfl
    rw [lowerExpr, hint]
    refine hcallee.lift.bind fun sig htakes => ?_
    refine (lowerArgs_given fun e he => ih e he (hargs.all e he)).bind fun r hr => ?_
    dsimp only
    split
    · exact .pure ((hr.perform fun hvs => .call htakes hvs fun _ h => by cases h).imp fun _ => R.const 0)
    · refine R.define_given.bind fun r' hr' => .pure (hr.andThen fun hvs => hr' ?_)
      exact .call htakes hvs (by rintro _ ⟨⟩; rfl)
  | unary span op e ih =>
    intro hready
    rw [Expr.findings, Expr.sites, P.ready_unless] at hready
    have hint : isArrayIn env (.unary span op e) = false := by
      rw [isArrayIn, Expr.type?]
      cases e.type? env with
      | none => rfl
      | some t => cases t <;> rfl
    rw [lowerExpr, hint]
    refine (ih hready.1).bind fun r1 h1 => (unaryCode_given R pre op.value _).bind fun r2 h2 => ?_
    exact .pure (h1.andThen fun hv =>
      h2 (R.int_of_type (fun hj => of_decide_eq_true (hready.2 hj)) rfl hv))
  | binary span op a b iha ihb =>
    intro hready
    rw [Expr.findings, Expr.sites, P.ready_unless, P.ready_append] at hready
    have htypes : P.judged → a.type? env = some .int ∧ b.type? env = some .int := fun hj => by
      simpa using hready.2 hj
    rw [lowerExpr]
    refine (iha hready.1.1).bind fun r1 h1 => (ihb hready.1.2).bind fun r2 h2 => ?_
    refine R.define_given.bind fun r3 h3 => .pure ((h1.and h2).andThen fun hvs => ?_)
    refine (h3 (.binary (R.int_of_type (fun hj => (htypes hj).1) rfl hvs.1)
      (R.int_of_type (fun hj => (htypes hj).2) rfl hvs.2))).imp fun hv => ?_
    refine R.has_ofArray (b := false) (fun hj => ?_) hv
    rw [isArrayIn, Expr.type?, (htypes hj).1, (htypes hj).2]
    rfl
  | paren span e ih =>
    intro hready
    rw [Expr.findings, Expr.sites] at hready
    rw [lowerExpr, isArrayIn, Expr.type?]
    exact ih hready

/-- The code of an expression that stands where an integer is needed. -/
theorem lowerWord_given
    (hword : P.site ⟨env, .word e⟩) (hready : P.Ready (e.findings env) (e.sites env)) :
    GenEnds P.allowed (lowerExpr ctx e) fun r => R.Given pre r.1 (R.has .int r.2) :=
  (lowerExpr_given h e hready).imp fun _ hr => hr.imp (R.int_of_word hword)

end

/-! ## Conditions -/

theorem startBlock_instrs {allowed : Stop → Prop} {l : Label} :
    GenEnds allowed (startBlock l) fun c => c.instrs = [] := fun _ => rfl

theorem truth_given {g : Gen (Code × Value)}
    (hg : GenEnds P.allowed g fun r => R.Given pre r.1.instrs (R.has .int r.2)) :
    GenEnds P.allowed (truth g) fun r => R.Given pre r.1.instrs (R.has .int r.2) := by
  refine hg.bind fun r1 h1 => R.define_given.bind fun r2 h2 => .pure ?_
  simp only [Code.instrs_append, Code.instrs_straight]
  exact h1.andThen fun hv => h2 (.compare hv (R.const 0))

theorem connect_given (op : LogicOp) {lhs rhs : Gen (Code × Value)}
    (hl : GenEnds P.allowed lhs fun r => R.Given pre r.1.instrs (R.has .int r.2))
    (hr : GenEnds P.allowed rhs fun r => R.Given pre r.1.instrs (R.has .int r.2)) :
    GenEnds P.allowed (connect op lhs rhs) fun r => R.Given pre r.1.instrs (R.has .int r.2) := by
  have hcurrent : GenEnds P.allowed currentBlock fun _ => True := fun _ => trivial
  refine hl.bind fun r1 h1 => hcurrent.bind fun leftEnd _ => ?_
  refine newBlock_ends.bind fun rhsBlock _ => newBlock_ends.bind fun phiBlock _ => ?_
  refine startBlock_instrs.bind fun c2 h2 => hr.bind fun r3 h3 => ?_
  refine hcurrent.bind fun rightEnd _ => startBlock_instrs.bind fun c4 h4 => ?_
  refine R.define_given.bind fun r5 h5 => R.define_given.bind fun r6 h6 => .pure ?_
  simp only [Code.instrs_append, Code.instrs_straight, Code.instrs_perform, h2, h4, append_nil]
  have hbranch : ∀ yes no, R.Given pre (r1.1.instrs ++ [⟨none, .branch r1.2 yes no⟩])
      (R.has .int r1.2) := fun yes no => h1.perform .branch
  have hrest : ∀ {is}, R.Given pre is (R.has .int r1.2) → R.Given pre
      (is ++ r3.1.instrs ++ [⟨none, .jump phiBlock⟩] ++ (r5.1 ++ r6.1)) (R.has .int r6.2) :=
    fun h => ((h.and h3).perform fun _ => .jump).andThen fun hvs =>
      (h5 (.phi hvs.1 hvs.2)).andThen fun hv => h6 (.zext hv)
  cases op <;> exact hrest (hbranch _ _)

/-- **The code of a condition** uses values as what they are. -/
theorem lowerCond_given (h : P.Scope (pre → R.Symbol ·) env ctx.symbols ctx.functions) (c : Cond)
    (hready : P.Ready (c.findings env) (c.sites env)) :
    GenEnds P.allowed (lowerCond ctx c) fun r => R.Given pre r.1.instrs (R.has .int r.2) := by
  induction c with
  | expr e =>
    rw [Cond.findings, Cond.sites, P.ready_unless] at hready
    rw [lowerCond]
    refine (lowerExpr_given h e hready.1).bind fun r hr => .pure ?_
    rw [Code.instrs_straight]
    exact hr.imp (R.int_of_type (fun hj => of_decide_eq_true (hready.2 hj)) rfl)
  | compare span op a b iha ihb =>
    rw [Cond.findings, Cond.sites, P.ready_unless, P.ready_append] at hready
    rw [lowerCond]
    refine (iha hready.1.1).bind fun r1 h1 => (ihb hready.1.2).bind fun r2 h2 => ?_
    refine R.define_given.bind fun r3 h3 => R.define_given.bind fun r4 h4 => .pure ?_
    simp only [Code.instrs_append, Code.instrs_straight]
    exact (h1.and h2).andThen fun hvs => (h3 (.compare hvs.1 hvs.2)).andThen fun hv => h4 (.zext hv)
  | logic span op a b iha ihb =>
    rw [Cond.findings, Cond.sites, P.ready_unless, P.ready_append] at hready
    rw [lowerCond]
    exact connect_given op (truth_given (iha hready.1.1)) (truth_given (ihb hready.1.2))

end SysY.Lower
