import SysY.Proofs.Names
import SysY.Proofs.Roles.Expr
import SysY.Proofs.Typing.Rules

/-!
# The judgement decides the type system

`Program.accepted_iff_wellTyped`: nothing is wrong with a program exactly if it
has a derivation.

Both directions are shown at once, construct by construct. Of an expression,
`Expr.hasType_iff` says that its derivations are its type together with the
fact that nothing is wrong with it. This needs two things of the environment,
`TyEnv.Proper`: no frame has a name twice, so that the first binding found is
the only one, and every name is a variable or a function. Declarations keep
both.
-/

namespace SysY

open List

/-! ## Environments -/

/-- The types that a name can be declared with. -/
inductive Ty.Declarable : Ty → Prop
  | ofVariable (n : Nat) : Declarable (.arrayOf .int n)
  | ofFunction (r : ReturnType) (ps : List Ty) : Declarable (.function r.type ps)

variable {t : Ty}

/-- A function gives back an integer or nothing. -/
theorem Ty.Declarable.exists_returnType {ps : List Ty} (h : Declarable (.function t ps)) :
    ∃ r : ReturnType, t = r.type := by
  generalize hu : Ty.function t ps = u at h
  cases h with
  | ofVariable n => exact absurd hu.symm (Ty.arrayOf_ne_function n t ps)
  | ofFunction r ps =>
    cases hu
    exact ⟨r, rfl⟩

namespace TyEnv

/-- An environment that declarations have built. -/
structure Proper (env : TyEnv) : Prop where
  /-- There is a frame to declare in. -/
  ne_nil : env ≠ []
  /-- No frame has a name twice. -/
  distinct : ∀ frame ∈ env, (frame.map (·.1)).Nodup
  /-- Every name is a variable or a function. -/
  declarable : ∀ frame ∈ env, ∀ b ∈ frame, Ty.Declarable b.2

variable {env env' : TyEnv} {x : String}

theorem Proper.initial : Proper [[]] where
  ne_nil := cons_ne_nil _ _
  distinct := by
    intro frame h
    rw [mem_singleton.1 h]
    exact nodup_nil
  declarable := by
    intro frame h b hb
    rw [mem_singleton.1 h] at hb
    cases hb

theorem Proper.enter (h : Proper env) : Proper env.enter where
  ne_nil := cons_ne_nil _ _
  distinct := forall_mem_cons.2 ⟨nodup_nil, h.distinct⟩
  declarable := forall_mem_cons.2 ⟨fun _ hb => absurd hb not_mem_nil, h.declarable⟩

theorem Proper.binds (h : Proper env) (ht : t.Declarable) (hbinds : env.Binds x t env') :
    Proper env' := by
  cases hbinds with
  | fresh hfree =>
    obtain ⟨hhead, htail⟩ := forall_mem_cons.1 h.distinct
    obtain ⟨hhead', htail'⟩ := forall_mem_cons.1 h.declarable
    exact {
      ne_nil := cons_ne_nil _ _
      distinct := forall_mem_cons.2 ⟨nodup_cons.2 ⟨hfree, hhead⟩, htail⟩
      declarable := forall_mem_cons.2 ⟨forall_mem_cons.2 ⟨ht, hhead'⟩, htail'⟩ }

/-- In a frame without double names, a binding is what looking its name up
gives. -/
theorem mem_iff_lookup {frame : Frame Ty} (h : (frame.map (·.1)).Nodup) :
    (x, t) ∈ frame ↔ List.lookup x frame = some t := by
  induction frame with
  | nil => simp
  | cons b frame ih =>
    obtain ⟨y, u⟩ := b
    obtain ⟨hfree, hnodup⟩ := nodup_cons.1 h
    by_cases hxy : x = y
    · subst hxy
      have habsent : (x, t) ∉ frame := fun hmem => hfree (mem_map.2 ⟨_, hmem, rfl⟩)
      simp [habsent, eq_comm]
    · have hne : (x == y) = false := by simpa using hxy
      simp [lookup_cons, hne, hxy, ih hnodup]

/-- **What a name means is what looking it up gives.** -/
theorem resolves_iff (h : Proper env) : env.Resolves x t ↔ env.lookup x = some t := by
  have hdistinct := h.distinct
  clear h
  induction env with
  | nil =>
    constructor
    · intro hres
      cases hres
    · intro hlookup
      cases hlookup
  | cons frame outer ih =>
    obtain ⟨hnodup, houter⟩ := forall_mem_cons.1 hdistinct
    rw [Env.lookup, Option.or_eq_some_iff]
    constructor
    · intro hres
      cases hres with
      | here hmem => exact .inl ((mem_iff_lookup hnodup).1 hmem)
      | outside hfree hres => exact .inr ⟨not_mem_keys_iff.1 hfree, (ih houter).1 hres⟩
    · rintro (hhere | ⟨hnone, hlookup⟩)
      · exact .here ((mem_iff_lookup hnodup).2 hhere)
      · exact .outside (not_mem_keys_iff.2 hnone) ((ih houter).2 hlookup)

theorem declarable_of_lookup (h : Proper env) (hx : env.lookup x = some t) : t.Declarable := by
  have hres := (resolves_iff h).2 hx
  have hdeclarable := h.declarable
  clear h hx
  induction hres with
  | here hmem => exact hdeclarable _ mem_cons_self _ hmem
  | outside _ _ ih => exact ih (forall_mem_cons.1 hdeclarable).2

/-- A name can be bound if it is free. -/
theorem binds_iff (h : Proper env) : env.Binds x t env' ↔ env.Free x ∧ env' = Env.bind env x t := by
  cases env with
  | nil => exact absurd rfl h.ne_nil
  | cons frame outer =>
    constructor
    · intro hbinds
      cases hbinds with
      | fresh hfree => exact ⟨not_mem_keys_iff.1 hfree, rfl⟩
    · rintro ⟨hfree, rfl⟩
      exact .fresh (not_mem_keys_iff.2 hfree)

end TyEnv

/-! ## Expressions -/

/-- Each of the things in a list is in relation to something. -/
theorem exists_forall₂_iff {α β : Type} {R : α → β → Prop} {xs : List α} :
    (∃ ys, Forall₂ R xs ys) ↔ ∀ x ∈ xs, ∃ y, R x y := by
  induction xs with
  | nil => simp
  | cons x xs ih =>
    rw [forall_mem_cons, ← ih]
    constructor
    · rintro ⟨_, hall⟩
      cases hall with
      | cons hhead htail => exact ⟨⟨_, hhead⟩, _, htail⟩
    · rintro ⟨⟨y, hhead⟩, ys, htail⟩
      exact ⟨y :: ys, .cons hhead htail⟩

variable {span : Span} {es args : List Expr}

section Expressions

variable {env : TyEnv} {e : Expr} {x : String} {k n : Nat} {r : Ty} {ps : List Ty}

theorem TyEnv.lvalType?_variable (h : env.lookup x = some (.arrayOf .int n)) :
    env.lvalType? x k = Ty.peel k (.arrayOf .int n) := by
  unfold TyEnv.lvalType?
  rw [h]
  split
  next heq => cases heq
  next heq => exact absurd (Option.some.inj heq) (Ty.arrayOf_ne_function n _ _)
  next heq =>
    cases heq
    rfl

theorem TyEnv.lvalType?_function (h : env.lookup x = some (.function r ps)) :
    env.lvalType? x k = some (.function r ps) := by
  unfold TyEnv.lvalType?
  rw [h]

/-- What a name with subscripts can be: a variable with dimensions enough, or
a function. -/
theorem TyEnv.lvalType?_eq_some_iff (h : env.Proper) :
    env.lvalType? x k = some t ↔
      (∃ left, env.Resolves x (.arrayOf .int (k + left)) ∧ t = .arrayOf .int left) ∨
        ∃ r ps, env.Resolves x (.function r ps) ∧ t = .function r ps := by
  simp only [TyEnv.resolves_iff h]
  constructor
  · intro htype
    cases hlookup : env.lookup x with
    | none =>
      rw [TyEnv.lvalType?, hlookup] at htype
      cases htype
    | some u =>
      cases TyEnv.declarable_of_lookup h hlookup with
      | ofVariable n =>
        rw [TyEnv.lvalType?_variable hlookup] at htype
        obtain ⟨hle, rfl⟩ := Lower.peel_arrayOf_eq_some htype
        exact .inl ⟨n - k, by rw [Nat.add_sub_of_le hle], rfl⟩
      | ofFunction r ps =>
        rw [TyEnv.lvalType?_function hlookup] at htype
        exact .inr ⟨r.type, ps, rfl, (Option.some.inj htype).symm⟩
  · rintro (⟨left, hlookup, rfl⟩ | ⟨r, ps, hlookup, rfl⟩)
    · rw [TyEnv.lvalType?_variable hlookup, Ty.peel_arrayOf]
    · exact TyEnv.lvalType?_function hlookup

/-- Nothing is wrong with a name with subscripts if it has a type and nothing
is wrong with the subscripts. -/
theorem Expr.findings_lval_iff {name : Ident} {indices : List Expr} :
    (Expr.lval span name indices).findings env = [] ↔
      (∃ t, env.lvalType? name.value indices.length = some t) ∧
        Expr.findingsAll env indices = [] := by
  constructor
  · intro h
    exact ⟨Lower.exists_lvalType h, Lower.findings_lval h⟩
  · rintro ⟨⟨t, ht⟩, hall⟩
    have hbound : (env.lookup name.value).isNone = false := by
      cases hlookup : env.lookup name.value with
      | none =>
        rw [TyEnv.lvalType?, hlookup] at ht
        cases ht
      | some _ => rfl
    rw [Expr.findings, hbound, ht]
    exact hall

theorem Expr.findings_call_iff {f : Ident} :
    (Expr.call span f args).findings env = [] ↔
      ∃ r ps, env.lookup f.value = some (.function r ps) ∧ Expr.findingsAll env args = [] ∧
        Expr.applicable env ps args = true := by
  constructor
  · exact Lower.findings_call
  · rintro ⟨r, ps, hlookup, hall, hfit⟩
    rw [Expr.findings, hlookup]
    exact append_eq_nil_iff.2 ⟨hall, Finding.unless_eq_nil.2 hfit⟩

/-- Arguments without findings have the types of the parameters if each is
derivable with its parameter's type. -/
theorem Expr.forall₂_params_iff
    (ih : ∀ e ∈ args, ∀ τ, e.HasType env τ ↔ e.findings env = [] ∧ e.type? env = τ) :
    Forall₂ (Expr.HasType env) args (ps.map some) ↔
      Expr.findingsAll env args = [] ∧ Expr.applicable env ps args = true := by
  induction args generalizing ps with
  | nil => cases ps <;> simp [Expr.findingsAll, Expr.applicable]
  | cons e es ihes =>
    obtain ⟨hhead, htail⟩ := forall_mem_cons.1 ih
    cases ps with
    | nil => simp [Expr.applicable]
    | cons p ps =>
      rw [map_cons, forall₂_cons, hhead, ihes htail, Expr.findingsAll, Expr.applicable,
        append_eq_nil_iff, Bool.and_eq_true, decide_eq_true_eq]
      exact and_and_and_comm

theorem Expr.allValid_iff_of_mem
    (ih : ∀ e ∈ es, ∀ τ, e.HasType env τ ↔ e.findings env = [] ∧ e.type? env = τ) :
    Expr.AllValid env es ↔ Expr.findingsAll env es = [] := by
  rw [Expr.AllValid, exists_forall₂_iff, Lower.findingsAll_eq_nil]
  refine forall₂_congr fun e he => ?_
  simp [ih e he]

/-- **The derivations of an expression** are its type, if nothing is wrong
with it. -/
theorem Expr.hasType_iff (h : env.Proper) (e : Expr) (τ : Option Ty) :
    e.HasType env τ ↔ e.findings env = [] ∧ e.type? env = τ := by
  induction e using Expr.induction generalizing τ with
  | number span text =>
    constructor
    · intro hd
      cases hd
      exact ⟨rfl, rfl⟩
    · rintro ⟨-, rfl⟩
      exact .number
  | lval span name indices ih =>
    rw [Expr.findings_lval_iff, Expr.type?]
    constructor
    · intro hd
      cases hd with
      | lval hres hall =>
        have ht : env.lvalType? name.value indices.length = some _ :=
          (TyEnv.lvalType?_eq_some_iff h).2 (.inl ⟨_, hres, rfl⟩)
        exact ⟨⟨⟨_, ht⟩, (Expr.allValid_iff_of_mem ih).1 ⟨_, hall⟩⟩, ht⟩
      | functionName hres hall =>
        have ht : env.lvalType? name.value indices.length = some _ :=
          (TyEnv.lvalType?_eq_some_iff h).2 (.inr ⟨_, _, hres, rfl⟩)
        exact ⟨⟨⟨_, ht⟩, (Expr.allValid_iff_of_mem ih).1 ⟨_, hall⟩⟩, ht⟩
    · rintro ⟨⟨⟨t, ht⟩, hall⟩, rfl⟩
      obtain ⟨types, hall⟩ := (Expr.allValid_iff_of_mem ih).2 hall
      rw [ht]
      obtain ⟨left, hres, rfl⟩ | ⟨r, ps, hres, rfl⟩ := (TyEnv.lvalType?_eq_some_iff h).1 ht
      · exact .lval hres hall
      · exact .functionName hres hall
  | call span f args ih =>
    rw [Expr.findings_call_iff, Expr.type?]
    constructor
    · intro hd
      cases hd with
      | @call _ _ _ r ps hres hargs =>
        have hlookup := (TyEnv.resolves_iff h).1 hres
        refine ⟨⟨r.type, ps, hlookup, (Expr.forall₂_params_iff ih).1 hargs⟩, ?_⟩
        rw [hlookup]
        cases r <;> rfl
    · rintro ⟨⟨t, ps, hlookup, hargs⟩, rfl⟩
      obtain ⟨r, rfl⟩ := (TyEnv.declarable_of_lookup h hlookup).exists_returnType
      rw [hlookup]
      have hd : HasType env (.call span f args) r.callType? :=
        .call ((TyEnv.resolves_iff h).2 hlookup) ((Expr.forall₂_params_iff ih).2 hargs)
      cases r <;> exact hd
  | unary span op e ih =>
    rw [Expr.findings, append_eq_nil_iff, Finding.unless_eq_nil, decide_eq_true_eq, Expr.type?]
    constructor
    · intro hd
      cases hd with
      | unary he =>
        obtain ⟨hnil, ht⟩ := (ih _).1 he
        exact ⟨⟨hnil, ht⟩, by rw [ht]; rfl⟩
    · rintro ⟨⟨hnil, ht⟩, rfl⟩
      rw [ht]
      exact .unary ((ih _).2 ⟨hnil, ht⟩)
  | binary span op a b iha ihb =>
    rw [Expr.findings, append_eq_nil_iff, append_eq_nil_iff, Finding.unless_eq_nil,
      Bool.and_eq_true, decide_eq_true_eq, decide_eq_true_eq, Expr.type?]
    constructor
    · intro hd
      cases hd with
      | binary ha hb =>
        obtain ⟨hnila, hta⟩ := (iha _).1 ha
        obtain ⟨hnilb, htb⟩ := (ihb _).1 hb
        exact ⟨⟨⟨hnila, hnilb⟩, hta, htb⟩, by rw [hta, htb]; rfl⟩
    · rintro ⟨⟨⟨hnila, hnilb⟩, hta, htb⟩, rfl⟩
      rw [hta, htb]
      exact .binary ((iha _).2 ⟨hnila, hta⟩) ((ihb _).2 ⟨hnilb, htb⟩)
  | paren span e ih =>
    rw [Expr.findings, Expr.type?, ← ih τ]
    constructor
    · intro hd
      cases hd with
      | paren he => exact he
    · exact .paren

theorem Expr.allValid_iff (h : env.Proper) : Expr.AllValid env es ↔ Expr.findingsAll env es = [] :=
  Expr.allValid_iff_of_mem fun e _ => Expr.hasType_iff h e

/-- No expression is of type `void`. -/
theorem Expr.HasType.ne_void {τ : Option Ty} (h : e.HasType env τ) : τ ≠ some .void := by
  induction e using Expr.induction generalizing τ with
  | lval span name indices =>
    cases h with
    | @lval _ _ _ _ left => cases left <;> exact fun heq => Ty.noConfusion (Option.some.inj heq)
    | functionName => exact fun heq => Ty.noConfusion (Option.some.inj heq)
  | call span f args =>
    cases h with
    | @call _ _ _ r => cases r <;> exact fun heq => by cases heq
  | paren span e ih =>
    cases h with
    | paren he => exact ih he
  | _ =>
    cases h
    exact fun heq => Ty.noConfusion (Option.some.inj heq)

theorem Cond.type?_of_findings {c : Cond} (h : c.findings env = []) :
    c.type? env = some .int := by
  unfold Cond.findings at h
  exact of_decide_eq_true (Finding.unless_eq_nil.1 (append_eq_nil_iff.1 h).2)

/-- Nothing is wrong with a node that joins two conditions if nothing is wrong
with these: they are integers then, and so is it. -/
theorem Cond.findings_node_iff {a b c : Cond} {line : Nat}
    (htype : a.type? env = some .int → b.type? env = some .int → c.type? env = some .int) :
    a.findings env ++ b.findings env ++
        Finding.unless (c.type? env = some .int) .operatorMismatch line = [] ↔
      a.findings env = [] ∧ b.findings env = [] := by
  rw [append_eq_nil_iff, append_eq_nil_iff, Finding.unless_eq_nil, decide_eq_true_eq,
    and_iff_left_iff_imp]
  rintro ⟨ha, hb⟩
  exact htype (Cond.type?_of_findings ha) (Cond.type?_of_findings hb)

/-- **The derivations of a condition.** -/
theorem Cond.isInt_iff (h : env.Proper) (c : Cond) : c.IsInt env ↔ c.findings env = [] := by
  induction c with
  | expr e =>
    rw [Cond.findings, append_eq_nil_iff, Finding.unless_eq_nil, decide_eq_true_eq,
      Cond.type?, ← Expr.hasType_iff h]
    constructor
    · intro hd
      cases hd with
      | expr he => exact he
    · exact .expr
  | compare span op a b iha ihb =>
    have htype (ha : a.type? env = some .int) (hb : b.type? env = some .int) :
        (Cond.compare span op a b).type? env = some .int := by
      rw [Cond.type?, ha, hb]
      rfl
    rw [Cond.findings, Cond.findings_node_iff htype, ← iha, ← ihb]
    constructor
    · intro hd
      cases hd with
      | compare ha hb => exact ⟨ha, hb⟩
    · rintro ⟨ha, hb⟩
      exact .compare ha hb
  | logic span op a b iha ihb =>
    have htype (ha : a.type? env = some .int) (hb : b.type? env = some .int) :
        (Cond.logic span op a b).type? env = some .int := by
      rw [Cond.type?, ha, hb]
      rfl
    rw [Cond.findings, Cond.findings_node_iff htype, ← iha, ← ihb]
    constructor
    · intro hd
      cases hd with
      | logic ha hb => exact ⟨ha, hb⟩
    · rintro ⟨ha, hb⟩
      exact .logic ha hb

/-- **The derivations of an initial value** are its type, if nothing is wrong
with it. -/
theorem InitVal.hasType_iff (h : env.Proper) (i : InitVal) (τ : Option Ty) :
    i.HasType env τ ↔ i.findings env = [] ∧ i.type? env = τ := by
  induction i using InitVal.induction generalizing τ with
  | expr e =>
    rw [InitVal.findings, InitVal.type?, ← Expr.hasType_iff h]
    constructor
    · intro hd
      cases hd with
      | expr he => exact he
    · exact .expr
  | list span items ih =>
    have hitems : (∃ types, Forall₂ (InitVal.HasType env) items types) ↔
        InitVal.findingsAll env items = [] := by
      rw [exists_forall₂_iff, Lower.initFindingsAll_eq_nil]
      refine forall₂_congr fun i hi => ?_
      simp [ih i hi]
    rw [InitVal.findings, ← hitems, InitVal.type?]
    constructor
    · intro hd
      cases hd with
      | list hall => exact ⟨⟨_, hall⟩, rfl⟩
    · rintro ⟨⟨types, hall⟩, rfl⟩
      exact .list hall

theorem Initializer.fits_iff (h : env.Proper) {declared : Ty} {i : Initializer} :
    i.Fits env declared ↔ i.findings env declared = [] := by
  rw [Initializer.findings, append_eq_nil_iff, Finding.unless_eq_nil, Initializer.suits]
  unfold Initializer.Fits
  simp only [InitVal.hasType_iff h]
  cases i.value.type? env with
  | none => simp
  | some t =>
    rw [Bool.or_eq_true, Bool.and_eq_true, decide_eq_true_eq]
    constructor
    · rintro ⟨u, ⟨hnil, hu⟩, hfit⟩
      cases hu
      exact ⟨hnil, hfit⟩
    · rintro ⟨hnil, hfit⟩
      exact ⟨t, ⟨hnil, rfl⟩, hfit⟩

end Expressions

/-! ## Declarations -/

section Declarations

variable {env env' : TyEnv}

/-- A judgement decides which declarations have a derivation, and these leave
a proper environment. -/
structure TyEnv.Decides {α : Type} (judge : TyEnv → α → TyEnv × List Finding)
    (declares : TyEnv → α → TyEnv → Prop) : Prop where
  proper : ∀ {env x env'}, env.Proper → declares env x env' → env'.Proper
  /-- The derivations are what is judged without findings. -/
  iff : ∀ {env x env'}, env.Proper → (declares env x env' ↔ judge env x = (env', []))

/-- Nothing wrong is found exactly where there is a derivation. -/
theorem TyEnv.Decides.declares {α : Type} {judge : TyEnv → α → TyEnv × List Finding}
    {declares : TyEnv → α → TyEnv → Prop} (hdecides : Decides judge declares) (h : env.Proper)
    {x : α} (hnil : (judge env x).2 = []) : declares env x (judge env x).1 :=
  (hdecides.iff h).2 (Prod.ext rfl hnil)

/-- **Declarations one after the other** are decided if each of them is. -/
theorem TyEnv.Decides.threads {α : Type} {judge : TyEnv → α → TyEnv × List Finding}
    {declares : TyEnv → α → TyEnv → Prop} (hdecides : Decides judge declares) :
    Decides (TyEnv.judgeAll judge) (TyEnv.Threads declares) where
  proper := by
    intro env xs env' h hxs
    induction hxs with
    | nil => exact h
    | cons hx _ ih => exact ih (hdecides.proper h hx)
  iff := by
    intro env xs env' h
    induction xs generalizing env with
    | nil =>
      rw [TyEnv.judgeAll, Prod.mk.injEq]
      constructor
      · intro hd
        cases hd
        exact ⟨rfl, rfl⟩
      · rintro ⟨rfl, -⟩
        exact .nil
    | cons x xs ih =>
      rw [TyEnv.judgeAll, Prod.mk.injEq, append_eq_nil_iff]
      constructor
      · intro hd
        cases hd with
        | cons hx hxs =>
          have hlater := (ih (hdecides.proper h hx)).1 hxs
          rw [(hdecides.iff h).1 hx]
          dsimp only
          rw [hlater]
          exact ⟨rfl, rfl, rfl⟩
      · rintro ⟨henv', hhere, hlater⟩
        have hx := hdecides.declares h hhere
        exact .cons hx ((ih (hdecides.proper h hx)).2 (Prod.ext henv' hlater))

theorem Definition.decides : TyEnv.Decides Definition.judge Definition.Declares where
  proper := fun h hd => h.binds (.ofVariable _) hd.binds
  iff := by
    intro env d env' h
    rw [Definition.judge_iff, ← and_assoc, ← TyEnv.binds_iff h, Definition.innerFindings,
      append_eq_nil_iff]
    constructor
    · rintro ⟨hbinds, hdims, hinit⟩
      have henv' := h.binds (.ofVariable _) hbinds
      refine ⟨hbinds, (Expr.allValid_iff henv').1 hdims, ?_⟩
      split
      next i hi => exact (Initializer.fits_iff henv').1 (hinit i hi)
      next => rfl
    · rintro ⟨hbinds, hdims, hinit⟩
      have henv' := h.binds (.ofVariable _) hbinds
      refine ⟨hbinds, (Expr.allValid_iff henv').2 hdims, ?_⟩
      intro i hi
      rw [Option.mem_def.1 hi] at hinit
      exact (Initializer.fits_iff henv').2 hinit

theorem Decl.decides : TyEnv.Decides Decl.judge Decl.Declares where
  proper := Definition.decides.threads.proper
  iff := Definition.decides.threads.iff

theorem Parameter.declarable_type (p : Parameter) : p.type.Declarable := by
  unfold Parameter.type
  split
  next => exact .ofVariable 0
  next dims _ => exact .ofVariable (dims.length + 1)

theorem Parameter.decides : TyEnv.Decides Parameter.judge Parameter.Declares where
  proper := fun h hp => h.binds (Parameter.declarable_type _) hp.binds
  iff := by
    intro env p env' h
    rw [Parameter.judge_iff, ← and_assoc, ← TyEnv.binds_iff h]
    constructor
    · rintro ⟨hbinds, hdims⟩
      exact ⟨hbinds, (Expr.allValid_iff (h.binds p.declarable_type hbinds)).1 hdims⟩
    · rintro ⟨hbinds, hdims⟩
      exact ⟨hbinds, (Expr.allValid_iff (h.binds p.declarable_type hbinds)).2 hdims⟩

end Declarations

/-! ## Statements -/

section Statements

variable {r : ReturnType} {env : TyEnv}

theorem Stmt.valid_assign_iff (h : env.Proper) {target : LVal} {mark : Span} {value : Expr} :
    Stmt.Valid r env (.assign target mark value) ↔
      (Stmt.assign target mark value).findings r.type env = [] := by
  rw [Stmt.findings]
  constructor
  · intro hd
    cases hd with
    | @assign _ _ _ _ left hres hall hvalue =>
      obtain ⟨hnil, htype⟩ := (Expr.hasType_iff h value _).1 hvalue
      have hlval : env.lvalType? target.name.value target.indices.length =
          some (.arrayOf .int left) := (TyEnv.lvalType?_eq_some_iff h).2 (.inl ⟨left, hres, rfl⟩)
      have hindices := (Expr.allValid_iff h).1 hall
      rw [(TyEnv.resolves_iff h).1 hres]
      split
      next heq => exact absurd (Option.some.inj heq) (Ty.arrayOf_ne_function _ _ _)
      next =>
        dsimp only
        rw [hlval, htype, LVal.findings, Expr.findings_lval_iff.2 ⟨⟨_, hlval⟩, hindices⟩, hnil]
        simp [Finding.unless]
  · intro hnil
    split at hnil
    next => cases hnil
    next hvar =>
      simp only [append_eq_nil_iff, Finding.unless_eq_nil, Bool.and_eq_true,
        decide_eq_true_eq] at hnil
      obtain ⟨⟨htarget, hvalue⟩, hsome, htype⟩ := hnil
      obtain ⟨⟨t, ht⟩, hindices⟩ := Expr.findings_lval_iff.1 htarget
      obtain ⟨left, hres, rfl⟩ | ⟨u, ps, hres, rfl⟩ := (TyEnv.lvalType?_eq_some_iff h).1 ht
      · exact .assign hres ((Expr.allValid_iff h).2 hindices)
          ((Expr.hasType_iff h value _).2 ⟨hvalue, htype.symm.trans ht⟩)
      · exact absurd ((TyEnv.resolves_iff h).1 hres) (hvar u ps)

theorem Stmt.valid_return_iff (h : env.Proper) {keyword : Span} {e : Expr} :
    Stmt.Valid r env (.return_ keyword (some e)) ↔
      (Stmt.return_ keyword (some e)).findings r.type env = [] := by
  rw [Stmt.findings, append_eq_nil_iff, Finding.unless_eq_nil, decide_eq_true_eq,
    ← Expr.hasType_iff h]
  constructor
  · intro hd
    cases hd with
    | returnInt hr he =>
      subst hr
      exact he
  · intro he
    cases r with
    | int => exact .returnInt rfl he
    | void => exact absurd rfl he.ne_void

mutual

/-- **The derivations of a statement.** -/
theorem Stmt.valid_iff : ∀ {env : TyEnv}, env.Proper → ∀ s : Stmt,
    Stmt.Valid r env s ↔ s.findings r.type env = []
  | _, h, .assign .. => Stmt.valid_assign_iff h
  | _, _, .eval none => iff_of_true .empty rfl
  | _, h, .eval (some e) => by
    rw [Stmt.findings]
    constructor
    · intro hd
      cases hd with
      | eval he => exact ((Expr.hasType_iff h e _).1 he).1
    · intro hnil
      exact .eval ((Expr.hasType_iff h e _).2 ⟨hnil, rfl⟩)
  | _, h, .block b => by
    rw [Stmt.findings, ← Block.valid_iff h.enter b]
    constructor
    · intro hd
      cases hd with
      | block hb => exact hb
    · exact .block
  | _, h, .if_ c s rest => by
    rw [Stmt.findings, append_eq_nil_iff, append_eq_nil_iff, ← Cond.isInt_iff h,
      ← Stmt.valid_iff h s, ← Otherwise.valid_iff h rest]
    constructor
    · intro hd
      cases hd with
      | if_ hc hs hrest => exact ⟨⟨hc, hs⟩, hrest⟩
    · rintro ⟨⟨hc, hs⟩, hrest⟩
      exact .if_ hc hs hrest
  | _, h, .while_ c s => by
    rw [Stmt.findings, append_eq_nil_iff, ← Cond.isInt_iff h, ← Stmt.valid_iff h s]
    constructor
    · intro hd
      cases hd with
      | while_ hc hs => exact ⟨hc, hs⟩
    · rintro ⟨hc, hs⟩
      exact .while_ hc hs
  | _, _, .break_ _ => iff_of_true .break_ rfl
  | _, _, .continue_ _ => iff_of_true .continue_ rfl
  | _, _, .return_ keyword none => by
    rw [Stmt.findings, Finding.unless_eq_nil, decide_eq_true_eq]
    cases r with
    | int => exact iff_of_false (fun hd => by cases hd; contradiction) Ty.noConfusion
    | void => exact iff_of_true (.returnNothing rfl) rfl
  | _, h, .return_ _ (some _) => Stmt.valid_return_iff h

/-- The derivations of the items of a block. -/
theorem Block.valid_iff : ∀ {env : TyEnv}, env.Proper → ∀ b : Block,
    Block.Valid r env b ↔ b.findings r.type env = []
  | _, _, .nil => iff_of_true .nil rfl
  | _, h, .decl d rest => by
    rw [Block.findings, append_eq_nil_iff]
    constructor
    · intro hd
      cases hd with
      | decl hd hrest =>
        have henv' := Decl.decides.proper h hd
        rw [(Decl.decides.iff h).1 hd]
        exact ⟨rfl, (Block.valid_iff henv' rest).1 hrest⟩
    · rintro ⟨hhere, hlater⟩
      have hd := Decl.decides.declares h hhere
      exact .decl hd ((Block.valid_iff (Decl.decides.proper h hd) rest).2 hlater)
  | _, h, .stmt s rest => by
    rw [Block.findings, append_eq_nil_iff, ← Stmt.valid_iff h s, ← Block.valid_iff h rest]
    constructor
    · intro hd
      cases hd with
      | stmt hs hrest => exact ⟨hs, hrest⟩
    · rintro ⟨hs, hrest⟩
      exact .stmt hs hrest

/-- The derivations of the alternatives of an `if`. -/
theorem Otherwise.valid_iff : ∀ {env : TyEnv}, env.Proper → ∀ o : Otherwise,
    Otherwise.Valid r env o ↔ o.findings r.type env = []
  | _, _, .done => iff_of_true .done rfl
  | _, h, .else_ s => by
    rw [Otherwise.findings, ← Stmt.valid_iff h s]
    constructor
    · intro hd
      cases hd with
      | else_ hs => exact hs
    · exact .else_
  | _, h, .elseIf c s rest => by
    rw [Otherwise.findings, append_eq_nil_iff, append_eq_nil_iff, ← Cond.isInt_iff h,
      ← Stmt.valid_iff h s, ← Otherwise.valid_iff h rest]
    constructor
    · intro hd
      cases hd with
      | elseIf hc hs hrest => exact ⟨⟨hc, hs⟩, hrest⟩
    · rintro ⟨⟨hc, hs⟩, hrest⟩
      exact .elseIf hc hs hrest

end

end Statements

/-! ## Programs -/

theorem FunctionDef.decides : TyEnv.Decides FunctionDef.judge FunctionDef.Declares where
  proper := by
    intro env f env' h hf
    cases hf with
    | intro hbinds => exact h.binds (.ofFunction _ _) hbinds
  iff := by
    intro env f env' h
    rw [FunctionDef.judge_iff, ← and_assoc, ← TyEnv.binds_iff h]
    constructor
    · intro hf
      cases hf with
      | intro hbinds hparams hbody =>
        have henv' := h.binds (.ofFunction _ _) hbinds
        have hinner := Parameter.decides.threads.proper henv'.enter hparams
        refine ⟨hbinds, ?_⟩
        rw [(Parameter.decides.threads.iff henv'.enter).1 hparams]
        exact (Block.valid_iff hinner.enter f.body).1 hbody
    · rintro ⟨hbinds, hnil⟩
      have henv' := h.binds (.ofFunction _ _) hbinds
      obtain ⟨hofParams, hofBody⟩ := append_eq_nil_iff.1 hnil
      have hparams := Parameter.decides.threads.declares henv'.enter hofParams
      have hinner := Parameter.decides.threads.proper henv'.enter hparams
      exact .intro hbinds hparams ((Block.valid_iff hinner.enter f.body).2 hofBody)

theorem TopLevel.decides : TyEnv.Decides TopLevel.judge TopLevel.Declares where
  proper := by
    intro env u env' h hu
    cases hu with
    | decl hd => exact Decl.decides.proper h hd
    | function hf => exact FunctionDef.decides.proper h hf
  iff := by
    intro env u env' h
    cases u with
    | decl d =>
      rw [TopLevel.judge, ← Decl.decides.iff h]
      constructor
      · intro hu
        cases hu with
        | decl hd => exact hd
      · exact .decl
    | function f =>
      rw [TopLevel.judge, ← FunctionDef.decides.iff h]
      constructor
      · intro hu
        cases hu with
        | function hf => exact hf
      · exact .function

/-- **The judgement decides the type system.** A program is accepted exactly if
it has a derivation. -/
theorem Program.accepted_iff_wellTyped (p : Program) : p.accepted = true ↔ p.WellTyped := by
  have hunits := TopLevel.decides.threads
  rw [Program.accepted_iff]
  constructor
  · intro hnil
    exact ⟨_, hunits.declares .initial hnil⟩
  · rintro ⟨env, hd⟩
    show (TyEnv.judgeAll TopLevel.judge [[]] p.units).2 = []
    rw [(hunits.iff .initial).1 hd]

end SysY
