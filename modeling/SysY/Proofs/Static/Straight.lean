import SysY.Proofs.Lower.Shape
import SysY.Proofs.Static.Judged
import SysY.Proofs.Static.Known

/-!
# Straight code knows what it reads

The code of expressions and of declarations is permitted where the variables
in scope are known, and it leaves them known. An expression forgets nothing;
a declaration settles, and makes its own variable known. The value of an
expression is usable, and it is an address if its type is that of an array.
-/

namespace SysY.Lower

open IR (Value Op Instr Label Temp Kind Known Signatures Step Straight ArgsFit)
open List

variable {sig : Signatures} {env : TyEnv} {ctx : Context} {S S1 S' : Known} {n n1 n' : Nat}
  {is is' : List Instr} {σ σ' : Supply}

/-! ## Variables in scope -/

/-- A symbol is known: its cell or its array is. -/
def SymbolKnown (S : Known) : Symbol → Prop
  | .scalar (.temp t) _ => S.kinds t = some .cell
  | .scalar v _ => v.Points S
  | .array (.address v) _ _ => v.Points S.settled
  | .array (.pointer (.temp t)) _ _ => S.kinds t = some .pointerCell
  | .array (.pointer _) _ _ => False

/-- **The variables in scope are known.** -/
def Covers (S : Known) (symbols : Symbols) : Prop :=
  ∀ ⦃name s⦄, symbols.lookup name = some s → SymbolKnown S s

variable {s : Symbol} {es : List Expr} {i : Nat} {v : Value} {fs : List Finding} {vs : List Value}
  {scalar constant : Bool} {p : Parameter} {offset a : Value} {name : Ident} {indices : List Expr}
  {d : Definition}

theorem SymbolKnown.mono (h : SymbolKnown S s) (hsub : Known.Sub S.settled S') :
    SymbolKnown S' s := by
  cases s with
  | scalar v k =>
    cases v with
    | temp t => exact hsub (Known.kinds_settled.2 ⟨h, rfl⟩)
    | _ => exact h
  | array base dims k =>
    cases base with
    | address v => exact Value.Points.mono h hsub.of_settled
    | pointer slot =>
      cases slot with
      | temp t => exact hsub (Known.kinds_settled.2 ⟨h, rfl⟩)
      | _ => exact h

namespace Covers

variable {symbols : Symbols}

theorem mono (h : Covers S symbols) (hsub : Known.Sub S.settled S') : Covers S' symbols :=
  fun _ _ hs => (h hs).mono hsub

theorem enter (h : Covers S symbols) : Covers S symbols.enter := by
  intro name s hs
  rw [Env.lookup_enter] at hs
  exact h hs

theorem bind (h : Covers S symbols) (name : String) {s : Symbol} (hs : SymbolKnown S s) :
    Covers S (symbols.bind name s) := by
  intro other s' hs'
  obtain ⟨-, rfl⟩ | ⟨-, hs'⟩ := Env.of_lookup_bind hs'
  · exact hs
  · exact h hs'

end Covers

/-! ## Code that forgets nothing -/

/-- Straight code that is permitted and forgets nothing. -/
structure Grows (sig : Signatures) (S : Known) (n : Nat) (is : List Instr) (S' : Known) (n' : Nat) :
    Prop where
  code : Straight sig S n is S' n'
  sub : Known.Sub S S'
  /-- Only what has been handed out is known. -/
  below : S'.Below n'

namespace Grows

variable {k : Kind}

theorem nil (h : S.Below n) : Grows sig S n [] S n := ⟨.nil, .refl S, h⟩

theorem append (h : Grows sig S n is S1 n1) (h' : Grows sig S1 n1 is' S' n') :
    Grows sig S n (is ++ is') S' n' :=
  ⟨h.code.append h'.code, h.sub.trans h'.sub, h'.below⟩

/-- One more result. -/
theorem define (op : Op) (hS : S.Below n) (h : Step sig S ⟨some n, op⟩ (S.busy.add n k)) :
    Grows sig S n [⟨some n, op⟩] (S.busy.add n k) (n + 1) where
  code := .result h
  sub := Known.Sub.add_of_below (S := S.busy) hS (Nat.le_refl n) k
  below := Known.Below.add (S := S.busy) hS k

/-- One more effect. -/
theorem perform (op : Op) (hS : S.Below n) (h : Step sig S ⟨none, op⟩ S.busy) :
    Grows sig S n [⟨none, op⟩] S.busy n :=
  ⟨.effect h, fun _ _ h => h, hS⟩

theorem covers {symbols : Symbols} (h : Grows sig S n is S' n') (hc : Covers S symbols) :
    Covers S' symbols :=
  hc.mono ((Known.settled_sub S).trans h.sub)

end Grows

/-! ## Expressions -/

/-- The code of an expression is permitted, and its value is usable. -/
def ExprGrows (sig : Signatures) (env : TyEnv) (ctx : Context) (e : Expr) : Prop :=
  ∀ ⦃S : Known⦄ ⦃σ σ' : Supply⦄ ⦃is : List Instr⦄ ⦃v : Value⦄,
    lowerExpr ctx e σ = .ok ((is, v), σ') → Covers S ctx.symbols → S.Below σ.temps →
    Checked sig.wants env ctx.symbols (e.findings env) →
    ∃ S', Grows sig S σ.temps is S' σ'.temps ∧ v.Usable S' ∧
      ∀ t, Judged sig.wants env ctx.symbols → e.findings env = [] →
        e.type? env = some (.array t) → v.Points S'

theorem lowerArgs_grows (hes : ∀ e ∈ es, ExprGrows sig env ctx e)
    (h : lowerArgs ctx es σ = .ok ((is, vs), σ')) (hS : Covers S ctx.symbols) (hn : S.Below σ.temps)
    (hc : Checked sig.wants env ctx.symbols (Expr.findingsAll env es)) :
    ∃ S', Grows sig S σ.temps is S' σ'.temps ∧ (∀ v ∈ vs, v.Usable S') ∧
      ∀ (i : Nat) (e : Expr) (v : Value) (t : Ty), Judged sig.wants env ctx.symbols →
        e.findings env = [] → es[i]? = some e → vs[i]? = some v → e.type? env = some (.array t) →
        v.Points S' := by
  induction es generalizing S σ is vs with
  | nil =>
    obtain ⟨rfl, rfl, rfl⟩ := lowerArgs_nil h
    exact ⟨S, .nil hn, by simp, fun i _ _ _ _ _ hi => by simp at hi⟩
  | cons e es ih =>
    obtain ⟨c1, x, σ1, c2, xs, h1, h2, rfl, rfl⟩ := lowerArgs_cons h
    rw [Expr.findingsAll] at hc
    obtain ⟨S1, hg1, hx, hpoints⟩ := hes e mem_cons_self h1 hS hn hc.left
    obtain ⟨S', hg2, hxs, hrest⟩ :=
      ih (fun e he => hes e (mem_cons_of_mem _ he)) h2 (hg1.covers hS) hg1.below hc.right
    refine ⟨S', hg1.append hg2, forall_mem_cons.2 ⟨hx.mono hg2.sub, hxs⟩, ?_⟩
    intro i e' v t hj hnil he' hv ht
    cases i with
    | zero =>
      cases he'
      cases hv
      exact (hpoints t hj hnil ht).mono hg2.sub
    | succ i => exact hrest i e' v t hj hnil he' hv ht

theorem lowerArgs_getElem? (h : lowerArgs ctx es σ = .ok ((is, vs), σ')) (hv : vs[i]? = some v) :
    ∃ e, es[i]? = some e := by
  induction es generalizing σ is vs i with
  | nil =>
    obtain ⟨-, rfl, -⟩ := lowerArgs_nil h
    simp at hv
  | cons e es ih =>
    obtain ⟨_, _, _, _, xs, -, h2, -, rfl⟩ := lowerArgs_cons h
    cases i with
    | zero => exact ⟨e, rfl⟩
    | succ i => exact ih h2 hv

theorem lowerOffset_grows (hes : ∀ e ∈ es, ExprGrows sig env ctx e) {sizes : List Nat}
    (h : lowerOffset ctx offset es sizes σ = .ok ((is, v), σ')) (hS : Covers S ctx.symbols)
    (hn : S.Below σ.temps) (hc : Checked sig.wants env ctx.symbols (Expr.findingsAll env es))
    (hoffset : offset.Usable S) : ∃ S', Grows sig S σ.temps is S' σ'.temps ∧ v.Usable S' := by
  induction es generalizing S sizes σ is offset with
  | nil =>
    obtain ⟨rfl, rfl, rfl⟩ := lowerOffset_end (.inl rfl) h
    exact ⟨S, .nil hn, hoffset⟩
  | cons e es ih =>
    cases sizes with
    | nil =>
      obtain ⟨rfl, rfl, rfl⟩ := lowerOffset_end (.inr rfl) h
      exact ⟨S, .nil hn, hoffset⟩
    | cons size sizes =>
      obtain ⟨c2, index, σ2, c4, h2, h4, rfl⟩ := lowerOffset_cons h
      rw [Expr.findingsAll] at hc
      -- the offset so far, scaled; the subscript; their sum
      have hg1 : Grows sig S _ _ _ _ :=
        .define (.binary .mul offset (.const (Int32.ofNat size))) hn
          (.binary hoffset (Value.usable_const))
      obtain ⟨S2, hg2, hindex, -⟩ := hes e mem_cons_self h2 (hg1.covers hS) hg1.below hc.left
      have hscaled : (Value.temp σ.temps).Usable S2 := (Value.usable_add rfl).mono hg2.sub
      have hg3 : Grows sig S2 _ _ _ _ :=
        .define (.binary .add (.temp σ.temps) index) hg2.below (.binary hscaled hindex)
      have hg := (hg1.append hg2).append hg3
      obtain ⟨S', hg4, hv⟩ := ih (fun e he => hes e (mem_cons_of_mem _ he)) h4 (hg.covers hS)
        hg3.below hc.right (Value.usable_add rfl)
      exact ⟨S', hg.append hg4, hv⟩

theorem baseAddress_grows (sig : Signatures) {base : Base} {dims : List Nat} {k : Option (List Int32)}
    (h : baseAddress base σ = .ok ((is, v), σ')) (hs : SymbolKnown S (.array base dims k))
    (hn : S.Below σ.temps) : ∃ S', Grows sig S σ.temps is S' σ'.temps ∧ v.Points S' := by
  obtain ⟨rfl, rfl, rfl⟩ | ⟨slot, rfl, rfl, rfl, rfl⟩ := baseAddress_ok h
  · exact ⟨S, .nil hn, Value.Points.mono hs S.settled_sub⟩
  · cases slot with
    | temp t => exact ⟨_, .define _ hn (.loadPointer hs), .inl (Known.kinds_add_self _ _ _)⟩
    | _ => cases hs

theorem scaleByRow_grows (sig : Signatures) {rest : List Nat}
    (h : scaleByRow offset rest σ = .ok ((is, v), σ')) (hn : S.Below σ.temps)
    (hoffset : offset.Usable S) : ∃ S', Grows sig S σ.temps is S' σ'.temps ∧ v.Usable S' := by
  obtain ⟨rfl, rfl, rfl, rfl⟩ | ⟨-, -, rfl, rfl, rfl⟩ := scaleByRow_ok h
  · exact ⟨S, .nil hn, hoffset⟩
  · exact ⟨_, .define _ hn (.binary hoffset (Value.usable_const)), Value.usable_add rfl⟩

/-- What is at an address: it may be loaded from and stored to if it is that of
a scalar, and it is the address of a row otherwise. -/
structure Designates (S : Known) (a : Value) (scalar : Bool) : Prop where
  /-- A cell, or a word that is pointed to. -/
  target : (∃ t, a = .temp t ∧ S.kinds t = some .cell) ∨ a.Points S
  /-- A row is pointed to. -/
  row : scalar = false → a.Points S

theorem lowerAddress_grows (hindices : ∀ e ∈ indices, ExprGrows sig env ctx e)
    (h : lowerAddress ctx name indices σ = .ok ((is, a, scalar), σ')) (hS : Covers S ctx.symbols)
    (hn : S.Below σ.temps) (hc : Checked sig.wants env ctx.symbols (Expr.findingsAll env indices)) :
    ∃ S', Grows sig S σ.temps is S' σ'.temps ∧ Designates S' a scalar ∧
      ∀ t, Judged sig.wants env ctx.symbols →
        env.lvalType? name.value indices.length = some (.array t) → scalar = false := by
  obtain ⟨k, hs, rfl, rfl, rfl⟩ | ⟨base, dims, k, c1, b, σ1, hs, hb, h⟩ := lowerAddress_ok h
  · have hknown := hS (resolve_ok hs)
    refine ⟨S, .nil hn, ⟨?_, nofun⟩, ?_⟩
    · cases a with
      | temp t => exact .inl ⟨t, rfl, hknown⟩
      | _ => exact .inr hknown
    · intro t hj ht
      obtain ⟨_, hlookup, rfl⟩ := hj.symbols (resolve_ok hs)
      rw [TyEnv.lvalType?, hlookup] at ht
      cases hlen : indices.length <;> rw [hlen] at ht <;> cases ht
  · obtain ⟨S1, hg1, hbase⟩ := baseAddress_grows sig hb (hS (resolve_ok hs)) hn
    obtain ⟨rfl, rfl, rfl, rfl, rfl⟩ |
      ⟨e, es, c2, first, σ2, c3, offset, σ3, c4, scaled, σ4, rfl, h2, h3, h4, rfl, rfl, rfl, rfl⟩ := h
    · exact ⟨S1, hg1, ⟨.inr hbase, fun _ => hbase⟩, fun _ _ _ => rfl⟩
    · rw [Expr.findingsAll] at hc
      obtain ⟨S2, hg2, hfirst, -⟩ := hindices e mem_cons_self h2 (hg1.covers hS) hg1.below hc.left
      obtain ⟨S3, hg3, hoffset⟩ :=
        lowerOffset_grows (fun e he => hindices e (mem_cons_of_mem _ he)) h3
          (hg2.covers (hg1.covers hS)) hg2.below hc.right hfirst
      obtain ⟨S4, hg4, hscaled⟩ := scaleByRow_grows sig h4 hg3.below hoffset
      have hbase4 := hbase.mono ((hg2.sub.trans hg3.sub).trans hg4.sub)
      have hg5 : Grows sig S4 _ _ _ _ := .define (.element b scaled) hg4.below (.element hbase4 hscaled)
      have hpoints : (Value.temp σ4.temps).Points (S4.busy.add σ4.temps .pointer) :=
        .inl (Known.kinds_add_self _ _ _)
      refine ⟨_, (((hg1.append hg2).append hg3).append hg4).append hg5,
        ⟨.inr hpoints, fun _ => hpoints⟩, ?_⟩
      intro t hj ht
      obtain ⟨_, hlookup, rfl⟩ := hj.symbols (resolve_ok hs)
      have hpeel : Ty.peel (e :: es).length (.arrayOf .int dims.length) = some (.array t) := by
        rw [TyEnv.lvalType?, hlookup] at ht
        split at ht
        next heq => cases heq
        next heq => exact absurd (Option.some.inj heq) (Ty.arrayOf_ne_function _ _ _)
        next heq =>
          cases heq
          exact ht
      have hlt := Ty.lt_of_peel_arrayOf hpeel
      rw [isEmpty_eq_false_iff]
      exact fun hnil => absurd (drop_eq_nil_iff.1 hnil) (Nat.not_le_of_lt hlt)

theorem unaryCode_grows (sig : Signatures) {op : UnaryOp} {x : Value} (h : unaryCode op x σ = .ok ((is, v), σ'))
    (hn : S.Below σ.temps) (hx : x.Usable S) :
    ∃ S', Grows sig S σ.temps is S' σ'.temps ∧ v.Usable S' := by
  obtain ⟨-, rfl, rfl, rfl⟩ | ⟨-, rfl, rfl, rfl⟩ | ⟨-, rfl, rfl, rfl⟩ := unaryCode_ok h
  · exact ⟨S, .nil hn, hx⟩
  · exact ⟨_, .define _ hn (.binary (Value.usable_const) hx), Value.usable_add rfl⟩
  · have hg1 : Grows sig S _ _ _ _ :=
      .define (.compare .eq x (.const 0)) hn (.compare hx (Value.usable_const))
    have hg2 : Grows sig _ _ _ _ _ :=
      .define (.zext (.temp σ.temps)) hg1.below (.zext (Value.usable_add rfl))
    exact ⟨_, hg1.append hg2, Value.usable_add rfl⟩

/-- **The code of an expression knows what it reads.** -/
theorem lowerExpr_grows (e : Expr) : ExprGrows sig env ctx e := by
  induction e using Expr.induction with
  | number span text =>
    intro S σ σ' is v h hS hn hc
    obtain ⟨n, -, rfl, rfl, rfl⟩ := lowerExpr_number h
    exact ⟨S, .nil hn, trivial, fun _ _ _ ht => by rw [Expr.type?] at ht; cases ht⟩
  | lval span name indices ih =>
    intro S σ σ' is v h hS hn hc
    obtain ⟨c, a, scalar, σ1, h1, h⟩ := lowerExpr_lval h
    obtain ⟨S1, hg1, ha, htype⟩ := lowerAddress_grows ih h1 hS hn
      (hc.imp fun hj hnil => ⟨hj, findings_lval hnil⟩)
    obtain ⟨rfl, rfl, rfl, rfl⟩ | ⟨rfl, rfl, rfl, rfl⟩ := h
    · have hload : Step sig S1 ⟨some σ1.temps, .load a⟩ (S1.busy.add σ1.temps .data) := by
        obtain ⟨t, rfl, ht⟩ | hp := ha.target
        · exact .loadCell ht
        · exact .load hp
      refine ⟨_, hg1.append (.define _ hg1.below hload), Value.usable_add rfl, ?_⟩
      intro t hj _ ht
      rw [Expr.type?] at ht
      cases htype t hj ht
    · exact ⟨S1, hg1, (ha.row rfl).usable, fun _ _ _ _ => ha.row rfl⟩
  | call span callee args ih =>
    intro S σ σ' is v h hS hn hc
    obtain ⟨signature, c, vs, σ1, -, h1, h⟩ := lowerExpr_call h
    obtain ⟨S1, hg1, hvs, hpoints⟩ := lowerArgs_grows ih h1 hS hn
      (hc.imp fun hj hnil => ⟨hj, (findings_call hnil).choose_spec.choose_spec.2.1⟩)
    have hfit : ArgsFit (sig.wants callee.value) S1 vs := by
      refine ⟨hvs, fun i v hwant hv => ?_⟩
      rcases hc with hnone | ⟨hj, hnil⟩
      · rw [hnone] at hwant
        cases hwant
      · obtain ⟨r, ps, hf, hargs, happ⟩ := findings_call hnil
        rw [hj.functions hf, getElem?_map] at hwant
        obtain ⟨t, ht, harray⟩ := Option.map_eq_some_iff.1 hwant
        obtain ⟨e, he⟩ := lowerArgs_getElem? h1 hv
        cases t with
        | array t =>
          exact hpoints i e v t hj (findingsAll_eq_nil.1 hargs e (mem_of_getElem? he)) he hv
            (type?_of_applicable happ ht he)
        | _ => cases harray
    have htype : ∀ t, (Expr.call span callee args).type? env ≠ some (.array t) := by
      intro t ht
      rw [Expr.type?] at ht
      split at ht <;> cases ht
    obtain ⟨-, rfl, rfl, rfl⟩ | ⟨-, rfl, rfl, rfl⟩ := h
    · exact ⟨_, hg1.append (.perform _ hg1.below (.callVoid hfit)), trivial,
        fun t _ _ ht => absurd ht (htype t)⟩
    · exact ⟨_, hg1.append (.define _ hg1.below (.call hfit)), Value.usable_add rfl,
        fun t _ _ ht => absurd ht (htype t)⟩
  | unary span op e ih =>
    intro S σ σ' is v h hS hn hc
    obtain ⟨c1, x, σ1, c2, h1, h2, rfl⟩ := lowerExpr_unary h
    rw [Expr.findings] at hc
    obtain ⟨S1, hg1, hx, -⟩ := ih h1 hS hn hc.left
    obtain ⟨S', hg2, hv⟩ := unaryCode_grows sig h2 hg1.below hx
    refine ⟨S', hg1.append hg2, hv, fun t _ _ ht => ?_⟩
    rw [Expr.type?, Option.filter_eq_some_iff] at ht
    simp at ht
  | binary span op a b iha ihb =>
    intro S σ σ' is v h hS hn hc
    obtain ⟨c1, x, σ1, c2, y, σ2, h1, h2, rfl, rfl, rfl⟩ := lowerExpr_binary h
    rw [Expr.findings] at hc
    obtain ⟨S1, hg1, hx, -⟩ := iha h1 hS hn hc.left.left
    obtain ⟨S2, hg2, hy, -⟩ := ihb h2 (hg1.covers hS) hg1.below hc.left.right
    refine ⟨_, (hg1.append hg2).append (.define _ hg2.below (.binary (hx.mono hg2.sub) hy)),
      Value.usable_add rfl, ?_⟩
    intro t _ hnil ht
    rw [Expr.findings] at hnil
    have hboth := (append_eq_nil_iff.1 hnil).2
    rw [Expr.type?] at ht
    unfold Finding.unless at hboth
    split at hboth
    next hints =>
      rw [Bool.and_eq_true, decide_eq_true_eq, decide_eq_true_eq] at hints
      rw [hints.1, hints.2] at ht
      cases ht
    next => cases hboth
  | paren span e ih =>
    intro S σ σ' is v h hS hn hc
    rw [lowerExpr_paren] at h
    rw [Expr.findings] at hc
    obtain ⟨S', hg, hv, hpoints⟩ := ih h hS hn hc
    exact ⟨S', hg, hv, fun t hj hnil ht =>
      hpoints t hj (by rwa [Expr.findings] at hnil) (by rwa [Expr.type?] at ht)⟩

/-! ## Code that forgets addresses -/

/-- Straight code that is permitted and keeps the variables known. -/
structure Keeps (sig : Signatures) (S : Known) (n : Nat) (is : List Instr) (S' : Known) (n' : Nat) :
    Prop where
  code : Straight sig S n is S' n'
  /-- Variables that were known are known. -/
  sub : Known.Sub S.settled S'
  /-- Only what has been handed out is known. -/
  below : S'.Below n'

theorem Grows.keeps (h : Grows sig S n is S' n') : Keeps sig S n is S' n' :=
  ⟨h.code, (Known.settled_sub S).trans h.sub, h.below⟩

theorem Keeps.append (h : Keeps sig S n is S1 n1) (h' : Keeps sig S1 n1 is' S' n') :
    Keeps sig S n (is ++ is') S' n' :=
  ⟨h.code.append h'.code, h.sub.of_settled.trans h'.sub, h'.below⟩

/-! ## Declarations -/

theorem initialValue_grows {k : Option Int32} {item : Option Expr}
    (h : initialValue ctx k item σ = .ok ((is, v), σ')) (hS : Covers S ctx.symbols)
    (hn : S.Below σ.temps)
    (hc : ∀ e, item = some e → Checked sig.wants env ctx.symbols (e.findings env)) :
    ∃ S', Grows sig S σ.temps is S' σ'.temps ∧ v.Usable S' := by
  obtain ⟨n, -, rfl, rfl, rfl⟩ | ⟨e, -, rfl, he⟩ | ⟨-, -, rfl, rfl, rfl⟩ := initialValue_ok h
  · exact ⟨S, .nil hn, trivial⟩
  · obtain ⟨S', hg, hv, -⟩ := lowerExpr_grows e he hS hn (hc e rfl)
    exact ⟨S', hg, hv⟩
  · exact ⟨S, .nil hn, trivial⟩

theorem storeItems_grows {base : Value} {ks : Option (List Int32)}
    {items : List (Option Expr)} (h : storeItems ctx base ks i items σ = .ok (is, σ'))
    (hS : Covers S ctx.symbols) (hn : S.Below σ.temps) (hbase : base.Points S)
    (hc : ∀ e, some e ∈ items → Checked sig.wants env ctx.symbols (e.findings env)) :
    ∃ S', Grows sig S σ.temps is S' σ'.temps := by
  induction items generalizing S ks i σ is with
  | nil =>
    obtain ⟨rfl, rfl⟩ := storeItems_nil h
    exact ⟨S, .nil hn⟩
  | cons item items ih =>
    obtain ⟨c1, x, σ1, rest, h1, h2, rfl⟩ := storeItems_cons h
    obtain ⟨S1, hg1, hx⟩ := initialValue_grows h1 hS hn
      fun e he => hc e (he ▸ mem_cons_self)
    have hg2 : Grows sig S1 _ _ _ _ :=
      .define (.element base (.const (Int32.ofNat i))) hg1.below
        (.element (hbase.mono hg1.sub) (Value.usable_const))
    have htarget : (Value.temp σ1.temps).Points (S1.busy.add σ1.temps .pointer) :=
      .inl (Known.kinds_add_self _ _ _)
    have hg3 : Grows sig _ _ _ _ _ :=
      .perform (.store x (.temp σ1.temps)) hg2.below (.store htarget (hx.mono hg2.sub))
    have hg := hg1.append (hg2.append hg3)
    obtain ⟨S', hg'⟩ := ih h2 (hg.covers hS) hg.below (hbase.mono hg.sub)
      fun e he => hc e (mem_cons_of_mem _ he)
    exact ⟨S', hg.append hg'⟩

/-- What a definition declares, if nothing is wrong with it. -/
theorem judge_definition (h : (d.judge env).2 = []) :
    (d.judge env).1 = env.bind d.name.value d.type ∧
      ∀ i, d.init = some i → i.value.findings (d.judge env).1 = [] := by
  obtain ⟨-, henv, hinner⟩ := Definition.judge_iff.1 (TyEnv.eq_of_nil h)
  refine ⟨henv, fun i hi => ?_⟩
  rw [Definition.innerFindings, hi] at hinner
  exact (append_eq_nil_iff.1 (append_eq_nil_iff.1 hinner).2).1

/-- **The code of a definition knows what it reads**, and the variable that it
declares is known after it. -/
theorem lowerDefinition_keeps {symbols : Symbols}
    (h : lowerDefinition constant ctx d σ = .ok ((is, symbols), σ')) (hS : Covers S ctx.symbols)
    (hn : S.Below σ.temps) (hc : Checked sig.wants env ctx.symbols ((d.judge env).2 ++ fs)) :
    ∃ S', Keeps sig S σ.temps is S' σ'.temps ∧ Covers S' symbols ∧
      Checked sig.wants (d.judge env).1 symbols fs := by
  obtain ⟨dims, ks, hdims, -, h⟩ := lowerDefinition_ok h
  have hlen : d.type = .arrayOf .int dims.length := by rw [evalDims_length hdims]; rfl
  have hjudged : ∀ s, Suits s d.type →
      Checked sig.wants (d.judge env).1 (ctx.symbols.bind d.name.value s) ((d.judge env).2 ++ fs) := by
    intro s hs
    refine hc.imp fun hj hnil => ⟨?_, hnil⟩
    rw [(judge_definition (append_eq_nil_iff.1 hnil).1).1]
    exact hj.bind _ hs
  have hitem : ∀ s, Suits s d.type →
      ∀ e, some e ∈ (d.init.map fun i => layOut dims i.value).getD [] →
        Checked sig.wants (d.judge env).1 (ctx.symbols.bind d.name.value s)
          (e.findings (d.judge env).1) := by
    intro s hs e he
    cases hinit : d.init with
    | none =>
      rw [hinit] at he
      cases he
    | some i =>
      rw [hinit] at he
      exact (hjudged s hs).left.imp fun hj hnil =>
        ⟨hj, findings_of_mem_exprs _ ((judge_definition hnil).2 i hinit) e (mem_exprs_of_mem_layOut he)⟩
  obtain ⟨rfl, c, v, rfl, hinit, rfl⟩ | ⟨hne, -, c, rfl, hinit, rfl⟩ := h
  · -- a cell, which is stored to
    have hsuits : Suits (.scalar (.temp σ.temps) (ks.bind (·.head?))) d.type := hlen
    have hroom : Grows sig S σ.temps [⟨some σ.temps, .alloca⟩] (S.add σ.temps .cell) (σ.temps + 1) :=
      ⟨.result (.alloca rfl), .add_of_below hn (Nat.le_refl _) _, hn.add _⟩
    have hcovers := (hroom.covers hS).bind d.name.value
      (s := .scalar (.temp σ.temps) (ks.bind (·.head?))) (Known.kinds_add_self _ _ _)
    obtain ⟨S1, hg1, hv⟩ := initialValue_grows hinit hcovers hroom.below
      fun e he => hitem _ hsuits e (mem_of_join_head? he)
    have hcell : S1.kinds σ.temps = some .cell := hg1.sub (Known.kinds_add_self _ _ _)
    have hg2 : Grows sig S1 _ _ _ _ :=
      .perform (.store v (.temp σ.temps)) hg1.below (.storeCell hcell hv)
    exact ⟨_, ((hroom.append hg1).append hg2).keeps, (hg1.append hg2).covers hcovers,
      (hjudged _ hsuits).right⟩
  · -- an array, whose words are stored to
    have hsuits : Suits (.array (.address (.temp σ.temps)) dims ks) d.type := hlen
    have hroom : Keeps sig S σ.temps [⟨some σ.temps, .array (volume dims)⟩]
        (S.settled.add σ.temps (.object (volume dims))) (σ.temps + 1) :=
      ⟨.result (.array (volume_pos (evalDims_pos hdims))), .add_of_below hn.settled (Nat.le_refl _) _, hn.settled.add _⟩
    have hbase : (Value.temp σ.temps).Points
        (S.settled.add σ.temps (.object (volume dims))).settled :=
      .inr ⟨_, Known.kinds_settled.2 ⟨Known.kinds_add_self _ _ _, rfl⟩⟩
    have hcovers := (hS.mono hroom.sub).bind d.name.value
      (s := .array (.address (.temp σ.temps)) dims ks) hbase
    obtain ⟨S1, hg1⟩ := storeItems_grows hinit hcovers hroom.below (hbase.mono (Known.settled_sub _))
      (hitem _ hsuits)
    exact ⟨_, hroom.append hg1.keeps, hg1.covers hcovers, (hjudged _ hsuits).right⟩

theorem lowerDefinitions_keeps {ds : List Definition} {symbols : Symbols}
    (h : lowerDefinitions constant ctx ds σ = .ok ((is, symbols), σ')) (hS : Covers S ctx.symbols)
    (hn : S.Below σ.temps)
    (hc : Checked sig.wants env ctx.symbols ((TyEnv.judgeAll Definition.judge env ds).2 ++ fs)) :
    ∃ S', Keeps sig S σ.temps is S' σ'.temps ∧ Covers S' symbols ∧
      Checked sig.wants (TyEnv.judgeAll Definition.judge env ds).1 symbols fs := by
  induction ds generalizing ctx env S σ is with
  | nil =>
    obtain ⟨rfl, rfl, rfl⟩ := lowerDefinitions_nil h
    exact ⟨S, (Grows.nil hn).keeps, hS, hc⟩
  | cons d ds ih =>
    obtain ⟨c1, inner, σ1, c2, h1, h2, rfl⟩ := lowerDefinitions_cons h
    rw [TyEnv.judgeAll, append_assoc] at hc
    obtain ⟨S1, hk1, hS1, hc1⟩ := lowerDefinition_keeps h1 hS hn hc
    obtain ⟨S', hk2, hS', hc'⟩ := ih h2 hS1 hk1.below hc1
    exact ⟨S', hk1.append hk2, hS', hc'⟩

/-! ## Parameters -/

/-- What a parameter is in scope: a scalar, or an array that a cell points
to. -/
theorem parameterSymbol_ok {symbols : Symbols} {slot : Value}
    (h : parameterSymbol symbols slot p = .ok s) :
    Suits s p.type ∧ (p.array.isSome = false ∧ s = .scalar slot none ∨
      p.array.isSome = true ∧ ∃ dims, s = .array (.pointer slot) (0 :: dims) none) := by
  unfold parameterSymbol at h
  unfold Parameter.type
  cases harray : p.array with
  | none =>
    rw [harray] at h
    cases h
    exact ⟨rfl, .inl ⟨rfl, rfl⟩⟩
  | some es =>
    rw [harray] at h
    obtain ⟨dims, hdims, h⟩ := except_bind_ok.1 h
    cases h
    refine ⟨?_, .inr ⟨rfl, dims, rfl⟩⟩
    show Ty.arrayOf .int (es.length + 1) = .arrayOf .int (dims.length + 1)
    rw [evalDims_length hdims]

/-- A parameter is known by its cell. -/
theorem parameterSymbol_known {symbols : Symbols} {t : Temp}
    (h : parameterSymbol symbols (.temp t) p = .ok s)
    (ht : S.kinds t = some (.ofParameter p.array.isSome)) : SymbolKnown S s ∧ Suits s p.type := by
  obtain ⟨hsuits, ⟨harray, rfl⟩ | ⟨harray, dims, rfl⟩⟩ := parameterSymbol_ok h <;>
    exact ⟨by rwa [harray] at ht, hsuits⟩

/-- **The arguments are stored into cells before anything else is done.** -/
theorem lowerParameters_grows (sig : Signatures) {ps : List Parameter} {symbols inner : Symbols}
    (h : lowerParameters symbols i ps σ = .ok ((is, inner), σ'))
    (hS : Covers S symbols) (hn : S.Below σ.temps) (hargs : S.args = true)
    (hown : ∀ j p, ps[j]? = some p → sig.own[i + j]? = some p.array.isSome)
    (hc : Checked sig.wants env symbols ((TyEnv.judgeAll Parameter.judge env ps).2 ++ fs)) :
    ∃ S', Grows sig S σ.temps is S' σ'.temps ∧ Covers S' inner ∧
      Checked sig.wants (TyEnv.judgeAll Parameter.judge env ps).1 inner fs := by
  induction ps generalizing symbols env S i σ is with
  | nil =>
    obtain ⟨rfl, rfl, rfl⟩ := lowerParameters_nil h
    exact ⟨S, .nil hn, hS, hc⟩
  | cons p ps ih =>
    obtain ⟨s, rest, hs, h', rfl⟩ := lowerParameters_cons h
    rw [TyEnv.judgeAll, append_assoc] at hc
    obtain ⟨hknown, hsuits⟩ := parameterSymbol_known hs (Known.kinds_add_self S σ.temps _)
    have hcell : Grows sig S σ.temps [⟨some σ.temps, .alloca⟩, ⟨none, .store (.arg i) (.temp σ.temps)⟩]
        (S.add σ.temps (.ofParameter p.array.isSome)) (σ.temps + 1) := by
      refine ⟨.define (.alloca ?_) (.effect (.storeArg hargs (hown 0 p rfl)
        (Known.kinds_add_self ..))), .add_of_below hn (Nat.le_refl _) _, hn.add _⟩
      cases p.array.isSome <;> rfl
    have hrest : Checked sig.wants (p.judge env).1 (symbols.bind p.name.value s)
        ((TyEnv.judgeAll Parameter.judge (p.judge env).1 ps).2 ++ fs) := by
      refine hc.imp fun hj hnil => ?_
      obtain ⟨hhere, hlater⟩ := append_eq_nil_iff.1 hnil
      rw [(Parameter.judge_iff.1 (TyEnv.eq_of_nil hhere)).2.1] at hlater ⊢
      exact ⟨hj.bind _ hsuits, hlater⟩
    have hown' : ∀ j q, ps[j]? = some q → sig.own[i + 1 + j]? = some q.array.isSome := by
      intro j q hq
      rw [Nat.add_right_comm]
      exact hown (j + 1) q hq
    obtain ⟨S', hg, hS', hc'⟩ := ih h' ((hcell.covers hS).bind _ hknown) hcell.below hargs hown' hrest
    exact ⟨S', hcell.append hg, hS', hc'⟩

end SysY.Lower
