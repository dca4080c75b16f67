import SysY.Proofs.Grammar.Reads
import SysY.Proofs.Grammar.Sound

/-!
# Expressions, conditions and declarations are read

The spelling of a stratified expression, with tokens after it that do not go on
it, is read to its end, and the value is the expression up to places
(`reads_expr`); likewise a condition (`reads_cond`) and a declaration
(`reads_decl`), after which anything may stand.

The rules that nest descend on a counter. It is larger than the number of tokens
that are left, hence larger than the spelling, and a part that nests is spelled
by fewer tokens than the whole.
-/

namespace SysY

open List

/-! ## First tokens -/

/-- The tokens that an expression begins with. -/
def Token.startsExpr : Token → Bool
  | .ident _ | .number _ | .mark .openParen | .mark .plus | .mark .minus | .mark .not => true
  | _ => false

theorem Expr.spell_eq_cons : ∀ e : Expr, ∃ t ts, e.spell = t :: ts ∧ t.startsExpr = true
  | .number _ _ => ⟨_, _, rfl, rfl⟩
  | .lval _ _ _ => ⟨_, _, rfl, rfl⟩
  | .call _ _ _ => ⟨_, _, rfl, rfl⟩
  | .unary _ ⟨op, _⟩ _ => ⟨_, _, rfl, by cases op <;> rfl⟩
  | .binary _ op a b => by
    obtain ⟨t, ts, ha, ht⟩ := a.spell_eq_cons
    exact ⟨t, ts ++ op.token :: b.spell, by rw [Expr.spell, ha]; rfl, ht⟩
  | .paren _ _ => ⟨_, _, rfl, rfl⟩

theorem head_cons_ne {t u : Token} (h : t ≠ u) {k : List Token} : (t :: k).head? ≠ some u :=
  fun htu => h (Option.some.inj htu)

theorem Expr.head_ne (e : Expr) {t : Token} (ht : t.startsExpr = false) (k : List Token) :
    (e.spell ++ k).head? ≠ some t := by
  obtain ⟨u, us, he, hu⟩ := e.spell_eq_cons
  rw [he]
  refine head_cons_ne fun h => ?_
  rw [h, ht] at hu
  exact Bool.false_ne_true hu

theorem Expr.eraseAll_eq_map (es : List Expr) : Expr.eraseAll es = es.map Expr.erase := by
  induction es with
  | nil => rfl
  | cons e es ih => rw [Expr.eraseAll, ih, map_cons]

theorem InitVal.eraseAll_eq_map (is : List InitVal) :
    InitVal.eraseAll is = is.map InitVal.erase := by
  induction is with
  | nil => rfl
  | cons i is ih => rw [InitVal.eraseAll, ih, map_cons]

theorem InitVal.head_ne_closeBrace (i : InitVal) (k : List Token) :
    (i.spell ++ k).head? ≠ some (.mark .closeBrace) := by
  cases i with
  | expr e => exact e.head_ne rfl k
  | list s items => exact head_cons_ne (by decide)

theorem Ident.erase_congr {x y : Ident} (h : x.value = y.value) : x.erase = y.erase := by
  rw [Ident.erase, Ident.erase, h]

theorem length_lt_spellList (close : Mark) {x : List Token} {xs : List (List Token)} (h : x ∈ xs) :
    x.length < (spellList close xs).length := by
  cases xs with
  | nil => exact absurd h not_mem_nil
  | cons y ys =>
    rw [spellList, length_append, length_append, length_singleton]
    obtain rfl | hx := mem_cons.1 h
    · omega
    · have := (sublist_flatten_of_mem
        (mem_map_of_mem (f := (Token.mark .comma :: ·)) hx)).length_le
      rw [length_cons, ← flatMap_def] at this
      omega

variable {x : String} {n : Nat} {es : List Expr} {rest : List (Located Token)} {i : InitVal}

namespace Parser

variable {k : List Token} {r : Nat}

theorem atCall_of_openParen (h : rest.map (·.value) = .ident x :: .mark .openParen :: k) :
    atCall rest = true := by
  obtain ⟨⟨_, _⟩, _, rfl, rfl, h'⟩ := map_eq_cons_iff.1 h
  obtain ⟨⟨_, _⟩, _, rfl, rfl, -⟩ := map_eq_cons_iff.1 h'
  rfl

theorem atCall_eq_false (h : rest.map (·.value) = .ident x :: k)
    (hk : k.head? ≠ some (.mark .openParen)) : atCall rest = false := by
  unfold atCall
  split
  next =>
    cases h
    exact absurd rfl hk
  next => rfl

theorem splits_binary {op? : Token → Option BinOp}
    (hop : ∀ o : BinOp, o.rank = r + 1 → op? o.token = some o) (hr : 1 ≤ r) :
    Splits op? joinBinary Expr.spell Expr.erase (Expr.Fits r) (Expr.Fits (r + 1)) where
  split := by
    intro e he
    obtain hlt | heq := Nat.lt_or_eq_of_le he.2
    · exact .inl ⟨he.1, Nat.le_of_lt_succ hlt⟩
    cases e with
    | binary s op a b =>
      obtain ⟨ha, hb⟩ := (Expr.fits_binary heq).1 he
      exact .inr ⟨op.token, op, a, b, hop op heq, ha, hb, rfl, rfl⟩
    | unary s op e =>
      rw [Expr.rank] at heq
      omega
    | _ => exact absurd heq (Nat.succ_ne_zero r).symm
  join_congr := by
    intro o x x' y y' hx hy
    show Expr.binary default o _ _ = Expr.binary default o _ _
    rw [hx, hy]

theorem productOp?_token (o : BinOp) (h : o.rank = 2) : productOp? o.token = some o := by
  cases o <;> first | rfl | cases h

theorem sumOp?_token (o : BinOp) (h : o.rank = 3) : sumOp? o.token = some o := by
  cases o <;> first | rfl | cases h

section Expressions

variable {ex : Parser Expr} {m : Nat}
  (hex : ∀ e : Expr, e.stratified = true → e.spell.length < m → ∀ k, Stops 3 k →
    Reads ex (e.spell ++ k) (fun e' => e'.erase = e.erase) k)

include hex

variable {k : List Token} {e : Expr}

theorem reads_subscripts (hes : Expr.allStratified es = true)
    (hm : (spellSubscripts (Expr.spellAll es)).length ≤ m)
    (hk : k.head? ≠ some (.mark .openBracket)) :
    Reads (subscripts ex) (spellSubscripts (Expr.spellAll es) ++ k)
      (fun es' => Expr.eraseAll es' = Expr.eraseAll es) k := by
  rw [Expr.spellSubscripts_eq] at hm ⊢
  have hone (e : Expr) (he : e ∈ es) (k : List Token) (_ : True) :
      Reads (do let e ← ex; expect (.mark .closeBracket); return e)
        ((e.spell ++ [.mark .closeBracket]) ++ k) (fun e' => e'.erase = e.erase) k := by
    have hlength : e.spell.length < m := by
      have := (sublist_flatten_of_mem (mem_map_of_mem
        (f := fun e => Token.mark .openBracket :: (e.spell ++ [.mark .closeBracket])) he)).length_le
      rw [← flatMap_def, length_cons, length_append] at this
      omega
    rw [append_assoc]
    refine (hex e (Expr.allStratified_iff.1 hes e he).1 hlength _
      (stops_of_rank?_eq_none rfl)).bind fun e' he' => ?_
    exact reads_expect.bind fun _ _ => .pure he'
  refine reads_remaining.bind fun n hn => ?_
  have hlength : es.length ≤ n := by
    have := length_le_length_flatMap_cons
      (fun e : Expr => e.spell ++ [.mark .closeBracket]) (.mark .openBracket) es
    rw [hn, length_append]
    omega
  refine (reads_manyAfter hone (fun _ => trivial) trivial hk hlength).mono fun es' h => ?_
  rw [Expr.eraseAll_eq_map, Expr.eraseAll_eq_map, h]

theorem reads_lval (hes : Expr.allStratified es = true)
    (hm : (spellSubscripts (Expr.spellAll es)).length ≤ m)
    (hk : k.head? ≠ some (.mark .openBracket)) :
    Reads (lval ex) (.ident x :: (spellSubscripts (Expr.spellAll es) ++ k))
      (fun l => l.name.value = x ∧ Expr.eraseAll l.indices = Expr.eraseAll es) k := by
  refine reads_ident.bind fun y hy => ?_
  refine (reads_subscripts hex hes hm hk).bind fun es' hes' => ?_
  exact reads_spanFrom.bind fun _ _ => .pure ⟨hy, hes'⟩

theorem reads_call {s : Span} {f : Ident} {args : List Expr}
    (hargs : Expr.allStratified args = true)
    (hm : (spellList .closeParen (Expr.spellAll args)).length ≤ m) :
    Reads (call ex) ((Expr.call s f args).spell ++ k)
      (fun e => e.erase = (Expr.call s f args).erase) k := by
  rw [Expr.spell, Expr.spellAll_eq_map]
  rw [Expr.spellAll_eq_map] at hm
  refine reads_ident.bind fun g hg => ?_
  refine reads_expect.bind fun _ _ => ?_
  have hread (e : Expr) (he : e ∈ args) (k : List Token) (hk : Stops 3 k) :
      Reads ex (e.spell ++ k) (fun e' => e'.erase = e.erase) k :=
    hex e (Expr.allStratified_iff.1 hargs e he).1
      (Nat.lt_of_lt_of_le (length_lt_spellList _ (mem_map_of_mem he)) hm) k hk
  refine (reads_commaList hread (fun _ => stops_of_rank?_eq_none rfl)
    (fun _ => stops_of_rank?_eq_none rfl) (by decide)
    (fun e _ k => e.head_ne rfl k)).bind fun args' hargs' => ?_
  refine reads_spanFrom.bind fun _ _ => .pure ?_
  rw [Expr.erase, Expr.erase, Expr.eraseAll_eq_map, Expr.eraseAll_eq_map, hargs', Ident.erase, hg]
  rfl

theorem reads_primary (he : e.Fits 0) (hm : e.spell.length ≤ m)
    (hk : Stops 0 k) : Reads (primary ex) (e.spell ++ k) (fun e' => e'.erase = e.erase) k := by
  obtain ⟨hstratified, hrank⟩ := he
  refine reads_peekSpan.bind fun start _ => ?_
  refine reads_peek.bind fun o ho => ?_
  cases e with
  | number s text =>
    obtain rfl : o = some (.number text) := ho
    refine reads_next.bind fun _ _ => ?_
    exact reads_spanFrom.bind fun _ _ => .pure rfl
  | paren s e =>
    obtain rfl : o = some (.mark .openParen) := ho
    rw [Expr.spell, length_cons, length_append] at hm
    rw [Expr.spell, cons_append, append_assoc]
    refine reads_next.bind fun _ _ => ?_
    refine (hex e hstratified (by omega) _ (stops_of_rank?_eq_none rfl)).bind fun e' he' => ?_
    refine reads_expect.bind fun _ _ => ?_
    exact reads_spanFrom.bind fun _ _ => .pure (by rw [Expr.erase, Expr.erase, he'])
  | call s f args =>
    obtain rfl : o = some (.ident f.value) := ho
    refine reads_get.bind fun c hc => ?_
    rw [if_pos (atCall_of_openParen hc)]
    rw [Expr.spell, length_cons, length_cons] at hm
    exact reads_call hex hstratified (by omega)
  | lval s x es =>
    obtain rfl : o = some (.ident x.value) := ho
    rw [Expr.spell, cons_append]
    refine reads_get.bind fun c hc => ?_
    rw [Expr.spell, length_cons] at hm
    -- what follows the name is a subscript or what follows the expression
    have hhead : (spellSubscripts (Expr.spellAll es) ++ k).head? ≠ some (.mark .openParen) := by
      cases es with
      | nil => exact hk.head_ne rfl (Nat.le_refl 0)
      | cons e es => exact head_cons_ne (by decide)
    rw [if_neg (by rw [atCall_eq_false hc hhead]; exact Bool.false_ne_true)]
    refine (reads_lval hex hstratified (by omega) (hk.head_ne rfl (Nat.le_refl 0))).bind
      fun l hl => .pure ?_
    rw [Expr.erase, Expr.erase, Ident.erase, hl.1, hl.2]
    rfl
  | unary s op e => exact absurd hrank (Nat.not_succ_le_zero 0)
  | binary s op a b => exact absurd hrank (Nat.not_le.2 (Nat.lt_of_succ_lt op.one_lt_rank))

theorem reads_unary (he : e.Fits 1) (hm : e.spell.length ≤ m) (hk : Stops 1 k)
    (hn : e.spell.length ≤ n) :
    Reads (unary ex n) (e.spell ++ k) (fun e' => e'.erase = e.erase) k := by
  induction n generalizing e with
  | zero =>
    obtain ⟨t, ts, hspell, -⟩ := e.spell_eq_cons
    rw [hspell] at hn
    exact absurd hn (Nat.not_succ_le_zero _)
  | succ n ih =>
    refine reads_peek.bind fun o ho => ?_
    obtain hzero | hone := Nat.lt_or_eq_of_le he.2
    · -- no operator stands before a primary expression
      have hprimary : e.Fits 0 := ⟨he.1, Nat.le_of_lt_succ hzero⟩
      have hnone : o.bind unaryOp? = none := by
        rw [ho]
        cases e with
        | unary s op e => exact absurd hzero (Nat.lt_irrefl 1)
        | binary s op a b => exact absurd hzero (Nat.not_lt.2 (Nat.le_of_lt op.one_lt_rank))
        | _ => rfl
      rw [hnone]
      exact reads_primary hex hprimary hm (hk.mono (Nat.zero_le 1))
    · cases e with
      | unary s op e =>
        obtain ⟨op, at_⟩ := op
        rw [Expr.spell, length_cons] at hm hn
        obtain ⟨hrank, hstratified⟩ := (Bool.and_eq_true _ _).mp he.1
        obtain rfl : o = some op.token := ho
        rw [show (some op.token).bind unaryOp? = some op by cases op <;> rfl]
        refine reads_next.bind fun _ _ => ?_
        refine reads_lastSpan.bind fun start _ => ?_
        refine (ih ⟨hstratified, of_decide_eq_true hrank⟩ (by omega) (by omega)).bind
          fun e' he' => ?_
        exact reads_spanFrom.bind fun _ _ => .pure (by rw [Expr.erase, Expr.erase, he'])
      | binary s op a b => exact absurd hone (Nat.ne_of_gt op.one_lt_rank)
      | _ => exact absurd hone Nat.zero_ne_one

theorem reads_sum (he : e.stratified = true) (hm : e.spell.length ≤ m) (hk : Stops 3 k) :
    Reads (sum ex) (e.spell ++ k) (fun e' => e'.erase = e.erase) k := by
  -- sums of products of operands with operators before them
  refine reads_chain (fun h => BinOp.rank?_eq (sumOp?_eq_some h))
    (splits_binary sumOp?_token (by decide)) (fun a ha hm k hk => ?_) (Expr.fits_iff.2 he) hm hk
  refine reads_chain (fun h => BinOp.rank?_eq (productOp?_eq_some h))
    (splits_binary productOp?_token (by decide)) (fun a ha hm k hk => ?_) ha hm hk
  refine reads_remaining.bind fun n hn => ?_
  refine reads_unary hex ha hm hk ?_
  rw [hn, length_append]
  exact Nat.le_add_right _ _

end Expressions

theorem reads_exprWithin {e : Expr} (he : e.stratified = true) (hn : e.spell.length < n)
    (hk : Stops 3 k) : Reads (exprWithin n) (e.spell ++ k) (fun e' => e'.erase = e.erase) k := by
  induction n generalizing e k with
  | zero => exact absurd hn (Nat.not_lt_zero _)
  | succ n ih =>
    exact reads_sum (fun e he hlength k hk => ih he hlength hk) he (Nat.le_of_lt_succ hn) hk

/-- **An expression is read**, where nothing after it goes on one. -/
theorem reads_expr {e : Expr} (he : e.stratified = true) (hk : Stops 3 k) :
    Reads expr (e.spell ++ k) (fun e' => e'.erase = e.erase) k := by
  refine reads_remaining.bind fun n hn => ?_
  refine reads_exprWithin he ?_ hk
  rw [hn, length_append]
  omega

/-! ## Conditions -/

theorem splits_compare {op? : Token → Option CmpOp}
    (hop : ∀ o : CmpOp, o.rank = r + 1 → op? o.token = some o) (hr : 3 ≤ r ∧ r ≤ 4) :
    Splits op? joinCompare Cond.spell Cond.erase (Cond.Fits r) (Cond.Fits (r + 1)) where
  split := by
    intro c hc
    obtain hlt | heq := Nat.lt_or_eq_of_le hc.2
    · exact .inl ⟨hc.1, Nat.le_of_lt_succ hlt⟩
    cases c with
    | compare s op a b =>
      obtain ⟨ha, hb⟩ := (Cond.fits_compare heq).1 hc
      exact .inr ⟨op.token, op, a, b, hop op heq, ha, hb, rfl, rfl⟩
    | expr e =>
      rw [Cond.rank] at heq
      omega
    | logic s op a b =>
      have := op.five_lt_rank
      rw [Cond.rank] at heq
      omega
  join_congr := by
    intro o x x' y y' hx hy
    show Cond.compare default o _ _ = Cond.compare default o _ _
    rw [hx, hy]

theorem splits_logic {op? : Token → Option LogicOp}
    (hop : ∀ o : LogicOp, o.rank = r + 1 → op? o.token = some o) (hr : 5 ≤ r) :
    Splits op? joinLogic Cond.spell Cond.erase (Cond.Fits r) (Cond.Fits (r + 1)) where
  split := by
    intro c hc
    obtain hlt | heq := Nat.lt_or_eq_of_le hc.2
    · exact .inl ⟨hc.1, Nat.le_of_lt_succ hlt⟩
    cases c with
    | logic s op a b =>
      obtain ⟨ha, hb⟩ := (Cond.fits_logic heq).1 hc
      exact .inr ⟨op.token, op, a, b, hop op heq, ha, hb, rfl, rfl⟩
    | expr e =>
      rw [Cond.rank] at heq
      omega
    | compare s op a b =>
      have := op.rank_le
      rw [Cond.rank] at heq
      omega
  join_congr := by
    intro o x x' y y' hx hy
    show Cond.logic default o _ _ = Cond.logic default o _ _
    rw [hx, hy]

theorem relationalOp?_token (o : CmpOp) (h : o.rank = 4) : relationalOp? o.token = some o := by
  cases o <;> first | rfl | cases h

theorem equalityOp?_token (o : CmpOp) (h : o.rank = 5) : equalityOp? o.token = some o := by
  cases o <;> first | rfl | cases h

theorem logicOp?_token (op o : LogicOp) (h : o.rank = op.rank) :
    logicOp? op o.token = some o := by
  cases op <;> cases o <;> first | rfl | cases h

/-- **A condition is read**, where nothing after it goes on one. -/
theorem reads_cond {c : Cond} (hc : c.stratified = true) (hk : Stops 7 k) :
    Reads cond (c.spell ++ k) (fun c' => c'.erase = c.erase) k := by
  -- from the loosest operator to the tightest one, and then expressions
  refine reads_chain (fun h => LogicOp.rank?_eq (logicOp?_eq_some .or h))
    (splits_logic (logicOp?_token .or) (by decide)) (fun c hc hm k hk => ?_) (Cond.fits_iff.2 hc)
    (Nat.le_refl _) hk
  refine reads_chain (fun h => LogicOp.rank?_eq (logicOp?_eq_some .and h))
    (splits_logic (logicOp?_token .and) (by decide)) (fun c hc hm k hk => ?_) hc hm hk
  refine reads_chain (fun h => CmpOp.rank?_eq (equalityOp?_eq_some h))
    (splits_compare equalityOp?_token (by decide)) (fun c hc hm k hk => ?_) hc hm hk
  refine reads_chain (fun h => CmpOp.rank?_eq (relationalOp?_eq_some h))
    (splits_compare relationalOp?_token (by decide)) (fun c hc hm k hk => ?_) hc hm hk
  obtain ⟨hstratified, hrank⟩ := hc
  cases c with
  | expr e =>
    rw [map_eq_pure_bind]
    exact (reads_expr hstratified hk).bind fun e' he' => .pure (congrArg Cond.expr he')
  | compare s op a b => exact absurd hrank (Nat.not_le.2 op.three_lt_rank)
  | logic s op a b =>
    exact absurd hrank (Nat.not_le.2 (Nat.lt_of_succ_lt (Nat.lt_of_succ_lt op.five_lt_rank)))

/-! ## Declarations -/

theorem reads_initValWithin (hi : i.stratified = true) (hn : i.spell.length < n) (hk : Stops 3 k) :
    Reads (initValWithin n) (i.spell ++ k) (fun i' => i'.erase = i.erase) k := by
  induction n generalizing i k with
  | zero => exact absurd hn (Nat.not_lt_zero _)
  | succ n ih =>
    refine reads_peekSpan.bind fun start _ => ?_
    cases i with
    | expr e =>
      refine (reads_accept_ne (e.head_ne rfl k)).bind fun b hb => ?_
      subst hb
      exact (reads_expr hi hk).bind fun e' he' => .pure (congrArg InitVal.expr he')
    | list s items =>
      rw [InitVal.spell, InitVal.spellAll_eq_map, length_cons] at hn
      rw [InitVal.spell, InitVal.spellAll_eq_map, cons_append]
      refine reads_accept.bind fun b hb => ?_
      subst hb
      have hread (i : InitVal) (hmem : i ∈ items) (k : List Token) (hk : Stops 3 k) :
          Reads (initValWithin n) (i.spell ++ k) (fun i' => i'.erase = i.erase) k := by
        have := length_lt_spellList .closeBrace (mem_map_of_mem (f := InitVal.spell) hmem)
        exact ih (InitVal.allStratified_iff.1 hi i hmem) (by omega) hk
      refine (reads_commaList hread (fun _ => stops_of_rank?_eq_none rfl)
        (fun _ => stops_of_rank?_eq_none rfl) (by decide)
        (fun i _ k => i.head_ne_closeBrace k)).bind fun items' hitems => ?_
      refine reads_spanFrom.bind fun _ _ => .pure ?_
      rw [InitVal.erase, InitVal.erase, InitVal.eraseAll_eq_map, InitVal.eraseAll_eq_map, hitems]

theorem reads_initVal (hi : i.stratified = true) (hk : Stops 3 k) :
    Reads initVal (i.spell ++ k) (fun i' => i'.erase = i.erase) k := by
  refine reads_remaining.bind fun n hn => ?_
  refine reads_initValWithin hi ?_ hk
  rw [hn, length_append]
  omega

theorem reads_dims (hes : Expr.allStratified es = true) (hk : k.head? ≠ some (.mark .openBracket)) :
    Reads (subscripts expr) (spellSubscripts (Expr.spellAll es) ++ k)
      (fun es' => Expr.eraseAll es' = Expr.eraseAll es) k :=
  reads_subscripts (fun _ he _ _ hk => reads_expr he hk) hes (Nat.le_refl _) hk

/-- Nothing at the front of the tokens goes on a definition. -/
def AfterDefinition (k : List Token) : Prop := Stops 3 k ∧ k.head? ≠ some (.mark .assign)

theorem afterDefinition_comma (k : List Token) : AfterDefinition (.mark .comma :: k) :=
  ⟨stops_of_rank?_eq_none rfl, head_cons_ne (by decide)⟩

theorem afterDefinition_semicolon (k : List Token) : AfterDefinition (.mark .semicolon :: k) :=
  ⟨stops_of_rank?_eq_none rfl, head_cons_ne (by decide)⟩

theorem afterDefinition_others (ds : List Definition) (k : List Token) :
    AfterDefinition ((ds.flatMap fun d => .mark .comma :: d.spell) ++ (.mark .semicolon :: k)) := by
  cases ds with
  | nil => exact afterDefinition_semicolon k
  | cons d ds => exact afterDefinition_comma _

theorem reads_definition {d : Definition} (hd : d.stratified = true) (hk : AfterDefinition k) :
    Reads definition (d.spell ++ k) (fun d' => d'.erase = d.erase) k := by
  obtain ⟨x, dims, init⟩ := d
  obtain ⟨hdims, hinit⟩ := (Bool.and_eq_true _ _).mp hd
  rw [Definition.spell, cons_append, append_assoc]
  refine reads_ident.bind fun y hy => ?_
  cases init with
  | none =>
    refine (reads_dims hdims (hk.1.head_ne rfl (Nat.zero_le 3))).bind fun dims' hdims' => ?_
    refine (reads_accept_ne hk.2).bind fun b hb => ?_
    subst hb
    refine .pure ?_
    show Definition.mk _ _ _ = Definition.mk _ _ _
    rw [Ident.erase_congr hy, hdims']
  | some i =>
    obtain ⟨mark, value⟩ := i
    refine (reads_dims (k := .mark .assign :: (value.spell ++ k)) hdims
      (head_cons_ne (by decide))).bind fun dims' hdims' => ?_
    refine reads_accept.bind fun b hb => ?_
    subst hb
    refine reads_lastSpan.bind fun mark' _ => ?_
    refine (reads_initVal hinit hk.1).bind fun value' hvalue => .pure ?_
    show Definition.mk _ _ (some ⟨default, _⟩) = Definition.mk _ _ (some ⟨default, _⟩)
    rw [Ident.erase_congr hy, hdims', hvalue]

/-- **A declaration is read.** -/
theorem reads_decl {d : Decl} (hd : d.stratified = true) :
    Reads decl (d.spell ++ k) (fun d' => d'.erase = d.erase) k := by
  obtain ⟨constant, first, others⟩ := d
  obtain ⟨hfirst, hothers⟩ := forall_mem_cons.1 (all_eq_true.1 hd)
  have hconst : Reads (accept (.keyword .const)) ((Decl.mk constant first others).spell ++ k)
      (· = constant) (.keyword .int :: (first.spell ++
        ((others.flatMap fun d => .mark .comma :: d.spell) ++ (.mark .semicolon :: k)))) := by
    rw [Decl.spell]
    cases constant with
    | true =>
      simp only [if_true, cons_append, append_assoc]
      exact reads_accept
    | false =>
      simp only [Bool.false_eq_true, if_false, nil_append, cons_append, append_assoc]
      exact reads_accept_ne (head_cons_ne (by decide))
  refine hconst.bind fun b hb => ?_
  subst hb
  refine reads_expect.bind fun _ _ => ?_
  refine (reads_definition hfirst (afterDefinition_others others k)).bind fun first' hfirst' => ?_
  refine reads_remaining.bind fun n hn => ?_
  have hlength : others.length ≤ n := by
    have := length_le_length_flatMap_cons Definition.spell (.mark .comma) others
    rw [hn, length_append]
    omega
  refine (reads_manyAfter (fun d hmem k hk => reads_definition (hothers d hmem) hk)
    afterDefinition_comma (afterDefinition_semicolon k) (head_cons_ne (by decide)) hlength).bind
    fun others' hothers' => ?_
  refine reads_expect.bind fun _ _ => .pure ?_
  rw [Decl.erase, Decl.erase, hfirst', hothers']

end Parser

end SysY
