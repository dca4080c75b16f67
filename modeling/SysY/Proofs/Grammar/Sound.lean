import SysY.Proofs.Grammar.Takes

/-!
# The parser loses and invents nothing

`Program.spell_of_parse`: the program that is parsed from tokens is spelled by
exactly these tokens, and has the shape of its spelling.

There is one statement for each rule of the grammar: the outline of its value is
exact on what it takes, and the value binds as tight as the rule reads it. What
the tokens left have to do with it shows at two places. After a statement that
ends in an `if` without `else` there is no `else` left, and after a program there
is nothing left.
-/

namespace SysY

open List

variable {t : Token} {r : Nat} {o : CmpOp}

namespace Parser

/-! ## Expressions -/

theorem productOp?_eq_some {o : BinOp} (h : productOp? t = some o) : t = o.token ∧ o.rank = 2 := by
  unfold productOp? at h
  split at h <;> cases h <;> exact ⟨rfl, rfl⟩

theorem sumOp?_eq_some {o : BinOp} (h : sumOp? t = some o) : t = o.token ∧ o.rank = 3 := by
  unfold sumOp? at h
  split at h <;> cases h <;> exact ⟨rfl, rfl⟩

theorem unaryOp?_eq_some {o : UnaryOp} (h : unaryOp? t = some o) : t = o.token := by
  unfold unaryOp? at h
  split at h <;> cases h <;> rfl

theorem joins_binary {op? : Token → Option BinOp}
    (hop : ∀ {t o}, op? t = some o → t = o.token ∧ o.rank = r + 1) :
    Joins op? joinBinary Expr.outline (Expr.Fits r) (Expr.Fits (r + 1)) where
  exact_join := by
    intro t o ho a b ts us ha hb
    refine Expr.exact_outline ((Expr.covers_of_exact ha).join (Expr.covers_of_exact hb) [t]) ?_
    exact ha.append (.append (.of_value (hop ho).1) hb)
  high_join := fun ho _ _ ha hb => (Expr.fits_binary (hop ho).2).2 ⟨ha, hb⟩
  high_of_low := fun h => h.mono (Nat.le_succ r)

section Expressions

variable {ex : Parser Expr} (hex : ∀ c, Consumes ex c (Outlined Expr.outline (Expr.Fits 3)))

include hex

theorem consumes_subscripts (c : Cursor) :
    Consumes (subscripts ex) c (Outlined (fun es => .subscripts (Expr.outlines es))
      fun es => Expr.allStratified es = true) := by
  have hone (c : Cursor) :
      Consumes (do let e ← ex; expect (.mark .closeBracket); return e) c
        (Outlined (fun e => e.outline ++ .single (.mark .closeBracket)) (Expr.Fits 3)) := by
    refine (hex c).bind fun e ts c1 _ he => consumes_expect.map fun _ us _ hus => ?_
    obtain ⟨s, rfl⟩ := hus
    exact ⟨he.1.append (.single ⟨_, s⟩), he.2⟩
  refine consumes_remaining.look fun n _ => ?_
  refine (consumes_manyAfter hone _ n c).mono fun es ts _ h => ?_
  refine ⟨?_, Expr.allStratified_iff.2 h.2⟩
  show (Outline.subscripts (Expr.outlines es)).Exact ts
  rw [Outline.subscripts, Expr.outlines_eq_map, map_map]
  exact h.1

theorem consumes_lval (c : Cursor) :
    Consumes (lval ex) c (Outlined LVal.outline fun l => Expr.allStratified l.indices = true) := by
  refine consumes_ident.bind fun x ts c1 h1 hx => ?_
  subst hx
  refine (consumes_subscripts hex c1).bind fun es us c2 h2 hes => ?_
  refine consumes_spanFrom.look fun s hs => .pure ⟨?_, hes.2⟩
  rw [append_nil]
  refine LVal.exact_outline ?_ ((Ident.exact_outline x).append hes.1)
  exact hs ▸ (h1.trans h2).covers

theorem consumes_call (c : Cursor) :
    Consumes (call ex) c (Outlined Expr.outline (Expr.Fits 0)) := by
  refine consumes_ident.bind fun f ts c1 h1 hf => ?_
  subst hf
  refine consumes_expect.bind fun _ us c2 h2 hus => ?_
  obtain ⟨s, rfl⟩ := hus
  refine (consumes_commaList hex _ c2).bind fun args vs c3 h3 hargs => ?_
  refine consumes_spanFrom.look fun s' hs' => ?_
  refine .pure ⟨?_, Expr.allStratified_iff.2 hargs.2, Nat.le_refl 0⟩
  rw [append_nil]
  refine Expr.exact_outline (hs' ▸ (h1.trans (h2.trans h3)).covers) ?_
  refine (Ident.exact_outline f).append (.append (.single ⟨_, s⟩) ?_)
  rw [Expr.outlines_eq_map]
  exact hargs.1

theorem consumes_primary (c : Cursor) :
    Consumes (primary ex) c (Outlined Expr.outline (Expr.Fits 0)) := by
  refine consumes_peekSpan.look fun start hstart => ?_
  refine consumes_peek.look fun o ho => ?_
  split
  next =>
    -- a parenthesis
    refine consumes_next.bind fun t ts c1 h1 hts => ?_
    subst hts
    rw [h1.head?] at hstart
    rw [h1.tokens] at ho
    refine (hex c1).bind fun e us c2 h2 he => ?_
    refine consumes_expect.bind fun _ vs c3 h3 hvs => ?_
    obtain ⟨s, rfl⟩ := hvs
    refine consumes_spanFrom.look fun s' hs' => .pure ⟨?_, he.2.1, Nat.le_refl 0⟩
    rw [append_nil]
    refine Expr.exact_outline ?_ (.append (.of_value (Option.some.inj ho).symm)
      (he.1.append (.single ⟨_, s⟩)))
    rw [hs', hstart]
    exact (h1.trans (h2.trans h3)).covers
  next text =>
    -- a literal
    refine consumes_next.bind fun t ts c1 h1 hts => ?_
    subst hts
    rw [h1.head?] at hstart
    rw [h1.tokens] at ho
    refine consumes_spanFrom.look fun s hs => .pure ⟨?_, rfl, Nat.le_refl 0⟩
    rw [append_nil]
    refine Expr.exact_outline ?_ (.of_value (Option.some.inj ho).symm)
    rw [hs, hstart]
    exact h1.covers
  next =>
    -- a name
    refine consumes_get.look fun _ _ => ?_
    split
    next => exact consumes_call hex c
    next =>
      refine (consumes_lval hex c).map fun l ts _ hl => ⟨?_, hl.2, Nat.le_refl 0⟩
      exact Expr.exact_outline hl.1.of_enclose.1.2 hl.1.of_enclose.2
  next => exact consumes_next.bind fun _ _ _ _ _ => .fail

theorem consumes_unary (n : Nat) (c : Cursor) :
    Consumes (unary ex n) c (Outlined Expr.outline (Expr.Fits 1)) := by
  have hprimary (c : Cursor) : Consumes (primary ex) c (Outlined Expr.outline (Expr.Fits 1)) :=
    (consumes_primary hex c).mono fun e ts _ h => ⟨h.1, h.2.mono (Nat.zero_le 1)⟩
  induction n generalizing c with
  | zero => exact hprimary c
  | succ n ih =>
    refine consumes_peek.look fun o ho => ?_
    split
    next op hop =>
      refine consumes_next.bind fun t ts c1 h1 hts => ?_
      subst hts
      rw [ho, h1.tokens] at hop
      refine consumes_lastSpan.look fun start hstart => ?_
      obtain rfl : start = t.span := hstart.trans h1.2
      refine (ih c1).bind fun e us c2 h2 he => ?_
      obtain ⟨hexact, hstratified, hrank⟩ := he
      refine consumes_spanFrom.look fun s hs => .pure ⟨?_, ?_, Nat.le_refl 1⟩
      · rw [append_nil]
        refine Expr.exact_outline (hs ▸ (h1.trans h2).covers) (.append ?_ hexact)
        exact .leaf (congrArg (fun x => [x]) (unaryOp?_eq_some hop).symm) rfl
      · simp [Expr.stratified, hstratified, hrank]
    next => exact hprimary c

theorem consumes_sum (c : Cursor) :
    Consumes (sum ex) c (Outlined Expr.outline (Expr.Fits 3)) := by
  refine consumes_chain (joins_binary sumOp?_eq_some) (fun c => ?_) c
  refine consumes_chain (joins_binary productOp?_eq_some) (fun c => ?_) c
  exact consumes_remaining.look fun n _ => consumes_unary hex n c

end Expressions

theorem consumes_exprWithin (n : Nat) (c : Cursor) :
    Consumes (exprWithin n) c (Outlined Expr.outline (Expr.Fits 3)) := by
  induction n generalizing c with
  | zero => exact .fail
  | succ n ih => exact consumes_sum ih c

/-- **An expression is outlined by what is taken for it.** -/
theorem consumes_expr (c : Cursor) : Consumes expr c (Outlined Expr.outline (Expr.Fits 3)) :=
  consumes_remaining.look fun n _ => consumes_exprWithin (n + 1) c

/-! ## Conditions -/

theorem relationalOp?_eq_some (h : relationalOp? t = some o) : t = o.token ∧ o.rank = 4 := by
  unfold relationalOp? at h
  split at h <;> cases h <;> exact ⟨rfl, rfl⟩

theorem equalityOp?_eq_some (h : equalityOp? t = some o) : t = o.token ∧ o.rank = 5 := by
  unfold equalityOp? at h
  split at h <;> cases h <;> exact ⟨rfl, rfl⟩

theorem logicOp?_eq_some (op : LogicOp) {o : LogicOp} (h : logicOp? op t = some o) :
    t = o.token ∧ o.rank = op.rank := by
  unfold logicOp? at h
  split at h <;> cases h <;> exact ⟨rfl, rfl⟩

theorem joins_compare {op? : Token → Option CmpOp}
    (hop : ∀ {t o}, op? t = some o → t = o.token ∧ o.rank = r + 1) :
    Joins op? joinCompare Cond.outline (Cond.Fits r) (Cond.Fits (r + 1)) where
  exact_join := by
    intro t o ho a b ts us ha hb
    refine Cond.exact_outline ((Cond.covers_of_exact ha).join (Cond.covers_of_exact hb) [t]) ?_
    exact ha.append (.append (.of_value (hop ho).1) hb)
  high_join := fun ho _ _ ha hb => (Cond.fits_compare (hop ho).2).2 ⟨ha, hb⟩
  high_of_low := fun h => h.mono (Nat.le_succ r)

theorem joins_logic {op? : Token → Option LogicOp}
    (hop : ∀ {t o}, op? t = some o → t = o.token ∧ o.rank = r + 1) :
    Joins op? joinLogic Cond.outline (Cond.Fits r) (Cond.Fits (r + 1)) where
  exact_join := by
    intro t o ho a b ts us ha hb
    refine Cond.exact_outline ((Cond.covers_of_exact ha).join (Cond.covers_of_exact hb) [t]) ?_
    exact ha.append (.append (.of_value (hop ho).1) hb)
  high_join := fun ho _ _ ha hb => (Cond.fits_logic (hop ho).2).2 ⟨ha, hb⟩
  high_of_low := fun h => h.mono (Nat.le_succ r)

/-- **A condition is outlined by what is taken for it.** -/
theorem consumes_cond (c : Cursor) :
    Consumes cond c (Outlined Cond.outline fun c => c.stratified = true) := by
  -- each level is a chain of what the level below takes, and the lowest are expressions
  have hexpr (c : Cursor) :
      Consumes (Cond.expr <$> expr) c (Outlined Cond.outline (Cond.Fits 3)) := by
    rw [map_eq_pure_bind]
    refine (consumes_expr c).map fun e ts _ he => ⟨?_, he.2.1, Nat.le_refl 3⟩
    exact Cond.exact_outline (Expr.covers_of_exact he.1) he.1
  have hrelational (c : Cursor) := consumes_chain (joins_compare relationalOp?_eq_some) hexpr c
  have hequality (c : Cursor) := consumes_chain (joins_compare equalityOp?_eq_some) hrelational c
  have hconjunction (c : Cursor) := consumes_chain (joins_logic (logicOp?_eq_some .and))
    hequality c
  have hcond := consumes_chain (joins_logic (logicOp?_eq_some .or)) hconjunction c
  exact hcond.mono fun c ts _ h => ⟨h.1, h.2.1⟩

/-! ## Declarations -/

theorem consumes_initValWithin (n : Nat) (c : Cursor) :
    Consumes (initValWithin n) c (Outlined InitVal.outline fun i => i.stratified = true) := by
  induction n generalizing c with
  | zero => exact .fail
  | succ n ih =>
    refine consumes_peekSpan.look fun start hstart => ?_
    refine (consumes_accept _).bind fun b ts c1 h1 hb => ?_
    cases b with
    | true =>
      obtain ⟨s, rfl⟩ : ∃ s, ts = [⟨.mark .openBrace, s⟩] := hb
      rw [h1.head?] at hstart
      refine (consumes_commaList ih _ c1).bind fun items us c2 h2 hitems => ?_
      refine consumes_spanFrom.look fun s' hs' => ?_
      refine .pure ⟨?_, InitVal.allStratified_iff.2 hitems.2⟩
      rw [append_nil]
      refine InitVal.exact_outline ?_ (.append (.single ⟨_, s⟩) ?_)
      · rw [hs', hstart]
        exact (h1.trans h2).covers
      · rw [InitVal.outlines_eq_map]
        exact hitems.1
    | false =>
      obtain ⟨rfl, -⟩ := hb
      refine (consumes_expr c1).map fun e us _ he => ⟨?_, he.2.1⟩
      exact InitVal.exact_outline (Expr.covers_of_exact he.1) he.1

theorem consumes_initVal (c : Cursor) :
    Consumes initVal c (Outlined InitVal.outline fun i => i.stratified = true) :=
  consumes_remaining.look fun n _ => consumes_initValWithin (n + 1) c

theorem consumes_definition (c : Cursor) :
    Consumes definition c (Outlined Definition.outline fun d => d.stratified = true) := by
  refine consumes_ident.bind fun x ts c1 _ hx => ?_
  subst hx
  refine (consumes_subscripts consumes_expr c1).bind fun dims us c2 _ hdims => ?_
  obtain ⟨hexact, hdims⟩ := hdims
  refine (consumes_accept _).bind fun b vs c3 h3 hb => ?_
  cases b with
  | true =>
    obtain ⟨s, rfl⟩ : ∃ s, vs = [⟨.mark .assign, s⟩] := hb
    refine consumes_lastSpan.look fun mark hmark => ?_
    obtain rfl : mark = s := hmark.trans h3.2
    refine (consumes_initVal c3).map fun i ws _ hi => ⟨?_, ?_⟩
    · exact (Ident.exact_outline x).append (hexact.append (.append (.leaf rfl rfl) hi.1))
    · simp [Definition.stratified, hdims, hi.2]
  | false =>
    obtain ⟨rfl, -⟩ := hb
    refine .pure ⟨(Ident.exact_outline x).append (hexact.append .nil), ?_⟩
    simp [Definition.stratified, hdims]

/-- **A declaration is outlined by what is taken for it.** -/
theorem consumes_decl (c : Cursor) :
    Consumes decl c (Outlined Decl.outline fun d => d.stratified = true) := by
  refine (consumes_accept _).bind fun constant ts c1 _ hconstant => ?_
  have hts : (if constant then .single (.keyword .const) else .nil : Outline).Exact ts := by
    cases constant with
    | true =>
      obtain ⟨s, rfl⟩ : ∃ s, ts = [⟨.keyword .const, s⟩] := hconstant
      exact .single ⟨_, s⟩
    | false =>
      obtain ⟨rfl, -⟩ := hconstant
      exact .nil
  refine consumes_expect.bind fun _ us c2 _ hus => ?_
  obtain ⟨s, rfl⟩ := hus
  refine (consumes_definition c2).bind fun first vs c3 _ hfirst => ?_
  refine consumes_remaining.look fun n _ => ?_
  refine (consumes_manyAfter consumes_definition _ n c3).bind fun others ws c4 _ hothers => ?_
  refine consumes_expect.map fun _ xs _ hxs => ?_
  obtain ⟨s', rfl⟩ := hxs
  refine ⟨?_, all_eq_true.2 (forall_mem_cons.2 ⟨hfirst.2, hothers.2⟩)⟩
  exact hts.append (.append (.single ⟨_, s⟩)
    (hfirst.1.append (hothers.1.append (.single ⟨_, s'⟩))))

/-! ## Statements -/

theorem consumes_assignment (c : Cursor) :
    Consumes assignment c (Outlined (fun q => q.1.outline ++ .leaf (.assignMark q.2))
      fun q => Expr.allStratified q.1.indices = true) := by
  refine (consumes_lval consumes_expr c).bind fun l ts c1 _ hl => ?_
  refine consumes_expect.bind fun _ us c2 h2 hus => ?_
  obtain ⟨s, rfl⟩ := hus
  refine consumes_lastSpan.look fun mark hmark => .pure ⟨?_, hl.2⟩
  obtain rfl : mark = s := hmark.trans h2.2
  exact hl.1.append (.leaf rfl rfl)

/-- What is said of a statement: its outline is exact on the tokens taken, and no
`else` follows that would belong to it. -/
def StmtTaken (s : Stmt) (taken : List (Located Token)) (left : List Token) : Prop :=
  s.outline.Exact taken ∧ s.stratified = true ∧
    (s.endsOpen = true → left.head? ≠ some (.keyword .else_))

theorem consumes_exprStatement (c : Cursor) : Consumes exprStatement c StmtTaken := by
  refine (consumes_accept _).bind fun b ts c1 _ hb => ?_
  cases b with
  | true =>
    obtain ⟨s, rfl⟩ : ∃ s, ts = [⟨.mark .semicolon, s⟩] := hb
    exact .pure ⟨.single ⟨_, s⟩, rfl, fun h => absurd h Bool.false_ne_true⟩
  | false =>
    obtain ⟨rfl, -⟩ := hb
    refine (consumes_expr c1).bind fun e us c2 _ he => consumes_expect.map fun _ vs _ hvs => ?_
    obtain ⟨s, rfl⟩ := hvs
    exact ⟨he.1.append (.single ⟨_, s⟩), he.2.1, fun h => absurd h Bool.false_ne_true⟩

theorem consumes_assignOrExpr (c : Cursor) : Consumes assignOrExpr c StmtTaken := by
  refine (consumes_attempt (consumes_assignment c)).bind fun o ts c1 _ ho => ?_
  cases o with
  | some q =>
    obtain ⟨target, mark⟩ := q
    obtain ⟨hexact, htarget⟩ := ho
    refine (consumes_expr c1).bind fun e us c2 _ he => consumes_expect.map fun _ vs _ hvs => ?_
    obtain ⟨s, rfl⟩ := hvs
    refine ⟨?_, ?_, fun h => absurd h Bool.false_ne_true⟩
    · rw [Stmt.outline, ← Outline.append_assoc]
      exact hexact.append (he.1.append (.single ⟨_, s⟩))
    · exact (Bool.and_eq_true _ _).mpr ⟨htarget, he.2.1⟩
  | none =>
    obtain rfl : ts = [] := ho
    exact consumes_exprStatement c1

theorem consumes_returnValue (c : Cursor) :
    Consumes returnValue c
      (Outlined (·.elim .nil Expr.outline) (·.all Expr.stratified = true)) := by
  refine consumes_peek.look fun o _ => ?_
  split
  next => exact .pure ⟨.nil, rfl⟩
  next => exact (consumes_expr c).map fun e ts _ he => ⟨he.1, he.2.1⟩

/-- A statement that is a keyword. -/
theorem consumes_jump {jump : Span → Stmt} {w : Keyword} {c : Cursor}
    (houtline : ∀ s, (jump s).outline = .leaf (.keyword w s) ++ .single (.mark .semicolon))
    (hstratified : ∀ s, (jump s).stratified = true) (hopen : ∀ s, (jump s).endsOpen = false)
    (hhead : c.tokens.head? = some (.keyword w)) :
    Consumes (do let keyword ← next; expect (.mark .semicolon); return jump keyword.span) c
      StmtTaken := by
  refine consumes_next.bind fun t ts c1 h1 hts => consumes_expect.map fun _ us _ hus => ?_
  subst hts
  obtain ⟨s, rfl⟩ := hus
  rw [h1.tokens] at hhead
  have ht : t.value = .keyword w := Option.some.inj hhead
  refine ⟨?_, hstratified t.span, fun h => absurd ((hopen t.span).symm.trans h) (by decide)⟩
  rw [houtline]
  exact .append (.leaf (congrArg (fun x => [x]) ht.symm) rfl) (.single ⟨_, s⟩)

/-- Where a branch that ends open is followed by no `else`, it has no
alternatives. -/
theorem isDone_or_closed {s : Stmt} {o : Otherwise} {input : List Token}
    (hs : s.endsOpen = true → input.head? ≠ some (.keyword .else_))
    (ho : input.head? ≠ some (.keyword .else_) → o.isDone = true) :
    o.isDone = true ∨ s.endsOpen = false := by
  cases h : s.endsOpen with
  | false => exact .inr rfl
  | true => exact .inl (ho (hs h))

section Statements

variable {st : Parser Stmt} (hst : ∀ c, Consumes st c StmtTaken)

include hst

theorem consumes_guarded (w : Keyword) (c : Cursor) :
    Consumes (guarded w st) c fun q ts k =>
      (q.1.outlineGuard w ++ q.2.outline).Exact ts ∧ q.1.stratified = true ∧
        q.2.stratified = true ∧ (q.2.endsOpen = true → k.head? ≠ some (.keyword .else_)) := by
  refine consumes_expect.bind fun _ ts c1 _ hts => ?_
  refine consumes_expect.bind fun _ us c2 _ hus => ?_
  refine (consumes_cond c2).bind fun q vs c3 _ hq => ?_
  refine consumes_expect.bind fun _ ws c4 _ hws => ?_
  refine (hst c4).map fun s body _ hs => ⟨?_, hq.2, hs.2⟩
  obtain ⟨s1, rfl⟩ := hts
  obtain ⟨s2, rfl⟩ := hus
  obtain ⟨s3, rfl⟩ := hws
  simp only [Cond.outlineGuard, Outline.append_assoc]
  exact .append (.single ⟨_, s1⟩) (.append (.single ⟨_, s2⟩)
    (hq.1.append (.append (.single ⟨_, s3⟩) hs.1)))

theorem consumes_blockRest (n : Nat) (c : Cursor) :
    Consumes (blockRest st n) c (Outlined Block.outline fun b => b.stratified = true) := by
  induction n generalizing c with
  | zero => exact .fail
  | succ n ih =>
    refine (consumes_accept _).bind fun closed ts c1 _ hclosed => ?_
    cases closed with
    | true =>
      obtain ⟨s, rfl⟩ : ∃ s, ts = [⟨.mark .closeBrace, s⟩] := hclosed
      exact .pure ⟨.single ⟨_, s⟩, rfl⟩
    | false =>
      obtain ⟨rfl, -⟩ := hclosed
      have hdecl : Consumes (do let d ← decl; return .decl d (← blockRest st n)) c1
          (Outlined Block.outline fun b => b.stratified = true) :=
        (consumes_decl c1).bind fun d us c2 _ hd => (ih c2).map fun b vs _ hb =>
          ⟨hd.1.append hb.1, (Bool.and_eq_true _ _).mpr ⟨hd.2, hb.2⟩⟩
      refine consumes_peek.look fun o _ => ?_
      split
      · exact hdecl
      · exact hdecl
      · exact (hst c1).bind fun s us c2 _ hs => (ih c2).map fun b vs _ hb =>
          ⟨hs.1.append hb.1, (Bool.and_eq_true _ _).mpr ⟨hs.2.1, hb.2⟩⟩

theorem consumes_blockOf (c : Cursor) :
    Consumes (blockOf st) c (Outlined (fun b => .single (.mark .openBrace) ++ b.outline)
      fun b => b.stratified = true) := by
  refine consumes_expect.bind fun _ ts c1 _ hts => ?_
  obtain ⟨s, rfl⟩ := hts
  refine consumes_remaining.look fun n _ => ?_
  exact (consumes_blockRest hst (n + 1) c1).mono fun b us _ hb =>
    ⟨.append (.single ⟨_, s⟩) hb.1, hb.2⟩

/-- **What follows the first branch of an `if`.** Nothing is read only where no
`else` stands: the counter does not end the chain, since each turn takes a
token. -/
theorem consumes_otherwise (n : Nat) (c : Cursor) (hn : c.tokens.length ≤ n) :
    Consumes (otherwise st n) c fun o ts k => o.outline.Exact ts ∧ o.stratified = true ∧
      (o.endsOpen = true → k.head? ≠ some (.keyword .else_)) ∧
      (c.tokens.head? ≠ some (.keyword .else_) → o.isDone = true) := by
  induction n generalizing c with
  | zero =>
    have hnil : c.tokens = [] := length_eq_zero_iff.1 (Nat.le_zero.1 hn)
    refine .pure ⟨.nil, rfl, fun _ => ?_, fun _ => rfl⟩
    rw [hnil]
    exact (Option.some_ne_none _).symm
  | succ n ih =>
    refine (consumes_accept _).bind fun b ts c1 h1 hb => ?_
    cases b with
    | false =>
      obtain ⟨rfl, hhead⟩ := hb
      cases h1.eq_of_nil
      exact .pure ⟨.nil, rfl, fun _ => hhead, fun _ => rfl⟩
    | true =>
      obtain ⟨s, rfl⟩ : ∃ s, ts = [⟨.keyword .else_, s⟩] := hb
      have helse : c.tokens.head? = some (.keyword .else_) := by rw [h1.tokens]; rfl
      refine consumes_peek.look fun o ho => ?_
      split
      next =>
        refine (consumes_guarded hst .if_ c1).bind fun q us c2 h2 hq => ?_
        obtain ⟨cond, body⟩ := q
        obtain ⟨hexact, hcond, hbody, hopen⟩ := hq
        -- a turn takes the `else`, so that the counter still covers what is left
        have hc2 : c2.tokens.length ≤ n := by
          rw [h1.tokens, h2.tokens] at hn
          simp only [length_append, length_map, length_cons] at hn
          omega
        refine (ih c2 hc2).map fun rest vs _ hrest => ?_
        obtain ⟨hrestExact, hrest, hends, hdone⟩ := hrest
        refine ⟨.append (.single ⟨_, s⟩) ?_, ?_, hends, fun h => absurd helse h⟩
        · rw [← Outline.append_assoc]
          exact hexact.append hrestExact
        · simp only [Otherwise.stratified, Bool.and_eq_true, Bool.or_eq_true, Bool.not_eq_true']
          exact ⟨⟨⟨hcond, hbody⟩, isDone_or_closed hopen hdone⟩, hrest⟩
      next hif =>
        refine (hst c1).bind fun body us c2 h2 hbody => .pure ?_
        rw [append_nil]
        obtain ⟨hexact, hbody, hopen⟩ := hbody
        refine ⟨.append (.single ⟨_, s⟩) hexact, ?_, hopen, fun h => absurd helse h⟩
        rw [ho, h2.tokens, hexact.map_value, Stmt.tokens_outline] at hif
        simp only [Otherwise.stratified, Bool.and_eq_true, Bool.not_eq_true']
        exact ⟨hbody, Stmt.isIf_eq_false hif⟩

end Statements

theorem consumes_statementWithin (n : Nat) (c : Cursor) :
    Consumes (statementWithin n) c StmtTaken := by
  induction n generalizing c with
  | zero => exact .fail
  | succ n ih =>
    refine consumes_peek.look fun o ho => ?_
    split
    next =>
      exact (consumes_blockOf ih c).map fun b ts _ hb =>
        ⟨hb.1, hb.2, fun h => absurd h Bool.false_ne_true⟩
    next =>
      refine (consumes_guarded ih .if_ c).bind fun q ts c1 _ hq => ?_
      obtain ⟨cond, body⟩ := q
      obtain ⟨hexact, hcond, hbody, hopen⟩ := hq
      refine consumes_remaining.look fun m hm => ?_
      refine (consumes_otherwise ih m c1 (Nat.le_of_eq hm.symm)).map fun rest us _ hrest => ?_
      obtain ⟨hrestExact, hrest, hends, hdone⟩ := hrest
      refine ⟨?_, ?_, hends⟩
      · rw [Stmt.outline, ← Outline.append_assoc]
        exact hexact.append hrestExact
      · simp only [Stmt.stratified, Bool.and_eq_true, Bool.or_eq_true, Bool.not_eq_true']
        exact ⟨⟨⟨hcond, hbody⟩, isDone_or_closed hopen hdone⟩, hrest⟩
    next =>
      refine (consumes_guarded ih .while_ c).map fun q ts _ hq => ?_
      obtain ⟨cond, body⟩ := q
      obtain ⟨hexact, hcond, hbody, hopen⟩ := hq
      exact ⟨hexact, (Bool.and_eq_true _ _).mpr ⟨hcond, hbody⟩, hopen⟩
    next => exact consumes_jump (fun _ => rfl) (fun _ => rfl) (fun _ => rfl) ho.symm
    next => exact consumes_jump (fun _ => rfl) (fun _ => rfl) (fun _ => rfl) ho.symm
    next =>
      refine consumes_next.bind fun t ts c1 h1 hts => ?_
      subst hts
      rw [h1.tokens] at ho
      have hkeyword : (Outline.leaf (.keyword .return_ t.span)).Exact [t] :=
        .leaf (congrArg (fun x => [x]) (Option.some.inj ho)) rfl
      refine (consumes_returnValue c1).bind fun e us c2 _ he => ?_
      refine consumes_expect.map fun _ vs _ hvs => ?_
      obtain ⟨s, rfl⟩ := hvs
      refine ⟨?_, he.2, fun h => absurd h Bool.false_ne_true⟩
      cases e with
      | none =>
        cases he.1
        exact hkeyword.append (.single ⟨_, s⟩)
      | some e => exact hkeyword.append (he.1.append (.single ⟨_, s⟩))
    next => exact consumes_assignOrExpr c
    next => exact consumes_exprStatement c

/-- **A statement is outlined by what is taken for it**, and an `else` that could
be a part of it is one. -/
theorem consumes_statement (c : Cursor) : Consumes statement c StmtTaken :=
  consumes_remaining.look fun n _ => consumes_statementWithin (n + 1) c

/-! ## Programs -/

theorem consumes_returnType (c : Cursor) :
    Consumes returnType c fun r ts _ => (Outline.single r.token).Exact ts := by
  refine consumes_next.bind fun t ts c1 _ hts => ?_
  subst hts
  split
  next h => exact .pure (.of_value h)
  next h => exact .pure (.of_value h)
  next => exact .fail

theorem consumes_parameter (c : Cursor) :
    Consumes parameter c (Outlined Parameter.outline fun p => p.stratified = true) := by
  refine consumes_expect.bind fun _ ts c1 _ hts => ?_
  obtain ⟨s, rfl⟩ := hts
  refine consumes_ident.bind fun x us c2 _ hx => ?_
  subst hx
  refine (consumes_accept _).bind fun b vs c3 _ hb => ?_
  cases b with
  | true =>
    obtain ⟨s', rfl⟩ : ∃ s, vs = [⟨.mark .openBracket, s⟩] := hb
    refine consumes_expect.bind fun _ ws c4 _ hws => ?_
    obtain ⟨s'', rfl⟩ := hws
    refine (consumes_subscripts consumes_expr c4).map fun dims xs _ hdims => ⟨?_, hdims.2⟩
    exact .append (.single ⟨_, s⟩) ((Ident.exact_outline x).append (.append (.single ⟨_, s'⟩)
      (.append (.single ⟨_, s''⟩) hdims.1)))
  | false =>
    obtain ⟨rfl, -⟩ := hb
    exact .pure ⟨.append (.single ⟨_, s⟩) ((Ident.exact_outline x).append .nil), rfl⟩

/-- **A function is outlined by what is taken for it.** -/
theorem consumes_function (c : Cursor) :
    Consumes function c (Outlined FunctionDef.outline fun f => f.stratified = true) := by
  refine (consumes_returnType c).bind fun r ts c1 _ hr => ?_
  refine consumes_ident.bind fun x us c2 _ hx => ?_
  subst hx
  refine consumes_expect.bind fun _ vs c3 _ hvs => ?_
  obtain ⟨s, rfl⟩ := hvs
  refine (consumes_commaList consumes_parameter _ c3).bind fun params ws c4 _ hparams => ?_
  refine (consumes_blockOf consumes_statement c4).map fun body xs _ hbody => ?_
  refine ⟨?_, (Bool.and_eq_true _ _).mpr ⟨all_eq_true.2 hparams.2, hbody.2⟩⟩
  exact hr.append ((Ident.exact_outline x).append (.append (.single ⟨_, s⟩)
    (hparams.1.append hbody.1)))

theorem consumes_topLevel (c : Cursor) :
    Consumes topLevel c (Outlined TopLevel.outline fun u => u.stratified = true) := by
  refine consumes_get.look fun _ _ => ?_
  split
  next => exact (consumes_function c).map fun f ts _ hf => hf
  next => exact (consumes_decl c).map fun d ts _ hd => hd

/-- **The units of a program are read to the end.** Each of them takes a token,
so that the counter does not stop them. -/
theorem consumes_topLevels (n : Nat) (c : Cursor) (hn : c.tokens.length ≤ n) :
    Consumes (topLevels n) c fun us ts k => (Program.mk us).outline.Exact ts ∧
      us.all TopLevel.stratified = true ∧ k = [] := by
  induction n generalizing c with
  | zero => exact .pure ⟨.nil, rfl, length_eq_zero_iff.1 (Nat.le_zero.1 hn)⟩
  | succ n ih =>
    refine consumes_get.look fun c' hc' => ?_
    subst hc'
    split
    next hempty =>
      refine .pure ⟨.nil, rfl, ?_⟩
      rw [Cursor.tokens, isEmpty_iff.1 hempty]
      rfl
    next =>
      refine (consumes_topLevel c').bind fun u ts c1 h1 hu => ?_
      -- a unit is spelled by some token, so that the counter still covers what is left
      have hc1 : c1.tokens.length ≤ n := by
        have := length_pos_iff.2 u.spell_ne_nil
        rw [h1.tokens, hu.1.map_value, u.tokens_outline, length_append] at hn
        omega
      refine (ih c1 hc1).map fun us vs _ hus => ?_
      exact ⟨hu.1.append hus.1, (Bool.and_eq_true _ _).mpr ⟨hu.2, hus.2.1⟩, hus.2.2⟩

theorem takes_topLevels (n : Nat) (input : List Token) (hn : input.length ≤ n) :
    Takes (topLevels n) input fun us ts k =>
      ts = us.flatMap TopLevel.spell ∧ us.all TopLevel.stratified = true ∧ k = [] := by
  refine .of_consumes fun c hc => (consumes_topLevels n c (hc ▸ hn)).mono fun us ts k h => ?_
  exact ⟨h.1.map_value.trans (Program.mk us).tokens_outline, h.2⟩

end Parser

/-- **A program is outlined by the tokens that it is parsed from**, all of them. -/
theorem Program.exact_of_parse {tokens : List (Located Token)} {p : Program}
    (h : Program.parse tokens = .ok p) : p.outline.Exact tokens := by
  cases hrun : Parser.program ⟨tokens, Span.origin⟩ with
  | error e =>
    rw [Program.parse, hrun] at h
    cases h
  | ok q =>
    obtain ⟨p', c⟩ := q
    rw [Program.parse, hrun] at h
    cases h
    have hprogram : Parser.Consumes Parser.program ⟨tokens, Span.origin⟩ fun p ts k =>
        p.outline.Exact ts ∧ k = [] :=
      Parser.consumes_remaining.look fun n hn =>
        (Parser.consumes_topLevels n _ (Nat.le_of_eq hn.symm)).map fun us ts k hus =>
          ⟨hus.1, hus.2.2⟩
    obtain ⟨ts, hmoves, hexact, hleft⟩ := hprogram p' c hrun
    have htokens : tokens = ts ++ c.rest := hmoves.1
    rw [map_eq_nil_iff.1 hleft, append_nil] at htokens
    exact htokens ▸ hexact

/-- **The parser loses and invents nothing.** A program that is parsed from tokens
is spelled by exactly these tokens, and it has the shape of its spelling: the
operators bind by their ranks and group to the left, the operand of an operator
before it is no looser, and every `else` belongs to the nearest `if` that is
open. -/
theorem Program.spell_of_parse {tokens : List (Located Token)} {p : Program}
    (h : Program.parse tokens = .ok p) :
    p.spell = tokens.map (·.value) ∧ p.stratified = true := by
  have htakes : Parser.Takes Parser.program (tokens.map (·.value)) fun p ts k =>
      ts = p.spell ∧ p.stratified = true ∧ k = [] := by
    refine Parser.takes_remaining.look fun n hn => ?_
    refine (Parser.takes_topLevels n _ (Nat.le_of_eq hn.symm)).bind fun us ts k _ hus => ?_
    exact .pure ⟨by rw [hus.1, List.append_nil]; rfl, hus.2⟩
  unfold Program.parse at h
  cases hrun : Parser.program ⟨tokens, Span.origin⟩ with
  | error e =>
    rw [hrun] at h
    cases h
  | ok q =>
    rw [hrun] at h
    cases h
    obtain ⟨ts, htokens, hspell, hstratified, hleft⟩ := htakes _ _ _ rfl hrun
    rw [hleft, List.append_nil, hspell] at htokens
    exact ⟨htokens.symm, hstratified⟩

/-- The tokens of a function in which an `else` stands after two `if`s and a loop:
`int f(int a[]) { if (a[0] < 1) while (a) if (-a[1] * 2 + f(a, 1)) ; else return a - 1 - 2; }`. -/
def Program.nestedTokens : List (Located Token) :=
  [.keyword .int, .ident "f", .mark .openParen, .keyword .int, .ident "a", .mark .openBracket,
    .mark .closeBracket, .mark .closeParen, .mark .openBrace, .keyword .if_, .mark .openParen,
    .ident "a", .mark .openBracket, .number "0", .mark .closeBracket, .mark .less, .number "1",
    .mark .closeParen, .keyword .while_, .mark .openParen, .ident "a", .mark .closeParen,
    .keyword .if_, .mark .openParen, .mark .minus, .ident "a", .mark .openBracket, .number "1",
    .mark .closeBracket, .mark .times, .number "2", .mark .plus, .ident "f", .mark .openParen,
    .ident "a", .mark .comma, .number "1", .mark .closeParen, .mark .closeParen, .mark .semicolon,
    .keyword .else_, .keyword .return_, .ident "a", .mark .minus, .number "1", .mark .minus,
    .number "2", .mark .semicolon, .mark .closeBrace].map (⟨·, Span.origin⟩)

theorem Program.spell_of_parse_nested :
    ∃ p, Program.parse Program.nestedTokens = .ok p ∧
      p.spell = Program.nestedTokens.map (·.value) ∧ p.stratified = true := by
  have hparses : (Program.parse Program.nestedTokens).toOption.isSome = true := by decide +kernel
  cases h : Program.parse Program.nestedTokens with
  | error e =>
    rw [h] at hparses
    cases hparses
  | ok p => exact ⟨p, rfl, Program.spell_of_parse h⟩

end SysY
