import SysY.Proofs.Grammar.ReadsExpr

/-!
# The parser accepts the whole grammar

`Program.parse_of_spell`: tokens that spell a stratified program are parsed, and
give this program up to places.

What a statement begins with decides how it is read. A name is the hard case: an
assignment is tried first, and it has to fail on an expression. It does since
what is taken for the target of an assignment spells it: no expression has a `=`
or a `;` in it, so the same tokens would have to reach both first. After a
statement that ends in an `if` without `else` there must be no `else`; the branch
of an `if` that has one does not end so.
-/

namespace SysY

open List

/-! ## First tokens -/

/-- The tokens that a statement begins with. -/
def Token.startsStmt : Token → Bool
  | .mark .semicolon | .mark .openBrace => true
  | .keyword .if_ | .keyword .while_ | .keyword .break_ | .keyword .continue_ => true
  | .keyword .return_ => true
  | t => t.startsExpr

variable {t : Token}

theorem Token.startsStmt_of_startsExpr (h : t.startsExpr = true) : t.startsStmt = true := by
  unfold Token.startsStmt
  split
  all_goals first | rfl | exact h

theorem Stmt.spell_eq_cons (s : Stmt) : ∃ t ts, s.spell = t :: ts ∧ t.startsStmt = true := by
  cases s with
  | eval e =>
    cases e with
    | none => exact ⟨_, _, rfl, rfl⟩
    | some e =>
      obtain ⟨t, ts, he, ht⟩ := e.spell_eq_cons
      exact ⟨t, ts ++ [.mark .semicolon], by rw [Stmt.spell, he]; rfl,
        Token.startsStmt_of_startsExpr ht⟩
  | return_ _ e => cases e <;> exact ⟨_, _, rfl, rfl⟩
  | _ => exact ⟨_, _, rfl, rfl⟩

theorem Stmt.head_ne (s : Stmt) (ht : t.startsStmt = false) (k : List Token) :
    (s.spell ++ k).head? ≠ some t := by
  obtain ⟨u, us, hs, hu⟩ := s.spell_eq_cons
  rw [hs]
  refine head_cons_ne fun h => ?_
  rw [h, ht] at hu
  exact Bool.false_ne_true hu

theorem Stmt.spell_return (s : Span) (e : Option Expr) :
    (Stmt.return_ s e).spell
      = .keyword .return_ :: (e.elim [] Expr.spell ++ [.mark .semicolon]) := by
  cases e <;> rfl

theorem Decl.spell_eq_cons (d : Decl) :
    ∃ t ts, d.spell = t :: ts ∧ (t = .keyword .const ∨ t = .keyword .int) := by
  obtain ⟨constant, first, others⟩ := d
  cases constant with
  | true => exact ⟨_, _, rfl, .inl rfl⟩
  | false => exact ⟨_, _, rfl, .inr rfl⟩

variable {k : List Token} {s : Stmt} {n : Nat} {xs : List (List Token)} {rest : Otherwise}
  {f : FunctionDef} {b : Block}

/-- After the name of a definition stands no parenthesis. -/
theorem Definition.second_ne_openParen (d : Definition) (hk : k.head? ≠ some (.mark .openParen)) :
    (d.spell ++ k).tail.head? ≠ some (.mark .openParen) := by
  obtain ⟨x, dims, init⟩ := d
  cases dims with
  | cons e es => exact head_cons_ne (by decide)
  | nil =>
    cases init with
    | none => exact hk
    | some i => exact head_cons_ne (by decide)

theorem Stmt.length_spell_pos (s : Stmt) : 0 < s.spell.length := by
  obtain ⟨t, ts, hs, -⟩ := s.spell_eq_cons
  rw [hs]
  exact Nat.succ_pos _

theorem Decl.length_spell_pos (d : Decl) : 0 < d.spell.length := by
  obtain ⟨t, ts, hd, -⟩ := d.spell_eq_cons
  rw [hd]
  exact Nat.succ_pos _

theorem Block.length_spell_pos (b : Block) : 0 < b.spell.length := by
  cases b with
  | nil => exact Nat.succ_pos 0
  | decl d rest =>
    rw [Block.spell, length_append]
    exact Nat.add_pos_left d.length_spell_pos _
  | stmt s rest =>
    rw [Block.spell, length_append]
    exact Nat.add_pos_left s.length_spell_pos _

theorem Block.head_ne_else (b : Block) (k : List Token) :
    (b.spell ++ k).head? ≠ some (.keyword .else_) := by
  cases b with
  | nil => exact head_cons_ne (by decide)
  | decl d rest =>
    obtain ⟨t, ts, hd, ht⟩ := d.spell_eq_cons
    rw [Block.spell, hd]
    obtain rfl | rfl := ht
    · exact head_cons_ne (by decide)
    · exact head_cons_ne (by decide)
  | stmt s rest =>
    rw [Block.spell, append_assoc]
    exact s.head_ne rfl _

theorem Stmt.head_ne_if (s : Stmt) (hs : s.isIf = false) (k : List Token) :
    (s.spell ++ k).head? ≠ some (.keyword .if_) := by
  cases s with
  | if_ c s rest => cases hs
  | eval e =>
    cases e with
    | none => exact head_cons_ne (by decide)
    | some e =>
      rw [Stmt.spell, append_assoc]
      exact e.head_ne rfl _
  | return_ s e => cases e <;> exact head_cons_ne (by decide)
  | assign target mark value => exact head_cons_ne Token.noConfusion
  | _ => exact head_cons_ne (by decide)

/-- After a branch that ends open stands no `else`, be it the last one or not. -/
theorem head_ne_else_of_branch (hs : (rest.isDone || !s.endsOpen) = true)
    (hk : rest.endsOpen = true → k.head? ≠ some (.keyword .else_)) (hopen : s.endsOpen = true) :
    (rest.spell ++ k).head? ≠ some (.keyword .else_) := by
  rw [hopen, Bool.not_true, Bool.or_false] at hs
  cases rest with
  | done => exact hk rfl
  | else_ s => cases hs
  | elseIf c s rest => cases hs

/-! ## Expressions are no assignments -/

/-- The marks that no expression has: those after the target of an assignment
and after a statement. -/
def Token.ends : Token → Bool
  | .mark .assign | .mark .semicolon => true
  | _ => false

theorem spellSubscripts_ends (h : ∀ x ∈ xs, ∀ t ∈ x, t.ends = false) :
    ∀ t ∈ spellSubscripts xs, t.ends = false := by
  intro t ht
  obtain ⟨x, hx, ht⟩ := mem_flatMap.1 ht
  obtain rfl | ht := mem_cons.1 ht
  · rfl
  obtain ht | ht := mem_append.1 ht
  · exact h x hx t ht
  · obtain rfl := mem_singleton.1 ht
    rfl

theorem spellList_ends (h : ∀ x ∈ xs, ∀ t ∈ x, t.ends = false) :
    ∀ t ∈ spellList .closeParen xs, t.ends = false := by
  intro t ht
  cases xs with
  | nil =>
    obtain rfl := mem_singleton.1 ht
    rfl
  | cons x xs =>
    obtain ⟨hx, hxs⟩ := forall_mem_cons.1 h
    obtain ht | ht := mem_append.1 ht
    · exact hx t ht
    obtain ht | ht := mem_append.1 ht
    · obtain ⟨y, hy, ht⟩ := mem_flatMap.1 ht
      obtain rfl | ht := mem_cons.1 ht
      · rfl
      · exact hxs y hy t ht
    · obtain rfl := mem_singleton.1 ht
      rfl

mutual

theorem Expr.ends_spell : ∀ e : Expr, ∀ t ∈ e.spell, t.ends = false
  | .number _ _ => forall_mem_singleton.2 rfl
  | .lval _ _ es => forall_mem_cons.2 ⟨rfl, spellSubscripts_ends (Expr.ends_spellAll es)⟩
  | .call _ _ es => forall_mem_cons.2 ⟨rfl, forall_mem_cons.2
      ⟨rfl, spellList_ends (Expr.ends_spellAll es)⟩⟩
  | .unary _ ⟨op, _⟩ e => forall_mem_cons.2 ⟨by cases op <;> rfl, e.ends_spell⟩
  | .binary _ op a b => forall_mem_append.2
      ⟨a.ends_spell, forall_mem_cons.2 ⟨by cases op <;> rfl, b.ends_spell⟩⟩
  | .paren _ e => forall_mem_cons.2 ⟨rfl, forall_mem_append.2
      ⟨e.ends_spell, forall_mem_singleton.2 rfl⟩⟩

theorem Expr.ends_spellAll : ∀ es : List Expr, ∀ ts ∈ Expr.spellAll es, ∀ t ∈ ts, t.ends = false
  | [] => fun _ h => absurd h not_mem_nil
  | e :: es => forall_mem_cons.2 ⟨e.ends_spell, Expr.ends_spellAll es⟩

end

theorem find?_ends {ts : List Token} {u : Token} (h : ∀ t ∈ ts, t.ends = false)
    (hu : u.ends = true) : (ts ++ u :: k).find? Token.ends = some u := by
  rw [find?_append, find?_eq_none.2 fun t ht => by rw [h t ht]; exact Bool.false_ne_true,
    Option.none_or, find?_cons_of_pos hu]

namespace Parser

variable {k : List Token}

/-- **An expression statement is not taken for an assignment.** -/
theorem reads_attempt_assignment {e : Expr} :
    Reads (attempt assignment) (e.spell ++ .mark .semicolon :: k) (· = none)
      (e.spell ++ .mark .semicolon :: k) := by
  intro c hc
  unfold attempt
  cases hrun : assignment c with
  | error _ => exact ⟨none, c, rfl, rfl, hc⟩
  | ok q =>
    obtain ⟨⟨target, mark⟩, c'⟩ := q
    obtain ⟨taken, hmoves, hexact, -⟩ := consumes_assignment c _ c' hrun
    have htokens : c.tokens = target.spell ++ [.mark .assign] ++ c'.tokens := by
      rw [hmoves.tokens, hexact.map_value]
      simp [Node.spell]
    -- the first of the two marks would be both
    have hsemicolon := find?_ends (k := k) e.ends_spell (u := .mark .semicolon) rfl
    have hassign : (c.tokens).find? Token.ends = some (.mark .assign) := by
      rw [htokens, append_assoc]
      exact find?_ends (forall_mem_cons.2
        ⟨rfl, spellSubscripts_ends (Expr.ends_spellAll target.indices)⟩) rfl
    rw [hc, hsemicolon] at hassign
    cases hassign

/-! ## Statements -/

theorem reads_exprStatement {e : Expr} (he : e.stratified = true) :
    Reads exprStatement (e.spell ++ .mark .semicolon :: k)
      (fun s => s.erase = (Stmt.eval (some e)).erase) k := by
  refine (reads_accept_ne (e.head_ne rfl _)).bind fun b hb => ?_
  subst hb
  refine (reads_expr he (stops_of_rank?_eq_none rfl)).bind fun e' he' => ?_
  refine reads_expect.bind fun _ _ => .pure ?_
  show Stmt.eval (some _) = Stmt.eval (some _)
  rw [he']

theorem reads_assign {target : LVal} {mark : Span} {value : Expr}
    (htarget : Expr.allStratified target.indices = true) (hvalue : value.stratified = true) :
    Reads assignOrExpr ((Stmt.assign target mark value).spell ++ k)
      (fun s => s.erase = (Stmt.assign target mark value).erase) k := by
  have hassignment : Reads assignment (target.spell ++ (.mark .assign ::
      (value.spell ++ (.mark .semicolon :: k)))) (fun q => q.1.erase = target.erase)
      (value.spell ++ (.mark .semicolon :: k)) := by
    refine (reads_lval (fun _ he _ _ hk => reads_expr he hk) htarget (Nat.le_refl _)
      (head_cons_ne (by decide))).bind fun l hl => ?_
    refine reads_expect.bind fun _ _ => ?_
    refine reads_lastSpan.bind fun mark' _ => .pure ?_
    rw [LVal.erase, LVal.erase, Ident.erase_congr hl.1, hl.2]
  have hattempt : Reads (attempt assignment) ((Stmt.assign target mark value).spell ++ k)
      (fun o => ∃ q : LVal × Span, o = some q ∧ q.1.erase = target.erase)
      (value.spell ++ (.mark .semicolon :: k)) := by
    intro c hc
    simp only [Stmt.spell, append_assoc, cons_append, nil_append] at hc
    obtain ⟨q, c', hq, htarget', hc'⟩ := hassignment c hc
    refine ⟨some q, c', ?_, ⟨q, rfl, htarget'⟩, hc'⟩
    unfold attempt
    rw [hq]
  refine hattempt.bind fun o ho => ?_
  obtain ⟨⟨target', mark'⟩, rfl, htarget'⟩ := ho
  refine (reads_expr hvalue (stops_of_rank?_eq_none rfl)).bind fun value' hvalue' => ?_
  refine reads_expect.bind fun _ _ => .pure ?_
  rw [Stmt.erase, Stmt.erase, htarget', hvalue']

theorem reads_returnValue {e : Option Expr} (he : e.all Expr.stratified = true) :
    Reads returnValue (e.elim [] Expr.spell ++ .mark .semicolon :: k)
      (fun e' => e'.map Expr.erase = e.map Expr.erase) (.mark .semicolon :: k) := by
  refine reads_peek.bind fun o ho => ?_
  cases e with
  | none =>
    rw [if_pos (by rw [ho]; rfl)]
    exact .pure rfl
  | some e =>
    rw [if_neg (by rw [ho]; exact e.head_ne rfl _)]
    refine (reads_expr he (stops_of_rank?_eq_none rfl)).bind fun e' he' => .pure ?_
    exact congrArg some he'

section Statements

variable {st : Parser Stmt} {m : Nat}
  (hst : ∀ s : Stmt, s.stratified = true → s.spell.length < m → ∀ k,
    (s.endsOpen = true → k.head? ≠ some (.keyword .else_)) →
    Reads st (s.spell ++ k) (fun s' => s'.erase = s.erase) k)

include hst

variable {k : List Token}

theorem reads_guarded {w : Keyword} {c : Cond} (hc : c.stratified = true) (hs : s.stratified = true)
    (hm : s.spell.length < m) (hk : s.endsOpen = true → k.head? ≠ some (.keyword .else_)) :
    Reads (guarded w st) (c.spellGuard w ++ (s.spell ++ k))
      (fun q => q.1.erase = c.erase ∧ q.2.erase = s.erase) k := by
  simp only [Cond.spellGuard, cons_append, append_assoc, nil_append]
  refine reads_expect.bind fun _ _ => ?_
  refine reads_expect.bind fun _ _ => ?_
  refine (reads_cond hc (stops_of_rank?_eq_none rfl)).bind fun c' hc' => ?_
  refine reads_expect.bind fun _ _ => ?_
  exact (hst s hs hm k hk).bind fun s' hs' => .pure ⟨hc', hs'⟩

theorem reads_blockRest (hb : b.stratified = true) (hm : b.spell.length ≤ m)
    (hn : b.spell.length ≤ n) :
    Reads (blockRest st n) (b.spell ++ k) (fun b' => b'.erase = b.erase) k := by
  induction n generalizing b with
  | zero => exact absurd hn (Nat.not_le.2 b.length_spell_pos)
  | succ n ih =>
    cases b with
    | nil =>
      refine reads_accept.bind fun closed hclosed => ?_
      subst hclosed
      exact .pure rfl
    | decl d rest =>
      obtain ⟨hd, hrest⟩ := (Bool.and_eq_true _ _).mp hb
      have hpos := d.length_spell_pos
      obtain ⟨t, ts, hspell, ht⟩ := d.spell_eq_cons
      rw [Block.spell, length_append] at hm hn
      have hread : Reads (do let d ← decl; return Block.decl d (← blockRest st n))
          (d.spell ++ (rest.spell ++ k)) (fun b' => b'.erase = (Block.decl d rest).erase) k := by
        refine (reads_decl hd).bind fun d' hd' => ?_
        refine (ih hrest (by omega) (by omega)).bind fun rest' hrest' => .pure ?_
        rw [Block.erase, Block.erase, hd', hrest']
      rw [Block.spell, append_assoc]
      have hopen : (d.spell ++ (rest.spell ++ k)).head? ≠ some (.mark .closeBrace) := by
        rw [hspell]
        obtain rfl | rfl := ht
        · exact head_cons_ne (by decide)
        · exact head_cons_ne (by decide)
      refine (reads_accept_ne hopen).bind fun closed hclosed => ?_
      subst hclosed
      refine reads_peek.bind fun o ho => ?_
      rw [hspell] at ho
      obtain rfl : o = some t := ho
      obtain rfl | rfl := ht
      · exact hread
      · exact hread
    | stmt s rest =>
      obtain ⟨hs, hrest⟩ := (Bool.and_eq_true _ _).mp hb
      have hpos := s.length_spell_pos
      have hposRest := rest.length_spell_pos
      rw [Block.spell, length_append] at hm hn
      rw [Block.spell, append_assoc]
      refine (reads_accept_ne (s.head_ne rfl _)).bind fun closed hclosed => ?_
      subst hclosed
      refine reads_peek.bind fun o ho => ?_
      split
      next => exact absurd ho.symm (s.head_ne rfl _)
      next => exact absurd ho.symm (s.head_ne rfl _)
      next =>
        -- whatever the rest of the block begins with, it is no `else`
        refine (hst s hs (by omega) _ fun _ => rest.head_ne_else k).bind fun s' hs' => ?_
        refine (ih hrest (by omega) (by omega)).bind fun rest' hrest' => .pure ?_
        rw [Block.erase, Block.erase, hs', hrest']

theorem reads_blockOf (hb : b.stratified = true) (hm : b.spell.length ≤ m) :
    Reads (blockOf st) (.mark .openBrace :: (b.spell ++ k)) (fun b' => b'.erase = b.erase) k := by
  refine reads_expect.bind fun _ _ => ?_
  refine reads_remaining.bind fun n hn => ?_
  refine reads_blockRest hst hb hm ?_
  rw [hn, length_append]
  omega

theorem reads_otherwise {o : Otherwise} (ho : o.stratified = true) (hm : o.spell.length ≤ m)
    (hn : o.spell.length ≤ n) (hk : o.endsOpen = true → k.head? ≠ some (.keyword .else_)) :
    Reads (otherwise st n) (o.spell ++ k) (fun o' => o'.erase = o.erase) k := by
  induction n generalizing o with
  | zero =>
    cases o with
    | done => exact .pure rfl
    | else_ s | elseIf c s rest => exact absurd hn (Nat.not_succ_le_zero _)
  | succ n ih =>
    cases o with
    | done =>
      refine (reads_accept_ne (hk rfl)).bind fun b hb => ?_
      subst hb
      exact .pure rfl
    | else_ s =>
      obtain ⟨hs, hif⟩ := (Bool.and_eq_true _ _).mp ho
      rw [Otherwise.spell, length_cons] at hm
      rw [Otherwise.spell, cons_append]
      refine reads_accept.bind fun b hb => ?_
      subst hb
      refine reads_peek.bind fun t ht => ?_
      rw [if_neg (by rw [ht]; exact s.head_ne_if (Bool.not_eq_true' _ |>.mp hif) k)]
      refine (hst s hs hm k hk).bind fun s' hs' => .pure ?_
      rw [Otherwise.erase, Otherwise.erase, hs']
    | elseIf c s rest =>
      simp only [Otherwise.stratified, Bool.and_eq_true] at ho
      obtain ⟨⟨⟨hc, hs⟩, hbranch⟩, hrest⟩ := ho
      rw [Otherwise.spell, length_cons, length_append, length_append] at hm hn
      rw [Otherwise.spell, cons_append, append_assoc, append_assoc]
      refine reads_accept.bind fun b hb => ?_
      subst hb
      refine reads_peek.bind fun t ht => ?_
      rw [if_pos (by rw [ht]; rfl)]
      refine (reads_guarded hst hc hs (by omega) (head_ne_else_of_branch hbranch hk)).bind
        fun q hq => ?_
      obtain ⟨c', s'⟩ := q
      refine (ih hrest (by omega) (by omega) hk).bind fun rest' hrest' => .pure ?_
      rw [Otherwise.erase, Otherwise.erase, hq.1, hq.2, hrest']

theorem reads_if {c : Cond} (hs : (Stmt.if_ c s rest).stratified = true)
    (hm : (Stmt.if_ c s rest).spell.length ≤ m)
    (hk : rest.endsOpen = true → k.head? ≠ some (.keyword .else_)) :
    Reads (do
        let (c, body) ← guarded .if_ st
        return Stmt.if_ c body (← otherwise st (← remaining)))
      ((Stmt.if_ c s rest).spell ++ k) (fun s' => s'.erase = (Stmt.if_ c s rest).erase) k := by
  simp only [Stmt.stratified, Bool.and_eq_true] at hs
  obtain ⟨⟨⟨hc, hs⟩, hbranch⟩, hrest⟩ := hs
  rw [Stmt.spell, Cond.spellGuard, length_append, length_append, length_cons] at hm
  rw [Stmt.spell, append_assoc, append_assoc]
  refine (reads_guarded hst hc hs (by omega) (head_ne_else_of_branch hbranch hk)).bind
    fun q hq => ?_
  obtain ⟨c', s'⟩ := q
  refine reads_remaining.bind fun l hl => ?_
  have hlength : rest.spell.length ≤ l := by
    rw [hl, length_append]
    exact Nat.le_add_right _ _
  refine (reads_otherwise hst hrest (by omega) hlength hk).bind fun rest' hrest' => .pure ?_
  rw [Stmt.erase, Stmt.erase, hq.1, hq.2, hrest']

end Statements

theorem reads_statementWithin (hs : s.stratified = true) (hn : s.spell.length < n)
    (hk : s.endsOpen = true → k.head? ≠ some (.keyword .else_)) :
    Reads (statementWithin n) (s.spell ++ k) (fun s' => s'.erase = s.erase) k := by
  induction n generalizing s k with
  | zero => exact absurd hn (Nat.not_lt_zero _)
  | succ n ih =>
    have hst (s : Stmt) (hs : s.stratified = true) (hn : s.spell.length < n) (k : List Token)
        (hk : s.endsOpen = true → k.head? ≠ some (.keyword .else_)) :
        Reads (statementWithin n) (s.spell ++ k) (fun s' => s'.erase = s.erase) k := ih hs hn hk
    refine reads_peek.bind fun o ho => ?_
    cases s with
    | assign target mark value =>
      obtain ⟨htarget, hvalue⟩ := (Bool.and_eq_true _ _).mp hs
      obtain rfl : o = some (.ident target.name.value) := ho
      exact reads_assign htarget hvalue
    | eval e =>
      cases e with
      | none =>
        obtain rfl : o = some (.mark .semicolon) := ho
        refine reads_accept.bind fun b hb => ?_
        subst hb
        exact .pure rfl
      | some e =>
        rw [Stmt.spell, append_assoc] at ho ⊢
        have hexpr : Reads exprStatement (e.spell ++ ([.mark .semicolon] ++ k)) _ k :=
          reads_exprStatement hs
        obtain ⟨t, ts, hspell, ht⟩ := e.spell_eq_cons
        rw [hspell] at ho
        obtain rfl : o = some t := ho
        -- only a name leads to the trial, and the trial fails
        cases t with
        | ident x =>
          refine reads_attempt_assignment.bind fun o ho => ?_
          subst ho
          exact hexpr
        | number text => exact hexpr
        | keyword w => cases ht
        | mark w => cases w <;> first | exact hexpr | cases ht
    | block b =>
      obtain rfl : o = some (.mark .openBrace) := ho
      rw [Stmt.spell, length_cons] at hn
      refine (reads_blockOf hst hs (by omega)).bind fun b' hb' => .pure ?_
      rw [Stmt.erase, Stmt.erase, hb']
    | if_ c s rest =>
      obtain rfl : o = some (.keyword .if_) := ho
      exact reads_if hst hs (Nat.le_of_lt_succ hn) hk
    | while_ c s =>
      obtain ⟨hc, hs⟩ := (Bool.and_eq_true _ _).mp hs
      obtain rfl : o = some (.keyword .while_) := ho
      rw [Stmt.spell, Cond.spellGuard, length_append, length_cons] at hn
      rw [Stmt.spell, append_assoc]
      refine (reads_guarded hst hc hs (by omega) hk).bind fun q hq => .pure ?_
      rw [Stmt.erase, Stmt.erase, hq.1, hq.2]
    | break_ s =>
      obtain rfl : o = some (.keyword .break_) := ho
      refine reads_next.bind fun _ _ => ?_
      exact reads_expect.bind fun _ _ => .pure rfl
    | continue_ s =>
      obtain rfl : o = some (.keyword .continue_) := ho
      refine reads_next.bind fun _ _ => ?_
      exact reads_expect.bind fun _ _ => .pure rfl
    | return_ s e =>
      rw [Stmt.spell_return, cons_append, append_assoc] at ho ⊢
      obtain rfl : o = some (.keyword .return_) := ho
      refine reads_next.bind fun _ _ => ?_
      refine (reads_returnValue hs).bind fun e' he' => ?_
      refine reads_expect.bind fun _ _ => .pure ?_
      rw [Stmt.erase, Stmt.erase, he']

/-- **A statement is read**, where no `else` follows that would belong to it. -/
theorem reads_statement (hs : s.stratified = true)
    (hk : s.endsOpen = true → k.head? ≠ some (.keyword .else_)) :
    Reads statement (s.spell ++ k) (fun s' => s'.erase = s.erase) k := by
  refine reads_remaining.bind fun n hn => ?_
  refine reads_statementWithin hs ?_ hk
  rw [hn, length_append]
  omega

/-! ## Programs -/

theorem reads_returnType {r : ReturnType} : Reads returnType (r.token :: k) (· = r) k := by
  refine reads_next.bind fun t ht => ?_
  rw [ht]
  cases r <;> exact .pure rfl

theorem reads_parameter {p : Parameter} (hp : p.stratified = true)
    (hk : Stops 0 k) : Reads parameter (p.spell ++ k) (fun p' => p'.erase = p.erase) k := by
  obtain ⟨x, array⟩ := p
  have hbracket : k.head? ≠ some (.mark .openBracket) := hk.head_ne rfl (Nat.le_refl 0)
  rw [Parameter.spell, cons_append, cons_append]
  refine reads_expect.bind fun _ _ => ?_
  refine reads_ident.bind fun y hy => ?_
  cases array with
  | none =>
    refine (reads_accept_ne hbracket).bind fun b hb => ?_
    subst hb
    refine .pure ?_
    show Parameter.mk _ none = Parameter.mk _ none
    rw [Ident.erase_congr hy]
  | some dims =>
    refine reads_accept.bind fun b hb => ?_
    subst hb
    refine reads_expect.bind fun _ _ => ?_
    refine (reads_dims hp hbracket).bind fun dims' hdims => .pure ?_
    show Parameter.mk _ (some _) = Parameter.mk _ (some _)
    rw [Ident.erase_congr hy, hdims]

/-- **A function is read.** -/
theorem reads_function (hf : f.stratified = true) :
    Reads function (f.spell ++ k) (fun f' => f'.erase = f.erase) k := by
  obtain ⟨returns, x, params, body⟩ := f
  obtain ⟨hparams, hbody⟩ := (Bool.and_eq_true _ _).mp hf
  simp only [FunctionDef.spell, cons_append, append_assoc]
  refine reads_returnType.bind fun r hr => ?_
  refine reads_ident.bind fun y hy => ?_
  refine reads_expect.bind fun _ _ => ?_
  refine (reads_commaList
    (fun p hmem _ hk => reads_parameter (all_eq_true.1 hparams p hmem) hk)
    (fun _ => stops_of_rank?_eq_none rfl) (fun _ => stops_of_rank?_eq_none rfl) (by decide)
    (fun _ _ _ => head_cons_ne (by decide))).bind fun params' hparams' => ?_
  refine (reads_blockOf (fun s hs _ k hk => reads_statement hs hk) hbody
    (Nat.le_refl _)).bind fun body' hbody' => .pure ?_
  rw [FunctionDef.erase, FunctionDef.erase, hr, Ident.erase_congr hy, hparams', hbody']

theorem atFunction_of_function {f : FunctionDef} {rest : List (Located Token)}
    (h : rest.map (·.value) = f.spell ++ k) : atFunction rest = true := by
  obtain ⟨⟨_, _⟩, _, rfl, rfl, h1⟩ := map_eq_cons_iff.1 h
  obtain ⟨⟨_, _⟩, _, rfl, rfl, h2⟩ := map_eq_cons_iff.1 h1
  obtain ⟨⟨_, _⟩, _, rfl, rfl, -⟩ := map_eq_cons_iff.1 h2
  cases f.returns <;> rfl

theorem atFunction_of_decl {d : Decl} {rest : List (Located Token)}
    (h : rest.map (·.value) = d.spell ++ k) : atFunction rest = false := by
  obtain ⟨constant, first, others⟩ := d
  unfold atFunction
  split
  next w _ x _ _ rest =>
    cases constant with
    | true => cases h
    | false =>
      -- the third token stands after the name of the first definition
      have hthird := congrArg (fun ts => ts.tail.tail.head?) h
      simp only [Decl.spell, Bool.false_eq_true, if_false, nil_append, cons_append,
        append_assoc] at hthird
      exact absurd hthird.symm (first.second_ne_openParen
        ((afterDefinition_others others k).1.head_ne rfl (Nat.zero_le 3)))
  next => rfl

theorem reads_topLevel {u : TopLevel} (hu : u.stratified = true) :
    Reads topLevel (u.spell ++ k) (fun u' => u'.erase = u.erase) k := by
  refine reads_get.bind fun c hc => ?_
  cases u with
  | function f =>
    rw [if_pos (atFunction_of_function hc)]
    exact (reads_function hu).bind fun f' hf' => .pure (congrArg TopLevel.function hf')
  | decl d =>
    rw [if_neg (by rw [atFunction_of_decl hc]; exact Bool.false_ne_true)]
    exact (reads_decl hu).bind fun d' hd' => .pure (congrArg TopLevel.decl hd')

theorem reads_topLevels {us : List TopLevel} (hus : us.all TopLevel.stratified = true)
    (hn : (us.flatMap TopLevel.spell).length ≤ n) :
    Reads (topLevels n) (us.flatMap TopLevel.spell)
      (fun us' => us'.map TopLevel.erase = us.map TopLevel.erase) [] := by
  induction us generalizing n with
  | nil =>
    cases n with
    | zero => exact .pure rfl
    | succ n =>
      refine reads_get.bind fun c hc => ?_
      rw [if_pos (isEmpty_iff.2 (map_eq_nil_iff.1 hc))]
      exact .pure rfl
  | cons u us ih =>
    obtain ⟨hu, hus⟩ := (Bool.and_eq_true _ _).mp hus
    have hpos := length_pos_iff.2 u.spell_ne_nil
    rw [flatMap_cons] at hn ⊢
    rw [length_append] at hn
    cases n with
    | zero => omega
    | succ n =>
      refine reads_get.bind fun c hc => ?_
      have hrest : ¬ c.rest.isEmpty = true := by
        intro h
        rw [Cursor.tokens, isEmpty_iff.1 h, map_nil, nil_eq_append_iff] at hc
        exact u.spell_ne_nil hc.1
      rw [if_neg hrest]
      refine (reads_topLevel hu).bind fun u' hu' => ?_
      refine (ih hus (by omega)).bind fun us' hus' => .pure ?_
      rw [map_cons, map_cons, hu', hus']

end Parser

/-- **The parser accepts the whole grammar.** Tokens that spell a stratified
program, wherever they stand, are parsed, and what is parsed is this program up
to places. -/
theorem Program.parse_of_spell {p : Program} (h : p.stratified = true)
    {tokens : List (Located Token)} (ht : tokens.map (·.value) = p.spell) :
    ∃ p', Program.parse tokens = .ok p' ∧ p'.erase = p.erase := by
  have hreads : Parser.Reads Parser.program p.spell (fun p' => p'.erase = p.erase) [] := by
    refine Parser.reads_remaining.bind fun n hn => ?_
    refine (Parser.reads_topLevels h (Nat.le_of_eq hn.symm)).bind fun us hus => .pure ?_
    rw [Program.erase, Program.erase, hus]
  obtain ⟨p', c, hrun, herase, -⟩ := hreads ⟨tokens, Span.origin⟩ ht
  refine ⟨p', ?_, herase⟩
  unfold Program.parse
  rw [hrun]
  rfl

/-- A program in which branches of an `if` end in a loop and in another `if`:
`const int n = 1; int f(int a[][2]) { if (n) while (n < 1) if (n) ; else ;
else if (n) { if (n) a[0] = -n * 2 - 1 - f(a, n); } else (n); }`. -/
def Program.branching : Program :=
  let x (name : String) : Expr := .lval default ⟨name, default⟩ []
  let number (text : String) : Expr := .number default text
  let product : Expr :=
    .binary default .mul (.unary default ⟨.minus, default⟩ (x "n")) (number "2")
  let difference : Expr := .binary default .sub (.binary default .sub product (number "1"))
    (.call default ⟨"f", default⟩ [x "a", x "n"])
  ⟨[.decl ⟨true, ⟨⟨"n", default⟩, [], some ⟨default, .expr (number "1")⟩⟩, []⟩,
    .function ⟨.int, ⟨"f", default⟩, [⟨⟨"a", default⟩, some [number "2"]⟩],
      .stmt (.if_ (.expr (x "n"))
        (.while_ (.compare default .less (.expr (x "n")) (.expr (number "1")))
          (.if_ (.expr (x "n")) (.eval none) (.else_ (.eval none))))
        (.elseIf (.expr (x "n"))
          (.block (.stmt (.if_ (.expr (x "n"))
            (.assign ⟨default, ⟨"a", default⟩, [number "0"]⟩ default difference) .done) .nil))
          (.else_ (.eval (some (.paren default (x "n"))))))) .nil⟩]⟩

theorem Program.parse_of_spell_branching :
    Program.branching.stratified = true ∧
      ∃ p, Program.parse (Program.branching.spell.map (⟨·, default⟩)) = .ok p ∧
        p.erase = Program.branching.erase :=
  ⟨by decide, Program.parse_of_spell (by decide)
    (by rw [List.map_map]; exact List.map_id _)⟩

end SysY
