import SysY.Proofs.Grammar.Takes

/-!
# What a rule of the parser reads

`Parser.Reads` says that a rule succeeds on an input, what its value is like, and
which tokens it leaves. Where the input is the spelling of a tree and something
after it, the rule has to stop at the end of the spelling, which depends on what
comes next: `Stops r k` says that nothing at the front of `k` goes on an
expression whose operator has rank `r`.

A chain of operands is the hard case. After the left operand of an operator the
chain goes on, so that the left operand is never read by itself. What is true of
it is that the chain arrives at the end of its spelling with a value like it
(`chain_reaches`), from where it may go on or stop.
-/

namespace SysY

open List

/-- The rank of the operator that a token goes on an expression or a condition
with. An opening bracket or parenthesis after a name is a part of an operand. -/
def Token.rank? : Token → Option Nat
  | .mark .openBracket | .mark .openParen => some 0
  | .mark .times | .mark .slash | .mark .percent => some 2
  | .mark .plus | .mark .minus => some 3
  | .mark .less | .mark .greater | .mark .lessEqual | .mark .greaterEqual => some 4
  | .mark .equal | .mark .notEqual => some 5
  | .mark .and => some 6
  | .mark .or => some 7
  | _ => none

variable {t : Token}

theorem BinOp.rank?_eq {o : BinOp} {r : Nat} (h : t = o.token ∧ o.rank = r) : t.rank? = some r := by
  rw [h.1, ← h.2]
  cases o <;> rfl

theorem CmpOp.rank?_eq {o : CmpOp} {r : Nat} (h : t = o.token ∧ o.rank = r) : t.rank? = some r := by
  rw [h.1, ← h.2]
  cases o <;> rfl

theorem LogicOp.rank?_eq {o : LogicOp} {r : Nat} (h : t = o.token ∧ o.rank = r) :
    t.rank? = some r := by
  rw [h.1, ← h.2]
  cases o <;> rfl

namespace Parser

variable {α β γ : Type}

/-- A rule succeeds on an input: its value has a property, and these tokens are
left. -/
def Reads (p : Parser α) (input : List Token) (Q : α → Prop) (left : List Token) : Prop :=
  ∀ c, c.tokens = input → ∃ a c', p c = .ok (a, c') ∧ Q a ∧ c'.tokens = left

theorem run_bind {p : Parser α} {f : α → Parser β} {c c' : Cursor} {a : α}
    (h : p c = .ok (a, c')) : (p >>= f) c = f a c' := by
  show (p c >>= fun q => f q.1 q.2) = _
  rw [h]
  rfl

namespace Reads

variable {p : Parser α} {f : α → Parser β} {input mid left : List Token} {P Q : α → Prop}
  {R : β → Prop}

theorem mono (h : Reads p input P left) (hPQ : ∀ a, P a → Q a) : Reads p input Q left := by
  intro c hc
  obtain ⟨a, c', ha, hP, hc'⟩ := h c hc
  exact ⟨a, c', ha, hPQ a hP, hc'⟩

theorem pure {a : α} (h : Q a) : Reads (Pure.pure a) input Q input :=
  fun c hc => ⟨a, c, rfl, h, hc⟩

/-- **Two rules one after the other.** -/
theorem bind (hp : Reads p input P mid) (hf : ∀ a, P a → Reads (f a) mid R left) :
    Reads (p >>= f) input R left := by
  intro c hc
  obtain ⟨a, c1, ha, hP, hc1⟩ := hp c hc
  obtain ⟨b, c2, hb, hR, hc2⟩ := hf a hP c1 hc1
  exact ⟨b, c2, (run_bind ha).trans hb, hR, hc2⟩

end Reads

/-! ## Single tokens -/

section Tokens

variable {k : List Token}

theorem reads_peek : Reads peek k (· = k.head?) k := by
  intro c hc
  refine ⟨_, c, rfl, ?_, hc⟩
  rw [← hc, Cursor.tokens, head?_map]

theorem reads_peekSpan : Reads peekSpan k (fun _ => True) k := fun c hc =>
  ⟨_, c, rfl, trivial, hc⟩

theorem reads_lastSpan : Reads lastSpan k (fun _ => True) k := fun c hc =>
  ⟨_, c, rfl, trivial, hc⟩

theorem reads_spanFrom {s : Span} : Reads (spanFrom s) k (fun _ => True) k := fun c hc =>
  ⟨_, c, rfl, trivial, hc⟩

theorem reads_remaining : Reads remaining k (· = k.length) k := by
  intro c hc
  refine ⟨_, c, rfl, ?_, hc⟩
  rw [← hc, Cursor.tokens, length_map]

theorem reads_get : Reads get k (fun c => c.tokens = k) k := fun c hc => ⟨c, c, rfl, hc, hc⟩

variable {t : Token}

theorem reads_next : Reads next (t :: k) (fun u => u.value = t) k := by
  intro c hc
  obtain ⟨u, us, hrest, hu, hus⟩ := map_eq_cons_iff.1 hc
  refine ⟨u, ⟨us, u.span⟩, ?_, hu, hus⟩
  unfold next
  rw [hrest]

theorem reads_expect : Reads (expect t) (t :: k) (fun _ => True) k := by
  intro c hc
  obtain ⟨u, us, hrest, hu, hus⟩ := map_eq_cons_iff.1 hc
  refine ⟨(), ⟨us, u.span⟩, ?_, trivial, hus⟩
  unfold expect
  rw [hrest]
  exact if_pos hu

theorem reads_accept : Reads (accept t) (t :: k) (· = true) k := by
  refine reads_peek.bind fun o ho => ?_
  rw [if_pos (by rw [ho]; rfl)]
  exact reads_next.bind fun _ _ => .pure rfl

theorem reads_accept_ne (h : k.head? ≠ some t) : Reads (accept t) k (· = false) k := by
  refine reads_peek.bind fun o ho => ?_
  rw [if_neg (by rw [ho]; exact h)]
  exact .pure rfl

theorem reads_ident {x : String} : Reads ident (.ident x :: k) (fun y => y.value = x) k := by
  refine reads_next.bind fun t ht => ?_
  rw [ht]
  exact .pure rfl

end Tokens

/-! ## Repetition -/

section Repetition

variable {p : Parser α} {spell : α → List Token} {er : α → γ} {F : List Token → Prop} {t : Token}
  {k : List Token}

/-- Items that each follow a token are read, where each of them is read before
that token and before what is left. -/
theorem reads_manyAfter {xs : List α}
    (hp : ∀ x ∈ xs, ∀ k, F k → Reads p (spell x ++ k) (fun y => er y = er x) k)
    (hF : ∀ k, F (t :: k)) (hk : F k) (ht : k.head? ≠ some t) {n : Nat} (hn : xs.length ≤ n) :
    Reads (manyAfter t p n) ((xs.flatMap fun x => t :: spell x) ++ k)
      (fun ys => ys.map er = xs.map er) k := by
  induction xs generalizing n with
  | nil =>
    cases n with
    | zero => exact .pure rfl
    | succ n =>
      refine (reads_accept_ne ht).bind fun b hb => ?_
      subst hb
      exact .pure rfl
  | cons x xs ih =>
    cases n with
    | zero => exact absurd hn (Nat.not_succ_le_zero _)
    | succ n =>
      rw [flatMap_cons, append_assoc]
      refine reads_accept.bind fun b hb => ?_
      subst hb
      -- the next item, or what is left, stands after the first one
      have hnext : F ((xs.flatMap fun x => t :: spell x) ++ k) := by
        cases xs with
        | nil => exact hk
        | cons x xs => exact hF _
      refine (hp x mem_cons_self _ hnext).bind fun y hy => ?_
      refine (ih (fun x hx => hp x (mem_cons_of_mem _ hx))
        (Nat.le_of_succ_le_succ hn)).bind fun ys hys => ?_
      exact .pure (by rw [map_cons, map_cons, hy, hys])

theorem length_le_length_flatMap_cons (spell : α → List Token) (t : Token) (xs : List α) :
    xs.length ≤ (xs.flatMap fun x => t :: spell x).length := by
  induction xs with
  | nil => exact Nat.le_refl 0
  | cons x xs ih =>
    rw [flatMap_cons, length_append, length_cons, length_cons]
    omega

/-- **A list of items is read up to the mark that closes it.** -/
theorem reads_commaList {close : Mark} {xs : List α}
    (hp : ∀ x ∈ xs, ∀ k, F k → Reads p (spell x ++ k) (fun y => er y = er x) k)
    (hcomma : ∀ k, F (.mark .comma :: k)) (hclose : ∀ k, F (.mark close :: k))
    (hne : close ≠ .comma) (hhead : ∀ x ∈ xs, ∀ k, (spell x ++ k).head? ≠ some (.mark close)) :
    Reads (commaList close p) (spellList close (xs.map spell) ++ k)
      (fun ys => ys.map er = xs.map er) k := by
  cases xs with
  | nil =>
    refine reads_accept.bind fun b hb => ?_
    subst hb
    exact .pure rfl
  | cons x xs =>
    rw [map_cons, spellList, flatMap_map, append_assoc, append_assoc]
    refine (reads_accept_ne (hhead x mem_cons_self _)).bind fun b hb => ?_
    subst hb
    have hnext : F ((xs.flatMap fun x => .mark .comma :: spell x) ++ ([.mark close] ++ k)) := by
      cases xs with
      | nil => exact hclose k
      | cons x xs => exact hcomma _
    refine (hp x mem_cons_self _ hnext).bind fun y hy => ?_
    refine reads_remaining.bind fun n hn => ?_
    have hlength : xs.length ≤ n := by
      have := length_le_length_flatMap_cons spell (.mark .comma) xs
      rw [hn, length_append]
      omega
    refine (reads_manyAfter (fun x hx => hp x (mem_cons_of_mem _ hx)) hcomma (hclose k)
      (fun h => hne (Token.mark.inj (Option.some.inj h))) hlength).bind fun ys hys => ?_
    refine reads_expect.bind fun _ _ => ?_
    exact .pure (by rw [map_cons, map_cons, hy, hys])

/-! ## Chains -/

/-- Nothing at the front of the tokens goes on an expression of a rank. -/
def Stops (r : Nat) (k : List Token) : Prop := ∀ t ∈ k.head?, ∀ s ∈ t.rank?, r < s

theorem Stops.mono {r r' : Nat} (h : Stops r k) (hr : r' ≤ r) : Stops r' k :=
  fun t ht s hs => Nat.lt_of_le_of_lt hr (h t ht s hs)

theorem Stops.head_ne {r s : Nat} (h : Stops r k) (ht : t.rank? = some s) (hs : s ≤ r) :
    k.head? ≠ some t :=
  fun hk => Nat.not_lt.2 hs (h t hk s ht)

theorem stops_cons {r : Nat} (h : ∀ s ∈ t.rank?, r < s) : Stops r (t :: k) := by
  intro u hu
  obtain rfl : t = u := Option.some.inj hu
  exact h

theorem stops_of_rank?_eq_none {r : Nat} (h : t.rank? = none) : Stops r (t :: k) :=
  stops_cons fun s hs => absurd (h.symm.trans hs) (Option.some_ne_none s).symm

/-- What it is to spell a chain of operands: a chain (`High`) is an operand
(`Low`), or a chain, an operator and an operand. -/
structure Splits (op? : Token → Option β) (join : β → α → α → α) (spell : α → List Token)
    (er : α → γ) (Low High : α → Prop) : Prop where
  /-- The last operator of a chain that is no operand. -/
  split : ∀ {a}, High a → Low a ∨ ∃ t o x y, op? t = some o ∧ High x ∧ Low y ∧
    spell a = spell x ++ t :: spell y ∧ er a = er (join o x y)
  /-- What is joined counts up to likeness. -/
  join_congr : ∀ {o x x' y y'}, er x' = er x → er y' = er y → er (join o x' y') = er (join o x y)

variable {op? : Token → Option β} {join : β → α → α → α} {Low High : α → Prop}

theorem chainFrom_succ {u : Located Token} {us : List (Located Token)} {last : Span} {o : β}
    (ho : op? u.value = some o) (n : Nat) (v : α) :
    chainFrom p op? join (n + 1) v ⟨u :: us, last⟩
      = (p >>= fun rhs => chainFrom p op? join n (join o v rhs)) ⟨us, u.span⟩ := by
  have hpeek : peek ⟨u :: us, last⟩ = .ok (some u.value, ⟨u :: us, last⟩) := rfl
  rw [chainFrom, run_bind hpeek, Option.bind_some, ho]
  rfl

theorem chainFrom_stop {c : Cursor} (hc : c.tokens.head?.bind op? = none) (n : Nat) (v : α) :
    chainFrom p op? join n v c = .ok (v, c) := by
  cases n with
  | zero => rfl
  | succ n =>
    have hpeek : peek c = .ok (c.tokens.head?, c) := by
      rw [Cursor.tokens, head?_map]
      rfl
    rw [chainFrom, run_bind hpeek, hc]
    rfl

section Chain

variable {r m : Nat} (hops : ∀ {t o}, op? t = some o → t.rank? = some (r + 1))
  (hsplits : Splits op? join spell er Low High)
  (hp : ∀ a, Low a → (spell a).length ≤ m → ∀ k, Stops r k →
    Reads p (spell a ++ k) (fun b => er b = er a) k)

include hops hsplits hp

/-- **A chain arrives at the end of its spelling**, with a value like it and turns
left for the rest of the tokens. -/
theorem chain_reaches {a : α} (ha : High a) (hm : (spell a).length ≤ m) (hk : Stops r k)
    {c : Cursor} (hc : c.tokens = spell a ++ k) :
    ∃ n v c1, chain p op? join c = chainFrom p op? join n v c1 ∧ er v = er a ∧
      c1.tokens = k ∧ k.length ≤ n := by
  -- on the length of the spelling, since the left operand is a shorter chain
  induction hlength : (spell a).length using Nat.strongRecOn generalizing a k with
  | ind l ih =>
    obtain hlow | ⟨t, o, x, y, ho, hx, hy, hspell, her⟩ := hsplits.split ha
    · obtain ⟨v, c1, hv, hlike, hc1⟩ := hp a hlow hm k hk c hc
      have hturns : k.length = c1.rest.length := by rw [← hc1, Cursor.tokens, length_map]
      exact ⟨c1.rest.length, v, c1, run_bind hv, hlike, hc1, Nat.le_of_eq hturns⟩
    · rw [hspell, length_append, length_cons] at hm hlength
      rw [hspell, append_assoc] at hc
      have hnext : Stops r (t :: spell y ++ k) :=
        stops_cons fun s hs => Option.some.inj ((hops ho).symm.trans hs) ▸ Nat.lt_succ_self r
      obtain ⟨n, v, ⟨rest, last⟩, hrun, hlike, hrest, hn⟩ :=
        ih (spell x).length (by omega) hx (by omega) hnext hc rfl
      -- the operator is there, and the operand after it is read
      obtain ⟨u, us, rfl, rfl, hus⟩ := map_eq_cons_iff.1 hrest
      obtain ⟨y', c2, hy', hlike', hc2⟩ := hp y hy (by omega) k hk ⟨us, u.span⟩ hus
      cases n with
      | zero => exact absurd hn (Nat.not_succ_le_zero _)
      | succ n =>
        refine ⟨n, join o v y', c2, ?_, ?_, hc2, ?_⟩
        · rw [hrun, chainFrom_succ ho, run_bind hy']
        · rw [her, hsplits.join_congr hlike hlike']
        · rw [length_append, length_cons] at hn
          omega

/-- **A chain is read**, where nothing after it goes on one. -/
theorem reads_chain {a : α} (ha : High a) (hm : (spell a).length ≤ m) (hk : Stops (r + 1) k) :
    Reads (chain p op? join) (spell a ++ k) (fun b => er b = er a) k := by
  intro c hc
  obtain ⟨n, v, c1, hrun, hlike, hc1, -⟩ :=
    chain_reaches hops hsplits hp ha hm (hk.mono (Nat.le_succ r)) hc
  have hstop : c1.tokens.head?.bind op? = none := by
    rw [hc1]
    cases h : k.head?.bind op? with
    | none => rfl
    | some o =>
      obtain ⟨t, ht, ho⟩ := Option.bind_eq_some_iff.1 h
      exact absurd ht (hk.head_ne (hops ho) (Nat.le_refl _))
  exact ⟨v, c1, by rw [hrun, chainFrom_stop hstop], hlike, hc1⟩

end Chain

end Repetition

end Parser

end SysY
