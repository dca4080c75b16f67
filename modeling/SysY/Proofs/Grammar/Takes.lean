import SysY.Proofs.Grammar.Outline
import SysY.Syntax.Parser

/-!
# What a rule of the parser takes

A rule takes tokens from the front of its input and gives a value.
`Parser.Consumes` relates the value, the tokens taken and the tokens left,
whenever the rule succeeds, and is composed along the rules. It keeps the cursor
from which a rule starts, since a span may begin at a token that is only looked at
and end at one that an earlier rule has taken.

Of most rules it says that the value's outline is exact on the tokens taken
(`Parser.Outlined`): here of the rules that take one token, and of those that
repeat another one. `Parser.Takes` is the same without places.
-/

namespace SysY

open List

namespace Parser

variable {α β : Type}

/-- The tokens that are left, without their places. -/
def Cursor.tokens (c : Cursor) : List Token := c.rest.map (·.value)

/-- **Tokens are taken**: they are the first ones left, and the last of them is
the latest token taken. -/
def Cursor.Moves (c : Cursor) (ts : List (Located Token)) (c' : Cursor) : Prop :=
  c.rest = ts ++ c'.rest ∧ c'.last = (ts.getLast?.map (·.span)).getD c.last

namespace Cursor.Moves

variable {c c1 c2 : Cursor} {ts us : List (Located Token)} {t : Located Token}

theorem refl (c : Cursor) : c.Moves [] c := ⟨rfl, rfl⟩

theorem trans (h : c.Moves ts c1) (h' : c1.Moves us c2) : c.Moves (ts ++ us) c2 := by
  refine ⟨by rw [h.1, h'.1, append_assoc], ?_⟩
  rw [h'.2, h.2, getLast?_append]
  cases us.getLast? <;> rfl

theorem eq_of_nil (h : c.Moves [] c1) : c1 = c := by
  obtain ⟨rest, last⟩ := c1
  obtain ⟨hrest, hlast⟩ := h
  rw [nil_append] at hrest
  cases hrest
  cases hlast
  rfl

theorem head? (h : c.Moves (t :: ts) c1) : c.rest.head? = some t := by
  rw [h.1]
  rfl

theorem tokens (h : c.Moves ts c1) : c.tokens = ts.map (·.value) ++ c1.tokens := by
  rw [Cursor.tokens, h.1, map_append, Cursor.tokens]

/-- From the first token taken to the latest one. -/
theorem covers (h : c.Moves (t :: ts) c1) : (t.span.join c1.last).Covers (t :: ts) := by
  refine ⟨rfl, ?_⟩
  rw [h.2, getLast?_cons]
  rfl

end Cursor.Moves

theorem bind_eq_ok {p : Parser α} {f : α → Parser β} {c c' : Cursor} {b : β} :
    (p >>= f) c = .ok (b, c') ↔ ∃ a c1, p c = .ok (a, c1) ∧ f a c1 = .ok (b, c') := by
  show (p c >>= fun q => f q.1 q.2) = _ ↔ _
  cases p c with
  | error e => simp [bind, Except.bind]
  | ok q =>
    obtain ⟨a, c1⟩ := q
    simp [bind, Except.bind, and_assoc]

/-- What a rule does from a cursor if it succeeds: its value, the tokens that it
takes and the tokens that it leaves are related. -/
def Consumes (p : Parser α) (c : Cursor)
    (R : α → List (Located Token) → List Token → Prop) : Prop :=
  ∀ a c', p c = .ok (a, c') → ∃ ts, c.Moves ts c' ∧ R a ts c'.tokens

namespace Consumes

variable {p : Parser α} {f : α → Parser β} {c : Cursor}
  {R : α → List (Located Token) → List Token → Prop}
  {S : β → List (Located Token) → List Token → Prop}

theorem mono {R' : α → List (Located Token) → List Token → Prop} (h : Consumes p c R)
    (hR : ∀ a ts k, R a ts k → R' a ts k) : Consumes p c R' := by
  intro a c' ha
  obtain ⟨ts, hmoves, hrel⟩ := h a c' ha
  exact ⟨ts, hmoves, hR a ts _ hrel⟩

theorem pure {a : α} (h : R a [] c.tokens) : Consumes (Pure.pure a) c R := by
  intro b c' hb
  cases hb
  exact ⟨[], .refl c, h⟩

theorem fail {e : Error} : Consumes (fail e) c R := by
  intro a c' ha
  cases ha

/-- **Two rules one after the other**: the second one starts where the first
one stops. -/
theorem bind (hp : Consumes p c R)
    (hf : ∀ a ts c1, c.Moves ts c1 → R a ts c1.tokens →
      Consumes (f a) c1 fun b us k => S b (ts ++ us) k) :
    Consumes (p >>= f) c S := by
  intro b c' hb
  obtain ⟨a, c1, ha, hb⟩ := bind_eq_ok.1 hb
  obtain ⟨ts, hts, hR⟩ := hp a c1 ha
  obtain ⟨us, hus, hS⟩ := hf a ts c1 hts hR b c' hb
  exact ⟨ts ++ us, hts.trans hus, hS⟩

/-- A first rule that takes nothing. -/
theorem look {P : α → Prop} (hp : Consumes p c fun a ts _ => ts = [] ∧ P a)
    (hf : ∀ a, P a → Consumes (f a) c S) : Consumes (p >>= f) c S := by
  refine hp.bind fun a ts c1 hmoves h => ?_
  obtain ⟨rfl, ha⟩ := h
  cases hmoves.eq_of_nil
  exact hf a ha

/-- A value that is made of what a rule reads. -/
theorem map {g : α → β} (hp : Consumes p c R) (hg : ∀ a ts k, R a ts k → S (g a) ts k) :
    Consumes (p >>= fun a => Pure.pure (g a)) c S := by
  refine hp.bind fun a ts _ _ ha => .pure ?_
  rw [append_nil]
  exact hg a ts _ ha

end Consumes

/-- The value's outline is exact on the tokens taken, and the value has a
property. -/
def Outlined (outline : α → Outline) (Q : α → Prop) (a : α) (taken : List (Located Token))
    (_left : List Token) : Prop :=
  (outline a).Exact taken ∧ Q a

/-! ## Single tokens -/

section Tokens

variable {c : Cursor}

theorem consumes_peek : Consumes peek c fun o ts _ => ts = [] ∧ o = c.tokens.head? := by
  intro o c' ho
  cases ho
  exact ⟨[], .refl c, rfl, head?_map.symm⟩

theorem consumes_peekSpan : Consumes peekSpan c fun s ts _ =>
    ts = [] ∧ s = (c.rest.head?.map (·.span)).getD c.last := by
  intro s c' hs
  cases hs
  exact ⟨[], .refl c, rfl, rfl⟩

theorem consumes_lastSpan : Consumes lastSpan c fun s ts _ => ts = [] ∧ s = c.last := by
  intro s c' hs
  cases hs
  exact ⟨[], .refl c, rfl, rfl⟩

theorem consumes_spanFrom {s : Span} :
    Consumes (spanFrom s) c fun s' ts _ => ts = [] ∧ s' = s.join c.last :=
  consumes_lastSpan.look fun _ h => .pure ⟨rfl, h ▸ rfl⟩

theorem consumes_remaining :
    Consumes remaining c fun n ts _ => ts = [] ∧ n = c.tokens.length := by
  intro n c' hn
  cases hn
  exact ⟨[], .refl c, rfl, (length_map _).symm⟩

theorem consumes_get : Consumes get c fun a ts _ => ts = [] ∧ a = c := by
  intro a c' ha
  cases ha
  exact ⟨[], .refl c, rfl, rfl⟩

theorem consumes_next : Consumes next c fun t ts _ => ts = [t] := by
  intro t c' ht
  unfold next at ht
  split at ht
  next t' ts hrest =>
    cases ht
    exact ⟨[t], ⟨hrest, rfl⟩, rfl⟩
  next => cases ht

theorem consumes_expect {t : Token} : Consumes (expect t) c fun _ ts _ => ∃ s, ts = [⟨t, s⟩] := by
  intro u c' hu
  unfold expect at hu
  split at hu
  next f ts hrest =>
    split at hu
    next hf =>
      cases hu
      exact ⟨[f], ⟨hrest, rfl⟩, f.span, by rw [← hf]⟩
    next => cases hu
  next => cases hu

theorem consumes_accept (t : Token) : Consumes (accept t) c fun b ts _ =>
    if b then ∃ s, ts = [⟨t, s⟩] else ts = [] ∧ c.tokens.head? ≠ some t := by
  unfold accept
  refine consumes_peek.look fun o ho => ?_
  split
  next hsome =>
    refine consumes_next.bind fun u ts c1 hmoves hts => .pure ?_
    subst hts
    rw [ho, hmoves.tokens] at hsome
    exact ⟨u.span, by rw [← Option.some.inj hsome]; rfl⟩
  next hnone => exact .pure ⟨rfl, ho ▸ hnone⟩

theorem consumes_ident : Consumes ident c fun x ts _ => ts = [⟨.ident x.value, x.span⟩] := by
  refine consumes_next.bind fun t ts c1 _ hts => ?_
  split
  next name hname =>
    refine .pure ?_
    rw [hts, ← hname]
    rfl
  next => exact .fail

/-- A trial that fails leaves everything as it is. -/
theorem consumes_attempt {p : Parser α} {R : α → List (Located Token) → List Token → Prop}
    (hp : Consumes p c R) :
    Consumes (attempt p) c fun o ts k => o.elim (ts = []) fun a => R a ts k := by
  intro o c' ho
  unfold attempt at ho
  split at ho
  next a _ ha =>
    cases ho
    exact hp a c' ha
  next =>
    cases ho
    exact ⟨[], .refl c, rfl⟩

end Tokens

/-! ## Repetition -/

section Repetition

variable {p : Parser α} {outline : α → Outline} {Q : α → Prop}

theorem consumes_manyAfter (hp : ∀ c, Consumes p c (Outlined outline Q)) (t : Token) (n : Nat)
    (c : Cursor) :
    Consumes (manyAfter t p n) c
      (Outlined (fun xs => .after t (xs.map outline)) fun xs => ∀ x ∈ xs, Q x) := by
  induction n generalizing c with
  | zero => exact .pure ⟨.nil, fun _ h => absurd h not_mem_nil⟩
  | succ n ih =>
    refine (consumes_accept t).bind fun b ts c1 _ hb => ?_
    cases b with
    | false =>
      obtain ⟨rfl, -⟩ := hb
      exact .pure ⟨.nil, fun _ h => absurd h not_mem_nil⟩
    | true =>
      obtain ⟨s, rfl⟩ : ∃ s, ts = [⟨t, s⟩] := hb
      refine (hp c1).bind fun x us c2 _ hx => (ih c2).map fun xs vs _ hxs => ?_
      exact ⟨.token ⟨t, s⟩ (hx.1.append hxs.1), forall_mem_cons.2 ⟨hx.2, hxs.2⟩⟩

theorem consumes_commaList (hp : ∀ c, Consumes p c (Outlined outline Q)) (close : Mark)
    (c : Cursor) :
    Consumes (commaList close p) c
      (Outlined (fun xs => .list close (xs.map outline)) fun xs => ∀ x ∈ xs, Q x) := by
  refine (consumes_accept _).bind fun b ts c1 _ hb => ?_
  cases b with
  | true =>
    obtain ⟨s, rfl⟩ : ∃ s, ts = [⟨.mark close, s⟩] := hb
    exact .pure ⟨.single ⟨_, s⟩, fun _ h => absurd h not_mem_nil⟩
  | false =>
    obtain ⟨rfl, -⟩ := hb
    refine (hp c1).bind fun x us c2 _ hx => ?_
    refine consumes_remaining.look fun n _ => ?_
    refine (consumes_manyAfter hp _ n c2).bind fun xs vs c3 _ hxs => ?_
    refine consumes_expect.map fun _ ws _ hws => ?_
    obtain ⟨s, rfl⟩ := hws
    exact ⟨hx.1.append (hxs.1.append (.single ⟨_, s⟩)), forall_mem_cons.2 ⟨hx.2, hxs.2⟩⟩

/-- What it is to read a chain of operands: the operators that join them, and
which values are operands (`Low`) and which are chains (`High`). -/
structure Joins (op? : Token → Option β) (join : β → α → α → α) (outline : α → Outline)
    (Low High : α → Prop) : Prop where
  /-- The operator stands between the operands. -/
  exact_join : ∀ {t : Located Token} {o}, op? t.value = some o → ∀ {a b ts us},
    (outline a).Exact ts → (outline b).Exact us → (outline (join o a b)).Exact (ts ++ ([t] ++ us))
  /-- Chains are prolonged on the right, by an operand. -/
  high_join : ∀ {t o}, op? t = some o → ∀ {a b}, High a → Low b → High (join o a b)
  /-- An operand alone is a chain. -/
  high_of_low : ∀ {a}, Low a → High a

variable {op? : Token → Option β} {join : β → α → α → α} {Low High : α → Prop}

theorem consumes_chainFrom (hjoins : Joins op? join outline Low High)
    (hp : ∀ c, Consumes p c (Outlined outline Low)) (n : Nat) {lhs : α}
    {ts : List (Located Token)} (hexact : (outline lhs).Exact ts) (hlhs : High lhs) (c : Cursor) :
    Consumes (chainFrom p op? join n lhs) c fun a us _ =>
      (outline a).Exact (ts ++ us) ∧ High a := by
  induction n generalizing lhs ts c with
  | zero => exact .pure ⟨by rwa [append_nil], hlhs⟩
  | succ n ih =>
    refine consumes_peek.look fun o ho => ?_
    split
    next op hop =>
      refine consumes_next.bind fun t us c1 hmoves hus => ?_
      subst hus
      -- the operator is the token that was seen
      have ht : op? t.value = some op := by
        rw [ho, hmoves.tokens] at hop
        exact hop
      refine (hp c1).bind fun rhs vs c2 _ hrhs => ?_
      have hrest := ih (hjoins.exact_join ht hexact hrhs.1) (hjoins.high_join ht hlhs hrhs.2) c2
      simpa only [append_assoc] using hrest
    next => exact .pure ⟨by rwa [append_nil], hlhs⟩

/-- **A chain of operands is outlined by what is taken for it.** -/
theorem consumes_chain (hjoins : Joins op? join outline Low High)
    (hp : ∀ c, Consumes p c (Outlined outline Low)) (c : Cursor) :
    Consumes (chain p op? join) c (Outlined outline High) := by
  refine (hp c).bind fun lhs ts c1 _ hlhs => ?_
  refine consumes_remaining.look fun n _ => ?_
  exact consumes_chainFrom hjoins hp n hlhs.1 (hjoins.high_of_low hlhs.2) c1

end Repetition

/-! ## Without places -/

/-- What a rule does if it succeeds on an input: its value, the tokens that it
takes and the tokens that it leaves are related. -/
def Takes (p : Parser α) (input : List Token) (R : α → List Token → List Token → Prop) : Prop :=
  ∀ c a c', c.tokens = input → p c = .ok (a, c') →
    ∃ taken, input = taken ++ c'.tokens ∧ R a taken c'.tokens

namespace Takes

variable {p : Parser α} {f : α → Parser β} {input : List Token}
  {R : α → List Token → List Token → Prop} {S : β → List Token → List Token → Prop}

theorem of_consumes
    (h : ∀ c, c.tokens = input → Consumes p c fun a ts k => R a (ts.map (·.value)) k) :
    Takes p input R := by
  intro c a c' hc ha
  obtain ⟨ts, hmoves, hR⟩ := h c hc a c' ha
  exact ⟨_, hc ▸ hmoves.tokens, hR⟩

theorem pure {a : α} (h : R a [] input) : Takes (Pure.pure a) input R :=
  .of_consumes fun _ hc => .pure (hc ▸ h)

theorem bind (hp : Takes p input R)
    (hf : ∀ a ts k, input = ts ++ k → R a ts k → Takes (f a) k fun b us k1 => S b (ts ++ us) k1) :
    Takes (p >>= f) input S := by
  intro c b c' hc hb
  obtain ⟨a, c1, ha, hb⟩ := bind_eq_ok.1 hb
  obtain ⟨ts, hts, hR⟩ := hp c a c1 hc ha
  obtain ⟨us, hus, hS⟩ := hf a ts _ hts hR c1 b c' rfl hb
  exact ⟨ts ++ us, by rw [hts, hus, append_assoc], hS⟩

theorem look {P : α → Prop} (hp : Takes p input fun a ts _ => ts = [] ∧ P a)
    (hf : ∀ a, P a → Takes (f a) input S) : Takes (p >>= f) input S := by
  refine hp.bind fun a ts k hinput h => ?_
  obtain ⟨rfl, ha⟩ := h
  rw [nil_append] at hinput
  exact hinput ▸ hf a ha

end Takes

theorem takes_remaining {input : List Token} :
    Takes remaining input fun n ts _ => ts = [] ∧ n = input.length :=
  .of_consumes fun _ hc => consumes_remaining.mono fun _ _ _ h => ⟨by rw [h.1]; rfl, hc ▸ h.2⟩

end Parser

end SysY
