import Mathlib.Data.Nat.Digits.Defs
import SysY.Proofs.Countable
import SysY.Proofs.Reports
import SysY.Proofs.Scan.Lossless

/-!
# What literals denote

The texts that are integer literals are told by their form (`Denotes`): a zero,
a decimal number that does not begin with one, octal digits after a zero, or
hexadecimal digits after a zero and an `x`. Decoding gives the number that such
a text denotes, as a word, if it has no more than 32 bits.

The scanner yields no literal that cannot be decoded, so lowering never meets
one in the program that a text spells.
-/

namespace SysY

namespace Literal

/-! ## Forms -/

/-- A character is a digit of `radix`, which is at most 16, and stands for `d`. -/
def IsDigit (radix : Nat) (c : Char) (d : Nat) : Prop :=
  d < radix ∧ ("0123456789abcdef".toList[d]? = some c ∨ "0123456789ABCDEF".toList[d]? = some c)

/-- **The forms of literals**, and the numbers that they denote. -/
inductive Denotes : List Char → Nat → Prop
  | zero : Denotes ['0'] 0
  | decimal {c cs} {ds : List Nat} : c ≠ '0' →
    List.Forall₂ (IsDigit 10) (c :: cs) ds → Denotes (c :: cs) (Nat.ofDigits 10 ds.reverse)
  | octal {c cs} {ds : List Nat} :
    List.Forall₂ (IsDigit 8) (c :: cs) ds → Denotes ('0' :: c :: cs) (Nat.ofDigits 8 ds.reverse)
  | hexadecimal {x c cs} {ds : List Nat} : x = 'x' ∨ x = 'X' →
    List.Forall₂ (IsDigit 16) (c :: cs) ds → Denotes ('0' :: x :: c :: cs) (Nat.ofDigits 16 ds.reverse)

/-! ## Digits -/

/-- Where characters that follow each other stand in a table. -/
theorem getElem?_run {table : List Char} {first c : Char} {n m : Nat}
    (h : ∀ k < n, table[k + m]? = some (Char.ofNat (first.toNat + k)))
    (hle : first.toNat ≤ c.toNat) (hlt : c.toNat < first.toNat + n) :
    table[c.toNat - first.toNat + m]? = some c := by
  rw [h _ (by omega), Nat.add_sub_cancel' hle, Char.ofNat_toNat]

theorem digit?_eq_some_iff {radix : Nat} (hradix : radix ≤ 16) {c : Char} {d : Nat} :
    digit? radix c = some d ↔ IsDigit radix c d := by
  unfold IsDigit
  constructor
  · intro h
    obtain ⟨hsome, hlt⟩ := Option.filter_eq_some_iff.1 h
    refine ⟨of_decide_eq_true hlt, ?_⟩
    split_ifs at hsome with hdigit hlower hupper <;> cases hsome
    · exact .inl (getElem?_run (n := 10) (m := 0) (by decide) hdigit.1 (Nat.lt_succ_of_le hdigit.2))
    · exact .inl (getElem?_run (n := 6) (by decide) hlower.1 (Nat.lt_succ_of_le hlower.2))
    · exact .inr (getElem?_run (n := 6) (by decide) hupper.1 (Nat.lt_succ_of_le hupper.2))
  · have hall : ∀ d < 16, ("0123456789abcdef".toList[d]?).bind (digit? 16) = some d ∧
      ("0123456789ABCDEF".toList[d]?).bind (digit? 16) = some d := by decide
    rintro ⟨hlt, hc⟩
    have hd := hall d (Nat.lt_of_lt_of_le hlt hradix)
    have hvalue : digit? 16 c = some d := by
      rcases hc with hc | hc <;> rw [hc] at hd
      · exact hd.1
      · exact hd.2
    exact Option.filter_eq_some_iff.2 ⟨(Option.filter_eq_some_iff.1 hvalue).1, decide_eq_true hlt⟩

/-- **Reading digits overflows exactly when their number does.** -/
theorem ofDigits?_eq {radix : Nat} (hradix : 0 < radix) (ds : List Nat) :
    ofDigits? radix ds = checked wordLimit (Nat.ofDigits radix ds.reverse) := by
  have hstep (n d : Nat) : ((checked wordLimit (n * radix)).bind fun n => checked wordLimit (n + d)) =
      checked wordLimit (d + radix * n) := by
    rw [Nat.mul_comm radix, Nat.add_comm d]
    exact checked_bind (Nat.le_add_right ..)
  simp only [ofDigits?, hstep]
  rw [Nat.ofDigits_eq_foldr, List.foldr_reverse]
  exact foldlM_checked (fun d _ n => Nat.le_add_left_of_le (Nat.le_mul_of_pos_left n hradix)) (by decide)

theorem split_pos (cs : List Char) : 0 < (split cs).1 := by
  unfold split
  split
  · split <;> exact Nat.succ_pos _
  · exact Nat.succ_pos _
  · exact Nat.succ_pos _

/-- **A literal is split into its radix and its digits.** -/
theorem denotes_iff {cs : List Char} {n : Nat} :
    Denotes cs n ↔ ∃ ds, digits? (split cs).1 (split cs).2 = some ds ∧
      Nat.ofDigits (split cs).1 ds.reverse = n := by
  have hdigits : ∀ {radix : Nat} {c : Char} {cs : List Char} {ds : List Nat}, radix ≤ 16 →
      (digits? radix (c :: cs) = some ds ↔ List.Forall₂ (IsDigit radix) (c :: cs) ds) :=
    fun hradix => by
      simp only [digits?, List.isEmpty_cons, Bool.false_eq_true, if_false, Scan.mapM_eq_some_iff,
        digit?_eq_some_iff hradix]
  constructor
  · intro h
    cases h with
    | zero => exact ⟨[0], by decide, by decide⟩
    | @decimal c cs ds hc h =>
      have hsplit : split (c :: cs) = (10, c :: cs) := by
        unfold split
        split <;> simp_all
      rw [hsplit]
      exact ⟨ds, (hdigits (by simp)).2 h, rfl⟩
    | @octal c cs ds h =>
      have hsplit : split ('0' :: c :: cs) = (8, c :: cs) := by
        -- the mark of the other radix is no octal digit
        have hx : ¬ (c = 'x' ∨ c = 'X') := by
          cases h with
          | cons hc =>
            have hc := (digit?_eq_some_iff (by decide)).2 hc
            rintro (rfl | rfl) <;> cases hc
        cases cs with
        | nil => rfl
        | cons d cs => exact if_neg hx
      rw [hsplit]
      exact ⟨ds, (hdigits (by simp)).2 h, rfl⟩
    | @hexadecimal x c cs ds hx h =>
      have hsplit : split ('0' :: x :: c :: cs) = (16, c :: cs) := if_pos hx
      rw [hsplit]
      exact ⟨ds, (hdigits (by simp)).2 h, rfl⟩
  · rintro ⟨ds, hds, rfl⟩
    unfold split at hds ⊢
    split at hds
    next x c cs =>
      split at hds
      next hx =>
        rw [if_pos hx]
        exact .hexadecimal hx ((hdigits (by decide)).1 hds)
      next hx =>
        rw [if_neg hx]
        exact .octal ((hdigits (by decide)).1 hds)
    next c cs _ =>
      exact .octal ((hdigits (by decide)).1 hds)
    next hlong hshort =>
      cases cs with
      | nil => cases hds
      | cons c cs =>
        by_cases hc : c = '0'
        · subst hc
          cases cs with
          | nil =>
            cases hds
            exact .zero
          | cons d cs => exact absurd rfl (hshort d cs)
        · exact .decimal hc ((hdigits (by decide)).1 hds)

/-! ## Decoding -/

theorem toInt_ofNat {n : Nat} (h : n < 0x100000000) :
    (Int32.ofNat n).toInt = if n < 0x80000000 then (n : Int) else n - 0x100000000 := by
  show (BitVec.ofNat 32 n).toInt = _
  rw [BitVec.toInt_eq_toNat_cond, BitVec.toNat_ofNat]
  omega

/-- Where the characters take a byte each, **a text is decoded by its form**. -/
theorem decode_cases {t : String} (hascii : ∀ c ∈ t.toList, c.toNat < 128) :
    (∃ n, Denotes t.toList n ∧ (∀ n', Denotes t.toList n' → n' = n) ∧
      decode t = if n < 0x100000000 then .ok (Int32.ofNat n) else .error (.error .overflow)) ∨
    (∀ n, ¬ Denotes t.toList n) ∧ decode t = .error (.error (.malformed t)) := by
  have hboundary : boundary 2 t.toList = true := Scan.boundary_two fun c hc => by
    rw [Char.utf8Size]
    exact if_pos (Nat.le_of_lt_succ (hascii c (List.mem_of_mem_take hc)))
  simp only [denotes_iff]
  rw [decode, if_pos hboundary]
  unfold value
  have hradix := split_pos t.toList
  cases hsplit : split t.toList with
  | mk radix rest =>
    rw [hsplit] at hradix
    dsimp only
    cases digits? radix rest with
    | none => exact .inr ⟨by simp, by rw [String.ofList_toList]⟩
    | some ds =>
      refine .inl ⟨_, ⟨ds, rfl, rfl⟩, by simp, ?_⟩
      dsimp only
      rw [ofDigits?_eq hradix, checked, wordLimit]
      by_cases hlt : Nat.ofDigits radix ds.reverse < 0x100000000
      · rw [if_pos hlt, if_pos hlt]
      · rw [if_neg hlt, if_neg hlt]

end Literal

/-- **Literals are decoded exactly.** -/
theorem Program.literals_decode :
    (∀ t : String, (∀ c ∈ t.toList, c.toNat < 128) →
      (∀ v : Int32, Literal.decode t = .ok v ↔ ∃ n, Literal.Denotes t.toList n ∧ n < 0x100000000 ∧
        v.toInt = if n < 0x80000000 then (n : Int) else n - 0x100000000) ∧
      (Literal.decode t = .error (.error .overflow) ↔
        ∃ n, Literal.Denotes t.toList n ∧ 0x100000000 ≤ n) ∧
      ((∀ n, ¬ Literal.Denotes t.toList n) → Literal.decode t = .error (.error (.malformed t)))) ∧
    (∀ text tokens, Scan.tokens (Input.ofString text) = .ok tokens → ∀ t ∈ tokens,
      ∀ literal, t.value = .number literal → ∃ v, Literal.decode literal = .ok v) ∧
    ∀ text p, Program.ofText text = .ok p →
      ∀ e span, p.lower.result ≠ .error (.error ⟨.literal e, span⟩) := by
  refine ⟨fun t hascii => ?_, fun text tokens htokens t ht literal hliteral => ?_,
    fun text p hp e span => ?_⟩
  · obtain ⟨n, hn, huniq, hdecode⟩ | ⟨hno, hdecode⟩ := Literal.decode_cases hascii
    · rw [hdecode]
      refine ⟨fun v => ?_, ?_, fun hno => absurd hn (hno n)⟩
      · split
        next hlt =>
          rw [Except.ok.injEq, ← Int32.toInt_inj, Literal.toInt_ofNat hlt]
          grind
        next => grind
      · grind
    · rw [hdecode]
      grind
  · obtain ⟨v, hv⟩ : Scan.Valued (.number literal) := hliteral ▸ Scan.valued_of_tokens htokens ht
    exact ⟨v, Scan.decode_of_value hv⟩
  · have hsettles : Lower.Settles (fun s => ∃ f, s = .fault f) p.lower.result
        fun _ => ∀ v ∈ p.declared, v.fits = true := by
      refine Lower.lowerUnits_settles [] .start (fun u hu literal hliteral span s hs => ?_)
        fun _ _ _ => ⟨_, rfl⟩
      obtain ⟨v, hv⟩ := Program.valued_of_ofText hp (List.mem_flatMap.2 ⟨u, hu, hliteral⟩)
      rw [Lower.literal, Scan.decode_of_value hv] at hs
      cases hs
    intro hresult
    rw [hresult] at hsettles
    obtain ⟨f, hf⟩ := hsettles
    cases hf

/-- All bits of a word, one bit too many, and an octal digit that is none. -/
theorem Program.literals_decode_words :
    Literal.Denotes "0xFFFFFFFF".toList 0xFFFFFFFF ∧ Literal.decode "0xFFFFFFFF" = .ok (-1) ∧
    Literal.Denotes "4294967296".toList 0x100000000 ∧
      Literal.decode "4294967296" = .error (.error .overflow) ∧
    (∀ n, ¬ Literal.Denotes "08".toList n) ∧ Literal.decode "08" = .error (.error (.malformed "08")) ∧
    ∃ p, Program.ofText "int main() \x7b return 0x80000000; \x7d" = .ok p ∧
      .number "0x80000000" ∈ p.spell ∧ ∀ e span, p.lower.result ≠ .error (.error ⟨.literal e, span⟩) := by
  obtain ⟨hdecode, -, hlower⟩ := Program.literals_decode
  have hword : Literal.Denotes "0xFFFFFFFF".toList 0xFFFFFFFF :=
    Literal.denotes_iff.2 ⟨List.replicate 8 15, by decide, by decide⟩
  have hlarge : Literal.Denotes "4294967296".toList 0x100000000 :=
    Literal.denotes_iff.2 ⟨[4, 2, 9, 4, 9, 6, 7, 2, 9, 6], by decide, by decide⟩
  have hnone : ∀ n, ¬ Literal.Denotes "08".toList n := by
    intro n h
    obtain ⟨ds, hds, -⟩ := Literal.denotes_iff.1 h
    cases hds
  obtain ⟨p, hp, hspell⟩ : ∃ p, Program.ofText "int main() \x7b return 0x80000000; \x7d" = .ok p ∧
      .number "0x80000000" ∈ p.spell := Program.exists_ofText (by decide +kernel)
  have hascii {t : String} (h : t.toList.all (·.toNat < 128) = true) :
      ∀ c ∈ t.toList, c.toNat < 128 := fun c hc => of_decide_eq_true (List.all_eq_true.1 h c hc)
  exact ⟨hword, ((hdecode _ (hascii rfl)).1 (-1)).2 ⟨_, hword, by decide, by decide⟩, hlarge,
    (hdecode _ (hascii rfl)).2.1.2 ⟨_, hlarge, by decide⟩, hnone, (hdecode _ (hascii rfl)).2.2 hnone,
    p, hp, hspell, hlower _ p hp⟩

end SysY
