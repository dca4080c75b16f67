import Mathlib.Data.List.Nodup
import SysY.Scope.Tree

/-!
# Lexical scoping

A scope tree grows by opening scopes and declaring names in them, in any order
and in any scope there is. However it has grown, the scopes from one outward
are finitely many (`Chain`), since a scope is opened after its parent; and a
name means what the innermost of them says that has declared it.

What has been declared is noted beside the tree (`Grown`): a refused
declaration leaves no note.
-/

namespace SysY.ScopeTree

open List

variable {α : Type} {t t' : ScopeTree α} {scopes : List (Scope α)} {scope : Scope α} {s : Nat}
  {chain : List Nat} {x : String} {a : α}

/-- **How a tree grows**: scopes are opened and names declared in scopes that
there are. The log has the declarations that succeeded, the latest first. -/
inductive Grown : List ((Nat × String) × α) → ScopeTree α → Prop
  | new : Grown [] new
  | openIn {log t p} (h : Grown log t) (hp : p < size t) : Grown log (openIn t p).1
  | declare {log t s x a t'} (h : Grown log t) (hs : s < size t) (ht : declare? t s x a = some t') :
      Grown (((s, x), a) :: log) t'
  | refuse {log t s x a} (h : Grown log t) (hs : s < size t) (ht : declare? t s x a = none) :
      Grown log t

/-- The scopes from one outward, up to one that has no parent. -/
inductive Chain (t : ScopeTree α) : Nat → List Nat → Prop
  | outermost {s : Nat} (h : t.parent? s = none) : Chain t s [s]
  | inner {s p : Nat} {chain : List Nat} (h : t.parent? s = some p) (tail : Chain t p chain) :
      Chain t s (s :: chain)

/-! ## Scopes of a tree -/

theorem lt_of_scopeAt? (h : scopeAt? scopes s = some scope) : s < scopes.length := by
  induction scopes with
  | nil => cases h
  | cons newest older ih =>
    rw [scopeAt?] at h
    split at h
    next heq => exact heq ▸ Nat.lt_succ_self _
    next => exact Nat.lt_succ_of_lt (ih h)

/-- A scope sees its own frame first. -/
theorem exists_path (hs : s < scopes.length) :
    ∃ scope outer, scopeAt? scopes s = some scope ∧ path scopes s = scope.frame :: outer := by
  induction scopes with
  | nil => cases hs
  | cons newest older ih =>
    rw [scopeAt?, path]
    split
    next => exact ⟨newest, _, rfl, rfl⟩
    next hne => exact ih (Nat.lt_of_le_of_ne (Nat.le_of_lt_succ hs) hne)

theorem length_insert (x : String) (a : α) (scopes : List (Scope α)) (s : Nat) :
    (insert x a scopes s).length = scopes.length := by
  induction scopes with
  | nil => rfl
  | cons newest older ih =>
    rw [insert]
    split
    · rfl
    · rw [length_cons, ih, length_cons]

/-- To put a name into one scope changes the frame of that scope only. -/
theorem scopeAt?_insert (x : String) (a : α) (scopes : List (Scope α)) (s r : Nat) :
    scopeAt? (insert x a scopes s) r = (scopeAt? scopes r).map fun scope =>
      if r = s then { scope with frame := (x, a) :: scope.frame } else scope := by
  induction scopes with
  | nil => rfl
  | cons newest older ih =>
    rw [insert, scopeAt?]
    split
    next heq =>
      subst heq
      rw [scopeAt?]
      split
      next => rfl
      next => simp
    next hne =>
      rw [scopeAt?, length_insert, ih]
      split
      next hr => rw [Option.map_some, if_neg (hr ▸ Ne.symm hne)]
      next => rfl

/-- Every parent is older than its scope. -/
def Aged (scopes : List (Scope α)) : Prop :=
  ∀ ⦃s scope p⦄, scopeAt? scopes s = some scope → scope.parent = some p → p < s

/-- **What a name means is said by the scope itself, or else by its parent.** -/
theorem lookup_path (haged : Aged scopes) (h : scopeAt? scopes s = some scope) (x : String) :
    (path scopes s).lookup x
      = (scope.frame.lookup x).or (scope.parent.bind fun p => (path scopes p).lookup x) := by
  induction scopes with
  | nil => cases h
  | cons newest older ih =>
    have hparent : (scope.parent.bind fun p => (path (newest :: older) p).lookup x)
        = scope.parent.bind fun p => (path older p).lookup x := by
      cases hp : scope.parent with
      | none => rfl
      | some p =>
        have hlt := Nat.lt_of_lt_of_le (haged h hp) (Nat.le_of_lt_succ (lt_of_scopeAt? h))
        exact congrArg (Env.lookup · x) (if_neg (Nat.ne_of_lt hlt))
    rw [hparent, path]
    rw [scopeAt?] at h
    split at h
    next heq =>
      cases h
      rw [if_pos heq, Env.lookup]
      cases scope.parent <;> rfl
    next hne =>
      rw [if_neg hne]
      refine ih (fun r scope p hr hp => haged (s := r) ?_ hp) h
      exact (if_neg (Nat.ne_of_lt (lt_of_scopeAt? hr))).trans hr

/-! ## What holds of a tree that has grown -/

variable {log : List ((Nat × String) × α)}

/-- The log has what the scopes of a tree have declared, and each of it once. -/
structure Logs (log : List ((Nat × String) × α)) (t : ScopeTree α) : Prop where
  aged : Aged t.scopes
  frame : ∀ {s scope}, scopeAt? t.scopes s = some scope → ∀ x, scope.frame.lookup x = log.lookup (s, x)
  bound : ∀ d ∈ log, d.1.1 < t.size
  once : (log.map (·.1)).Nodup

theorem lookup_eq_none {k : Nat × String} : log.lookup k = none ↔ k ∉ log.map (·.1) := by
  rw [lookup_eq_none_iff, mem_map]
  exact ⟨fun h ⟨d, hd, hk⟩ => by simpa [hk] using h d hd, fun h d hd => by simpa using fun hk => h ⟨d, hd, hk.symm⟩⟩

theorem lookup_cons_eq {κ : Type} [BEq κ] [LawfulBEq κ] [DecidableEq κ] (k k' : κ) (b : α) (l : List (κ × α)) :
    List.lookup k ((k', b) :: l) = if k = k' then some b else l.lookup k := by
  rw [lookup_cons]
  split <;> simp_all

theorem eq_of_declare? (hs : s < t.size) (h : t.declare? s x a = some t') : t' = ⟨insert x a t.scopes s⟩ := by
  obtain ⟨scope, -, hscope, -⟩ := exists_path hs
  rw [declare?, hscope] at h
  dsimp only at h
  split at h
  · cases h
  · exact (Option.some.inj h).symm

/-- **A declaration is refused if the scope itself has declared the name**, and
only then. -/
theorem Logs.declare?_eq_none (h : Logs log t) (hs : s < t.size) (x : String) (a : α) :
    t.declare? s x a = none ↔ (s, x) ∈ log.map (·.1) := by
  obtain ⟨scope, -, hscope, -⟩ := exists_path hs
  rw [declare?, hscope]
  dsimp only
  rw [h.frame hscope, ← not_iff_not, ← lookup_eq_none]
  cases log.lookup (s, x) <;> simp

/-- **The log is right**, however the tree has grown. -/
theorem Grown.logs (h : Grown log t) : Logs log t := by
  induction h with
  | new =>
    have hnew : ∀ {s scope}, scopeAt? [⟨none, []⟩] s = some scope → scope = (⟨none, []⟩ : Scope α) := by
      intro s scope h
      rw [scopeAt?, scopeAt?] at h
      split at h <;> cases h
      rfl
    refine ⟨fun s scope p h hp => ?_, fun {s scope} h x => ?_, by simp, nodup_nil⟩
    · rw [hnew h] at hp
      cases hp
    · rw [hnew h]
      rfl
  | @openIn log t p _ hp ih =>
    refine ⟨fun s scope q h hq => ?_, fun {s scope} h x => ?_, fun d hd => ?_, ih.once⟩
    · simp only [ScopeTree.openIn, scopeAt?] at h
      split at h
      next heq =>
        cases h
        cases hq
        exact heq ▸ hp
      next => exact ih.aged h hq
    · simp only [ScopeTree.openIn, scopeAt?] at h
      split at h
      next heq =>
        cases h
        -- declarations are in scopes that are older than the new one
        refine (lookup_eq_none.2 fun hmem => ?_).symm
        obtain ⟨d, hd, hkey⟩ := mem_map.1 hmem
        have hlt := ih.bound d hd
        rw [hkey] at hlt
        exact absurd heq (Nat.ne_of_lt hlt)
      next => exact ih.frame h x
    · exact Nat.lt_succ_of_lt (ih.bound d hd)
  | @declare log t s x a t' _ hs ht ih =>
    have hnot : (s, x) ∉ log.map (·.1) := fun hmem => by
      rw [(ih.declare?_eq_none hs x a).2 hmem] at ht
      cases ht
    cases eq_of_declare? hs ht
    refine ⟨fun r scope p h hp => ?_, fun {r scope} h y => ?_, ?_, nodup_cons.2 ⟨hnot, ih.once⟩⟩
    · rw [scopeAt?_insert] at h
      obtain ⟨scope, hscope, rfl⟩ := Option.map_eq_some_iff.1 h
      refine ih.aged hscope ?_
      split at hp <;> exact hp
    · rw [scopeAt?_insert] at h
      obtain ⟨scope, hscope, rfl⟩ := Option.map_eq_some_iff.1 h
      have hframe := ih.frame hscope
      rw [lookup_cons_eq]
      split
      next heq => simp [lookup_cons_eq, heq, hframe]
      next hne => simp [hne, hframe]
    · have hsize : size ⟨insert x a t.scopes s⟩ = t.size := length_insert ..
      rw [hsize]
      exact forall_mem_cons.2 ⟨hs, ih.bound⟩
  | refuse _ _ _ ih => exact ih

/-- Every chain of scopes ends. -/
theorem Logs.exists_chain (h : Logs log t) (s : Nat) : ∃ chain, t.Chain s chain := by
  induction s using Nat.strongRecOn with
  | ind s ih =>
    cases hp : t.parent? s with
    | none => exact ⟨_, .outermost hp⟩
    | some p =>
      obtain ⟨scope, hscope, hparent⟩ := Option.bind_eq_some_iff.1 hp
      obtain ⟨chain, hchain⟩ := ih p (h.aged hscope hparent)
      exact ⟨_, .inner hp hchain⟩

/-- **A name means what the innermost scope says that has declared it.** -/
theorem Logs.lookup (h : Logs log t) (hchain : t.Chain s chain) (hs : s < t.size) (x : String) :
    t.lookup s x = chain.findSome? fun c => log.lookup (c, x) := by
  have hmeans : ∀ {s scope}, scopeAt? t.scopes s = some scope →
      t.lookup s x = (log.lookup (s, x)).or (scope.parent.bind (t.lookup · x)) := fun hscope =>
    (lookup_path h.aged hscope x).trans (by rw [h.frame hscope]; rfl)
  induction hchain with
  | outermost hp =>
    obtain ⟨scope, -, hscope, -⟩ := exists_path hs
    have hparent : scope.parent = none := by rwa [parent?, hscope] at hp
    rw [hmeans hscope, hparent, findSome?_singleton]
    exact Option.or_none
  | inner hp _ ih =>
    obtain ⟨scope, hscope, hparent⟩ := Option.bind_eq_some_iff.1 hp
    rw [hmeans hscope, hparent, findSome?_cons, ← ih (Nat.lt_trans (h.aged hscope hparent) hs)]
    cases log.lookup _ <;> rfl

/-- A declaration does not change the scopes from one outward. -/
theorem Chain.insert {r : Nat} (h : t.Chain r chain) : Chain ⟨insert x a t.scopes s⟩ r chain := by
  have hparent : ∀ q, parent? ⟨ScopeTree.insert x a t.scopes s⟩ q = t.parent? q := by
    intro q
    rw [parent?, parent?, scopeAt?_insert]
    cases scopeAt? t.scopes q with
    | none => rfl
    | some scope =>
      show (if q = s then _ else scope).parent = scope.parent
      split <;> rfl
  induction h with
  | outermost h => exact .outermost ((hparent _).trans h)
  | inner h _ ih => exact .inner ((hparent _).trans h) ih

/-! ## Lexical scoping -/

/-- Whether a chain comes to a scope before another one that has declared a
name. -/
def reaches (log : List ((Nat × String) × α)) (x : String) (s : Nat) : List Nat → Bool
  | [] => false
  | c :: chain => c == s || (log.lookup (c, x)).isNone && reaches log x s chain

/-- Where one more declaration is found. -/
theorem findSome?_declared (log : List ((Nat × String) × α)) (s : Nat) (x : String) (a : α)
    (chain : List Nat) (y : String) :
    (chain.findSome? fun c => List.lookup (c, y) (((s, x), a) :: log))
      = if y = x ∧ reaches log x s chain then some a else chain.findSome? fun c => log.lookup (c, y) := by
  simp only [lookup_cons_eq, Prod.mk.injEq]
  by_cases hy : y = x
  · subst hy
    induction chain with
    | nil => simp [reaches]
    | cons c chain ih =>
      rw [findSome?_cons, findSome?_cons, reaches, ih]
      by_cases hc : c = s
      · simp [hc]
      · cases log.lookup (c, y) <;> simp [hc]
  · simp [hy]

/-- **Scope trees implement lexical scoping**, however they have grown. Of a name
in a scope at most one declaration succeeds. The scopes from any scope outward
are finitely many, and a name means there what the first of them says that has
declared it. A declaration is refused exactly if that scope itself has declared
the name. One that succeeds is seen from the scopes from which one comes to its
scope before another one that has declared the name, and changes nothing else. -/
theorem lexically_scoped (h : Grown log t) :
    (log.map (·.1)).Nodup ∧ ∀ s < t.size, ∃ chain, t.Chain s chain ∧
      (∀ x, t.lookup s x = chain.findSome? fun c => log.lookup (c, x)) ∧
      ∀ x a, (t.declare? s x a = none ↔ (s, x) ∈ log.map (·.1)) ∧
        ∀ t', t.declare? s x a = some t' → ∀ r < t.size, ∀ outward, t.Chain r outward → ∀ y,
          t'.lookup r y = if y = x ∧ reaches log x s outward then some a else t.lookup r y := by
  have hlogs := h.logs
  refine ⟨hlogs.once, fun s hs => ?_⟩
  obtain ⟨chain, hchain⟩ := hlogs.exists_chain s
  refine ⟨chain, hchain, hlogs.lookup hchain hs, fun x a =>
    ⟨hlogs.declare?_eq_none hs x a, fun t' ht r hr outward houtward y => ?_⟩⟩
  have hlogs' := (h.declare hs ht).logs
  cases eq_of_declare? hs ht
  rw [hlogs'.lookup houtward.insert (by rwa [size, length_insert]), hlogs.lookup houtward hr,
    findSome?_declared]

/-- A name is declared in the global scope, then in the middle one of three, and
then refused there: the innermost one sees the second declaration. -/
theorem lexically_scoped_nested :
    ∃ t : ScopeTree Nat, Grown [((1, "x"), 7), ((0, "x"), 5)] t ∧ t.lookup 2 "x" = some 7 ∧
      ∃ chain, t.Chain 2 chain ∧ t.lookup 2 "x" = chain.findSome? fun c =>
        List.lookup (c, "x") [((1, "x"), 7), ((0, "x"), 5)] := by
  have hglobal : Grown [((0, "x"), 5)] (⟨[⟨none, [("x", 5)]⟩]⟩ : ScopeTree Nat) :=
    Grown.new.declare (s := 0) (by decide) rfl
  have hopen := (hglobal.openIn (p := 0) (by decide)).openIn (p := 1) (by decide)
  have hdeclared := hopen.declare (s := 1) (x := "x") (a := 7) (by decide) rfl
  have hrefused := hdeclared.refuse (s := 1) (x := "x") (a := 9) (by decide) rfl
  obtain ⟨chain, hchain, hlookup, -⟩ := (lexically_scoped hrefused).2 2 (by decide)
  exact ⟨_, hrefused, rfl, chain, hchain, hlookup "x"⟩

end SysY.ScopeTree
