import SysY.Proofs.Rename.Lower
import SysY.Proofs.Source

/-!
# The names of local declarations do not matter

`Program.rename_accepted_lowers`: an accepted program with a local declaration
renamed is accepted, and is lowered to the same module.

This asks that no definition reads its own name early where that matters. A
name is in scope in its own dimensions and initial value when the program is
judged, but the lowering evaluates the dimensions, and the value of a constant,
before it brings the name into scope. So in

    const int x = 1;
    int main() { const int x = x; return x; }

the judgement takes the `x` in the initial value for the local constant, while
the lowering takes it for the global one. Renaming the local constant to `y`
makes the initial value `y` too, which means nothing to the lowering
(`Program.rename_own_value_fails`).
-/

namespace SysY

open List

/-! ## The declarations of a renamed program -/

namespace Renaming

variable {r : Renaming}

/-- The names that declarations from here on have after the renaming. -/
def given (r : Renaming) (names : List String) : List String :=
  match r.before with
  | some k => names.set k r.newName
  | none => names

theorem given_nil : r.given [] = [] := by
  unfold given
  split <;> rfl

theorem given_append (xs ys : List String) :
    r.given (xs ++ ys) = r.given xs ++ (r.skip xs.length).given ys := by
  unfold given skip
  cases r.before with
  | none => rfl
  | some k =>
    by_cases hk : k < xs.length
    · simp [hk]
    · simp [hk, set_append, set_eq_of_length_le (Nat.le_of_not_lt hk)]

theorem given_singleton (x : Ident) : r.given [x.value] = [(r.declare x).name x.value] := by
  unfold given
  by_cases hnext : r.before = some 0
  · rw [name_declare_of_next hnext, hnext]
    rfl
  · rw [name_declare_of_not_next hnext]
    cases hb : r.before with
    | none => rfl
    | some k =>
      cases k with
      | zero => exact absurd hb hnext
      | succ k => rfl

/-- Declarations that follow do not depend on what is in scope. -/
theorem given_congr {r' : Renaming} (hname : r.newName = r'.newName) (hb : r.before = r'.before)
    (names : List String) : r.given names = r'.given names := by
  unfold given
  rw [hname, hb]

theorem skip_skip (m n : Nat) : ((r.skip m).skip n).before = (r.skip (m + n)).before := by
  unfold skip
  cases r.before with
  | none => rfl
  | some k =>
    simp only [Option.bind_some]
    split
    · rw [if_pos (by omega)]
      rfl
    · simp only [Option.bind_some]
      split
      · rw [if_pos (by omega)]
      · rw [if_neg (by omega), Nat.sub_sub]

theorem before_declareAll (xs : List Ident) :
    (r.declareAll xs).before = (r.skip xs.length).before := by
  induction xs generalizing r with
  | nil =>
    unfold declareAll skip
    cases r.before <;> rfl
  | cons x xs ih =>
    rw [declareAll, ih, length_cons, Nat.add_comm, ← skip_skip]
    rfl

/-- The names of things that declare one each, after the renaming. -/
theorem names_through {α : Type} {name : α → Ident} {rename : Renaming → α → α}
    (hname : ∀ r x, name (rename r x) = (r.declare (name x)).ident (name x)) (xs : List α) :
    (r.through name rename xs).map (fun x => (name x).value)
      = r.given (xs.map fun x => (name x).value) := by
  induction xs generalizing r with
  | nil => exact given_nil.symm
  | cons x xs ih =>
    have happend := r.given_append [(name x).value] (xs.map fun x => (name x).value)
    rw [given_singleton] at happend
    rw [through, map_cons, ih, hname]
    exact happend.symm

end Renaming

section Locals

/-- The names that are declared, without their places. -/
def declaredNames (xs : List Ident) : List String := xs.map (·.value)

theorem declaredNames_append (xs ys : List Ident) :
    declaredNames (xs ++ ys) = declaredNames xs ++ declaredNames ys :=
  map_append

theorem length_declaredNames (xs : List Ident) : (declaredNames xs).length = xs.length :=
  length_map _

theorem Decl.names_rename (r : Renaming) (d : Decl) :
    declaredNames (d.rename r).names = r.given (declaredNames d.names) := by
  unfold declaredNames Decl.names
  rw [Decl.definitions_rename, map_map, map_map]
  exact Renaming.names_through (fun _ _ => rfl) d.definitions

mutual

theorem Stmt.locals_rename : ∀ (s : Stmt) (r : Renaming),
    declaredNames (s.rename r).locals = r.given (declaredNames s.locals)
  | .block b, r => Block.locals_rename b r.enter
  | .if_ c s rest, r => by
    rw [Stmt.rename, Stmt.locals, Stmt.locals, declaredNames_append, declaredNames_append,
      Renaming.given_append, Stmt.locals_rename s r, Otherwise.locals_rename rest,
      length_declaredNames]
  | .while_ c s, r => Stmt.locals_rename s r
  | .assign .., _ | .eval _, _ | .break_ _, _ | .continue_ _, _ | .return_ .., _ =>
    Renaming.given_nil.symm

theorem Block.locals_rename : ∀ (b : Block) (r : Renaming),
    declaredNames (b.rename r).locals = r.given (declaredNames b.locals)
  | .nil, _ => Renaming.given_nil.symm
  | .decl d rest, r => by
    rw [Block.rename, Block.locals, Block.locals, declaredNames_append, declaredNames_append,
      Renaming.given_append, Decl.names_rename, Block.locals_rename rest, length_declaredNames]
    refine congrArg _ (Renaming.given_congr ?_ (Renaming.before_declareAll d.names) _)
    exact Renaming.newName_declareAll d.names
  | .stmt s rest, r => by
    rw [Block.rename, Block.locals, Block.locals, declaredNames_append, declaredNames_append,
      Renaming.given_append, Stmt.locals_rename s r, Block.locals_rename rest,
      length_declaredNames]

theorem Otherwise.locals_rename : ∀ (o : Otherwise) (r : Renaming),
    declaredNames (o.rename r).locals = r.given (declaredNames o.locals)
  | .done, _ => Renaming.given_nil.symm
  | .else_ s, r => Stmt.locals_rename s r
  | .elseIf c s rest, r => by
    rw [Otherwise.rename, Otherwise.locals, Otherwise.locals, declaredNames_append,
      declaredNames_append, Renaming.given_append, Stmt.locals_rename s r,
      Otherwise.locals_rename rest, length_declaredNames]

end

theorem FunctionDef.locals_rename (r : Renaming) (f : FunctionDef) :
    declaredNames (f.rename r).locals = r.given (declaredNames f.locals) := by
  have hparams : declaredNames (f.rename r).paramNames = r.given (declaredNames f.paramNames) := by
    unfold declaredNames FunctionDef.paramNames
    rw [map_map, map_map]
    show (r.enter.through Parameter.name Parameter.rename f.params).map (fun p => p.name.value) = _
    exact Renaming.names_through (fun _ _ => rfl) f.params
  rw [FunctionDef.locals, FunctionDef.locals, declaredNames_append, declaredNames_append,
    Renaming.given_append, hparams, length_declaredNames]
  refine congrArg _ ((Block.locals_rename f.body _).trans (Renaming.given_congr ?_ ?_ _))
  · exact Renaming.newName_declareAll f.paramNames
  · exact Renaming.before_declareAll f.paramNames

theorem TopLevel.locals_renameAll (r : Renaming) (us : List TopLevel) :
    declaredNames ((TopLevel.renameAll r us).flatMap TopLevel.locals)
      = r.given (declaredNames (us.flatMap TopLevel.locals)) := by
  induction us generalizing r with
  | nil => exact Renaming.given_nil.symm
  | cons u us ih =>
    have hu : declaredNames (u.rename r).locals = r.given (declaredNames u.locals) := by
      cases u with
      | decl d => exact Renaming.given_nil.symm
      | function f => exact f.locals_rename r
    rw [TopLevel.renameAll, flatMap_cons, flatMap_cons, declaredNames_append,
      declaredNames_append, Renaming.given_append, hu, ih, length_declaredNames]

end Locals

/-! ## Programs -/

/-- **The name of a local declaration does not matter.** Rename a declaration of
an accepted program to a name that occurs nowhere in it, and the occurrences
that mean it: the program is accepted, and the lowering gives the same. -/
theorem Program.rename_accepted_lowers (p : Program) (i : Nat) (y : String)
    (haccepted : p.accepted = true) (hy : y ∉ p.idents) (halike : p.readsAlike i y = true) :
    declaredNames (p.rename i y).locals = (declaredNames p.locals).set i y ∧
      (p.rename i y).accepted = true ∧ (p.rename i y).lower = p.lower := by
  have hnil := Program.accepted_iff.1 haccepted
  refine ⟨TopLevel.locals_renameAll ⟨y, [], some i⟩ p.units, ?_, ?_⟩
  · exact Program.accepted_iff.2 (TopLevel.judgeAll_renameAll hy hnil)
  · exact Lower.lowerUnits_rename [[]] [] hy hnil halike

namespace Source.Sample

/-- A program whose parameter `k` is hidden twice, once by a constant that an
array is as long as:

    const int n = 2;
    int f(int a[][n], int k) {
      int n = k;
      {
        const int k = 3;
        int z[k] = {n, a[0][1]};
        n = z[0] + k;
      }
      while (k > n) {
        int k = n;
        n = k + 1;
      }
      return n + k;
    }
-/
def shadowed : Program where
  units := [
    .decl ⟨true, scalar "n" (num "2"), []⟩,
    .function (function "f" [⟨ident "a", some [get "n"]⟩, ⟨ident "k", none⟩] <|
      .decl ⟨false, scalar "n" (get "k"), []⟩ <|
      .stmt (.block <|
        .decl ⟨true, scalar "k" (num "3"), []⟩ <|
        .decl ⟨false, array "z" [get "k"] (row [get "n", get "a" [num "0", num "1"]]), []⟩ <|
        .stmt (set "n" [] (add (get "z" [num "0"]) (get "k"))) .nil) <|
      .stmt (.while_ (.compare default .greater (.expr (get "k")) (.expr (get "n"))) <| .block <|
        .decl ⟨false, scalar "k" (get "n"), []⟩ <|
        .stmt (set "n" [] (add (get "k") (num "1"))) .nil) <|
      ret (add (get "n") (get "k")))]

/-- The program of the head of this file, whose local constant reads its own
name. -/
def ownValue : Program where
  units := [
    .decl ⟨true, scalar "x" (num "1"), []⟩,
    .function (function "main" [] (.decl ⟨true, scalar "x" (get "x"), []⟩ (ret (get "x"))))]

end Source.Sample

open Source.Sample

/-- The parameter `k` of `shadowed` can be renamed, and the program
lowers. -/
theorem Program.rename_accepted_lowers_shadowed :
    (∃ m, shadowed.lower.result = .ok m) ∧
      declaredNames shadowed.locals = ["a", "k", "n", "k", "z", "k"] ∧
      declaredNames (shadowed.rename 1 "y").locals = ["a", "y", "n", "k", "z", "k"] ∧
      (shadowed.rename 1 "y").accepted = true ∧ (shadowed.rename 1 "y").lower = shadowed.lower := by
  have h := Program.rename_accepted_lowers shadowed 1 "y" (by decide +kernel) (by decide +kernel)
    (by decide +kernel)
  exact ⟨exists_ok (by decide +kernel), rfl, h.1, h.2⟩

/-- **A constant that reads its own name cannot be renamed.** The program is
accepted and lowers, and the renamed one is accepted and does not lower. -/
theorem Program.rename_own_value_fails :
    ownValue.accepted = true ∧ ownValue.lower.result.toOption.isSome = true ∧
      "y" ∉ ownValue.idents ∧ declaredNames ownValue.locals = ["x"] ∧
      (ownValue.rename 0 "y").accepted = true ∧
      (ownValue.rename 0 "y").lower.result.toOption.isSome = false := by
  decide +kernel

end SysY
