import Mathlib.Data.List.Nodup
import SysY.Check

/-!
# The names of an accepted program

Judging a program declares its global variables and its functions one after
the other in one frame, and a name that the frame has already is a finding.
The first finding is always reported. So the names that an accepted program
declares at its top level are all different, and a name found in a table of
them is found once.
-/

namespace SysY

open List

/-! ## Acceptance -/

theorem Finding.reported_eq_nil {fs : List Finding} : reported fs = [] ↔ fs = [] := by
  cases fs with
  | nil => exact iff_of_true rfl rfl
  | cons f fs => exact iff_of_false (cons_ne_nil _ _) (cons_ne_nil _ _)

variable {p : Program}

/-- **A program is accepted if nothing is wrong with it.** -/
theorem Program.accepted_iff : p.accepted = true ↔ p.findings = [] := by
  unfold Program.accepted Program.check
  rw [List.isEmpty_iff, Finding.reported_eq_nil]

/-! ## Frames -/

namespace Env

variable {α : Type} {env env' : Env α} {frame : Frame α} {x z : String} {a : α}

/-- The innermost frame does not have a name. -/
def Free (env : Env α) (x : String) : Prop := List.lookup x (env.headD []) = none

theorem free_enter (env : Env α) (x : String) : env.enter.Free x := rfl

theorem free_bind_iff : (env.bind x a).Free z ↔ z ≠ x ∧ env.Free z := by
  cases env <;>
    by_cases hz : z = x <;> simp [Free, bind, lookup_cons, hz, beq_false_of_ne]

theorem lookup_of_free (h : Env.Free [frame] x) : Env.lookup [frame] x = none := by
  rw [lookup, show List.lookup x frame = none from h]
  rfl

/-- A name is declared if it is free. -/
theorem declare?_eq_some_iff : env.declare? x a = some env' ↔ env.Free x ∧ env' = env.bind x a := by
  cases env with
  | nil => exact ⟨fun h => ⟨rfl, (Option.some.inj h).symm⟩, fun h => congrArg some h.2.symm⟩
  | cons frame outer =>
    unfold declare? Free
    dsimp only [headD]
    cases List.lookup x frame with
    | none => exact ⟨fun h => ⟨rfl, (Option.some.inj h).symm⟩, fun h => congrArg some h.2.symm⟩
    | some _ => simp

end Env

variable {name : String}

namespace TyEnv

/-- The names in the innermost frame. -/
def keys (env : TyEnv) : List String := (env.headD []).map (·.1)

/-- The environment `env'` has these names more in its innermost frame, and
none of them twice. -/
structure Adds (names : List String) (env env' : TyEnv) : Prop where
  ne_nil : env' ≠ []
  /-- The latest name comes first. -/
  keys : env'.keys = names.reverse ++ env.keys
  nodup : env.keys.Nodup → env'.keys.Nodup

variable {env : TyEnv}

theorem Adds.refl (h : env ≠ []) : Adds [] env env := ⟨h, rfl, id⟩

theorem Adds.trans {names names' : List String} {env1 env2 : TyEnv} (h : Adds names env env1)
    (h' : Adds names' env1 env2) : Adds (names ++ names') env env2 where
  ne_nil := h'.ne_nil
  keys := by rw [h'.keys, h.keys, reverse_append, append_assoc]
  nodup := fun hn => h'.nodup (h.nodup hn)

variable {α : Type} {frame : Frame α}

theorem lookup_isSome_iff : (List.lookup name frame).isSome = true ↔ name ∈ frame.map (·.1) := by
  induction frame with
  | nil => simp
  | cons p frame ih =>
    obtain ⟨n, a⟩ := p
    by_cases hn : name = n
    · simp [hn]
    · have hne : (name == n) = false := by simpa using hn
      simp [lookup_cons, hne, ih, hn]

theorem not_mem_keys_iff : name ∉ frame.map (·.1) ↔ List.lookup name frame = none := by
  rw [← lookup_isSome_iff, Option.isSome_iff_ne_none, not_not]

/-- A name is bound where the frame does not have it. -/
theorem Adds.bind (henv : env ≠ []) (hfree : env.Free name) (t : Ty) :
    Adds [name] env (env.bind name t) := by
  cases env with
  | nil => exact absurd rfl henv
  | cons frame outer =>
    exact ⟨cons_ne_nil _ _, rfl, fun hnodup =>
      nodup_cons.2 ⟨not_mem_keys_iff.2 hfree, hnodup⟩⟩

/-- Things that are judged one after the other declare their names one after
the other. -/
theorem adds_judgeAll {judge : TyEnv → α → TyEnv × List Finding} {names : α → List String}
    (hjudge : ∀ env x, env ≠ [] → (judge env x).2 = [] → Adds (names x) env (judge env x).1)
    {xs : List α} (henv : env ≠ []) (h : (judgeAll judge env xs).2 = []) :
    Adds (xs.flatMap names) env (judgeAll judge env xs).1 := by
  induction xs generalizing env with
  | nil => exact .refl henv
  | cons x xs ih =>
    obtain ⟨hhere, hlater⟩ := append_eq_nil_iff.1 h
    have hx := hjudge env x henv hhere
    exact hx.trans (ih hx.ne_nil hlater)

end TyEnv

/-! ## What declares a name -/

variable {f : FunctionDef}

section Declares

variable {env env' : TyEnv} {x : String} {t : Ty} {taken : Finding} {rest : TyEnv → List Finding}

/-- **What declares one name.** Nothing is wrong with it exactly if the name is
free, and nothing is wrong with the rest, which is judged with the name in
scope. -/
theorem TyEnv.declares_iff :
    (match Env.declare? env x t with
      | none => (env, [taken])
      | some env1 => (env1, rest env1)) = (env', []) ↔
      env.Free x ∧ env' = env.bind x t ∧ rest env' = [] := by
  rw [← and_assoc, ← Env.declare?_eq_some_iff]
  cases Env.declare? env x t with
  | none => simp
  | some env1 =>
    rw [Prod.mk.injEq, Option.some.injEq]
    refine and_congr_right fun heq => ?_
    rw [heq]

/-- A judgement that finds nothing. -/
theorem TyEnv.eq_of_nil {judged : TyEnv × List Finding} (h : judged.2 = []) :
    judged = (judged.1, []) :=
  Prod.ext rfl h

/-- It leaves one frame where there was one. -/
theorem TyEnv.declares_frame (hone : ∃ frame, env = [frame]) :
    ∃ frame, (match Env.declare? env x t with
      | none => (env, [taken])
      | some env1 => (env1, rest env1)).1 = [frame] := by
  obtain ⟨frame, rfl⟩ := hone
  cases hdeclare : Env.declare? [frame] x t with
  | none => exact ⟨frame, rfl⟩
  | some env1 => exact ⟨_, (Env.declare?_eq_some_iff.1 hdeclare).2⟩

/-- What is wrong inside a definition, once its name is in scope. -/
def Definition.innerFindings (env : TyEnv) (d : Definition) : List Finding :=
  Expr.findingsAll env d.dims ++
    (match d.init with
      | some i => i.findings env d.type
      | none => [])

theorem Definition.judge_iff {d : Definition} :
    d.judge env = (env', []) ↔ env.Free d.name.value ∧ env' = env.bind d.name.value d.type ∧
      d.innerFindings env' = [] :=
  TyEnv.declares_iff

theorem Parameter.judge_iff {p : Parameter} :
    p.judge env = (env', []) ↔ env.Free p.name.value ∧ env' = env.bind p.name.value p.type ∧
      Expr.findingsAll env' (p.array.getD []) = [] :=
  TyEnv.declares_iff

theorem FunctionDef.judge_iff :
    f.judge env = (env', []) ↔ env.Free f.name.value ∧ env' = env.bind f.name.value f.type ∧
      (TyEnv.judgeAll Parameter.judge env'.enter f.params).2 ++ f.body.findings f.returns.type
        (TyEnv.judgeAll Parameter.judge env'.enter f.params).1.enter = [] :=
  TyEnv.declares_iff

end Declares

/-! ## Programs -/

/-- The names that a definition at the top level declares. -/
def TopLevel.names : TopLevel → List String
  | decl d => d.definitions.map (·.name.value)
  | function f => [f.name.value]

/-- The names that a program declares at the top level. -/
def Program.names (p : Program) : List String := p.units.flatMap TopLevel.names

theorem Definition.adds_judge (env : TyEnv) (d : Definition) (henv : env ≠ [])
    (h : (d.judge env).2 = []) : TyEnv.Adds [d.name.value] env (d.judge env).1 := by
  obtain ⟨hfree, henv', -⟩ := Definition.judge_iff.1 (TyEnv.eq_of_nil h)
  rw [henv']
  exact .bind henv hfree d.type

theorem FunctionDef.adds_judge (env : TyEnv) (f : FunctionDef) (henv : env ≠ [])
    (h : (f.judge env).2 = []) : TyEnv.Adds [f.name.value] env (f.judge env).1 := by
  obtain ⟨hfree, henv', -⟩ := FunctionDef.judge_iff.1 (TyEnv.eq_of_nil h)
  rw [henv']
  exact .bind henv hfree f.type

theorem TopLevel.adds_judge (env : TyEnv) (u : TopLevel) (henv : env ≠ [])
    (h : (u.judge env).2 = []) : TyEnv.Adds u.names env (u.judge env).1 := by
  cases u with
  | function f => exact f.adds_judge env henv h
  | decl d =>
    have hall : TyEnv.Adds (d.definitions.flatMap fun d => [d.name.value]) env _ :=
      TyEnv.adds_judgeAll Definition.adds_judge henv h
    rwa [← map_eq_flatMap] at hall

/-- **The names at the top level of an accepted program are all different.** -/
theorem Program.nodup_names (h : p.accepted = true) : p.names.Nodup := by
  have hall : TyEnv.Adds p.names [[]] _ :=
    TyEnv.adds_judgeAll TopLevel.adds_judge (cons_ne_nil _ _) (Program.accepted_iff.1 h)
  have hnodup := hall.nodup nodup_nil
  rw [hall.keys, show TyEnv.keys [[]] = [] from rfl, append_nil] at hnodup
  exact nodup_reverse.1 hnodup

/-! ## Functions -/

/-- Which parameters of a function at the top level are arrays, if it is
defined there. -/
def TopLevel.arrayParams (name : String) : List TopLevel → Option (List Bool)
  | [] => none
  | .decl _ :: us => arrayParams name us
  | .function f :: us =>
    if f.name.value = name then some (f.params.map (·.array.isSome)) else arrayParams name us

/-- Which parameters of a function of a program are arrays. -/
def Program.arrayParams (p : Program) (name : String) : Option (List Bool) :=
  TopLevel.arrayParams name p.units

variable {us : List TopLevel}

theorem TopLevel.arrayParams_of_mem (hnodup : (us.flatMap names).Nodup) (hf : .function f ∈ us) :
    arrayParams f.name.value us = some (f.params.map (·.array.isSome)) := by
  induction us with
  | nil => cases hf
  | cons u us ih =>
    rw [flatMap_cons, nodup_append] at hnodup
    obtain ⟨-, hlater, hne⟩ := hnodup
    rcases mem_cons.1 hf with rfl | hmem
    · exact if_pos rfl
    · cases u with
      | decl d => exact ih hlater hmem
      | function g =>
        have hname : g.name.value ≠ f.name.value :=
          hne _ mem_cons_self _ (mem_flatMap.2 ⟨_, hmem, mem_singleton_self _⟩)
        rw [arrayParams, if_neg hname]
        exact ih hlater hmem

theorem TopLevel.exists_of_arrayParams {own : List Bool} (h : arrayParams name us = some own) :
    ∃ f, .function f ∈ us ∧ f.name.value = name := by
  induction us with
  | nil => cases h
  | cons u us ih =>
    cases u with
    | decl d =>
      obtain ⟨f, hf, hname⟩ := ih h
      exact ⟨f, mem_cons_of_mem _ hf, hname⟩
    | function g =>
      rw [arrayParams] at h
      split at h
      next hname => exact ⟨g, mem_cons_self, hname⟩
      next =>
        obtain ⟨f, hf, hname⟩ := ih h
        exact ⟨f, mem_cons_of_mem _ hf, hname⟩

end SysY
