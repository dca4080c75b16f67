import SysY.Proofs.Names
import SysY.Proofs.Scoping

/-!
# Judging with a tree of scopes

A program can be judged without passing environments. All scopes are kept in
one tree, which only grows; the scope in which a construct stands is known by
its handle; a block opens a scope of its own, and a declaration puts its name
into the tree. Such a judge is written down here (`Program.walk`), and it finds
what is found with environments: in every scope it finds what is found in the
environment that the scope sees, and it leaves a tree in which the scope sees
the environment for what follows (`Walk.Follows`).

The reason is that a construct declares names in its own scope and in scopes
that are opened inside it, and in no scope around it (`Grows`).
-/

namespace SysY

open List

namespace ScopeTree

variable {α : Type} {t t' t'' : ScopeTree α} {scopes : List (Scope α)} {n s p : Nat} {x : String} {a : α}

/-! ## What scopes see of a tree that grows -/

/-- A name put into a scope is seen there, and not in the scopes opened before. -/
theorem path_insert (hs : s < scopes.length) (x : String) (a : α) :
    path (insert x a scopes s) s = (path scopes s).bind x a ∧
      ∀ r < s, path (insert x a scopes s) r = path scopes r := by
  induction scopes with
  | nil => cases hs
  | cons newest older ih =>
    rw [insert]
    split
    next heq =>
      subst heq
      exact ⟨by simp [path, Env.bind], fun r hr => by simp [path, Nat.ne_of_lt hr]⟩
    next hne =>
      have hlt := Nat.lt_of_le_of_ne (Nat.le_of_lt_succ hs) hne
      obtain ⟨hself, hother⟩ := ih hlt
      refine ⟨?_, fun r hr => ?_⟩
      · rw [path, length_insert, if_neg hne, path, if_neg hne, hself]
      · have hr' := Nat.ne_of_lt (Nat.lt_trans hr hlt)
        rw [path, length_insert, if_neg hr', path, if_neg hr', hother r hr]

/-- A declaration in a scope is one in the environment that the scope sees. -/
theorem declare?_env (hs : s < t.size) (x : String) (a : α) :
    (t.env s).declare? x a = (t.declare? s x a).map (·.env s) := by
  obtain ⟨scope, outer, hscope, hpath⟩ := exists_path hs
  rw [declare?, hscope, env, hpath]
  dsimp only [Env.declare?]
  split
  · rfl
  · rw [Option.map_some, env, (path_insert hs x a).1, hpath]

/-- **A tree has grown** by declarations in scopes from the `n`-th on: the older
ones see what they saw. -/
structure Grows (n : Nat) (t t' : ScopeTree α) : Prop where
  size_le : t.size ≤ t'.size
  env : ∀ r < n, t'.env r = t.env r
  grown : ∀ {log}, Grown log t → ∃ log', Grown log' t'

theorem Grows.refl (n : Nat) (t : ScopeTree α) : Grows n t t :=
  ⟨Nat.le_refl _, fun _ _ => rfl, fun h => ⟨_, h⟩⟩

theorem Grows.trans (h : Grows n t t') (h' : Grows n t' t'') : Grows n t t'' where
  size_le := Nat.le_trans h.size_le h'.size_le
  env r hr := (h'.env r hr).trans (h.env r hr)
  grown hgrown := by
    obtain ⟨log, hlog⟩ := h.grown hgrown
    exact h'.grown hlog

theorem Grows.openIn (hp : p < t.size) : Grows t.size t (t.openIn p).1 where
  size_le := Nat.le_succ _
  env _ hr := if_neg (Nat.ne_of_lt hr)
  grown h := ⟨_, h.openIn hp⟩

theorem Grows.declare (hs : s < t.size) (ht : t.declare? s x a = some t') : Grows s t t' := by
  refine ⟨?_, fun r hr => ?_, fun h => ⟨_, h.declare hs ht⟩⟩
  all_goals rw [eq_of_declare? hs ht]
  · exact Nat.le_of_eq (length_insert ..).symm
  · exact (path_insert hs x a).2 r hr

end ScopeTree

open ScopeTree

/-! ## Walks -/

/-- To judge in a scope of a tree: what is found, and the tree afterwards. -/
abbrev Walk := Nat → ScopeTree Ty → List Finding × ScopeTree Ty

namespace Walk

/-- Find what there is to find in what the scope sees. -/
def look (findings : TyEnv → List Finding) : Walk := fun s t => (findings (t.env s), t)

/-- One walk after the other, in the same scope. -/
def seq (v w : Walk) : Walk := fun s t => ((v s t).1 ++ (w s (v s t).2).1, (w s (v s t).2).2)

def all {α : Type} (walk : α → Walk) : List α → Walk
  | [] => look fun _ => []
  | x :: xs => (walk x).seq (all walk xs)

/-- Walk in a scope that is opened inside this one. -/
def inside (w : Walk) : Walk := fun s t => w (t.openIn s).2 (t.openIn s).1

/-- Declare a name in the scope and go on, or find that it is taken. -/
def declare (name : Ident) (type : Ty) (taken : FindingKind) (w : Walk) : Walk := fun s t =>
  (t.declare? s name.value type).elim ([⟨taken, name.line⟩], t) (w s)

end Walk

def Definition.walk (d : Definition) : Walk :=
  .declare d.name d.type .varRedeclared (.look (Definition.innerFindings · d))

def Decl.walk (d : Decl) : Walk := .all Definition.walk d.definitions

mutual

def Stmt.walk (returns : Ty) : Stmt → Walk
  | .block b => .inside (b.walk returns)
  | .if_ c s rest => (Walk.look (Cond.findings · c)).seq ((s.walk returns).seq (rest.walk returns))
  | .while_ c s => (Walk.look (Cond.findings · c)).seq (s.walk returns)
  | s => .look (Stmt.findings returns · s)

def Block.walk (returns : Ty) : Block → Walk
  | .nil => .look fun _ => []
  | .decl d rest => d.walk.seq (rest.walk returns)
  | .stmt s rest => (s.walk returns).seq (rest.walk returns)

def Otherwise.walk (returns : Ty) : Otherwise → Walk
  | .done => .look fun _ => []
  | .else_ s => s.walk returns
  | .elseIf c s rest => (Walk.look (Cond.findings · c)).seq ((s.walk returns).seq (rest.walk returns))

end

def Parameter.walk (p : Parameter) : Walk :=
  .declare p.name p.type .varRedeclared (.look (Expr.findingsAll · (p.array.getD [])))

/-- The parameters are in a scope of their own, and the body in one inside it. -/
def FunctionDef.walk (f : FunctionDef) : Walk :=
  .declare f.name f.type .funcRedefined
    (.inside ((Walk.all Parameter.walk f.params).seq (.inside (f.body.walk f.returns.type))))

def TopLevel.walk : TopLevel → Walk
  | decl d => d.walk
  | function f => f.walk

/-- **Judge a program with a tree of scopes.** -/
def Program.walk (p : Program) : Walk := .all TopLevel.walk p.units

/-! ## Walks and environments -/

/-- **A walk does in a scope what a judgement does in the environment that the
scope sees**, and leaves the scopes opened before it alone. -/
def Walk.Follows (w : Walk) (judge : TyEnv → TyEnv × List Finding) : Prop :=
  ∀ s t, s < t.size → Grows s t (w s t).2 ∧ judge (t.env s) = ((w s t).2.env s, (w s t).1)

namespace Walk.Follows

variable {v w : Walk} {judge judge' : TyEnv → TyEnv × List Finding}

theorem look (findings : TyEnv → List Finding) :
    (Walk.look findings).Follows fun env => (env, findings env) :=
  fun s t _ => ⟨.refl s t, rfl⟩

theorem seq (hv : v.Follows judge) (hw : w.Follows judge') :
    (v.seq w).Follows fun env =>
      ((judge' (judge env).1).1, (judge env).2 ++ (judge' (judge env).1).2) := by
  intro s t hs
  obtain ⟨hgrows, hfirst⟩ := hv s t hs
  obtain ⟨hgrows', hthen⟩ := hw s _ (Nat.lt_of_lt_of_le hs hgrows.size_le)
  refine ⟨hgrows.trans hgrows', ?_⟩
  simp only [hfirst, hthen, Walk.seq]

theorem all {α : Type} {walk : α → Walk} {judge : TyEnv → α → TyEnv × List Finding}
    (h : ∀ x, (walk x).Follows (judge · x)) (xs : List α) :
    (Walk.all walk xs).Follows (TyEnv.judgeAll judge · xs) := by
  induction xs with
  | nil => exact .look _
  | cons x xs ih => exact (h x).seq ih

/-- The scope that is opened is newer than the one around it, which therefore
sees afterwards what it saw. -/
theorem inside (h : w.Follows judge) :
    (Walk.inside w).Follows fun env => (env, (judge env.enter).2) := by
  intro s t hs
  obtain ⟨hgrows, hjudge⟩ := h t.size (t.openIn s).1 (Nat.lt_succ_self _)
  have hkept := (Grows.openIn hs).trans hgrows
  have hopened : (t.openIn s).1.env t.size = (t.env s).enter := if_pos rfl
  rw [hopened] at hjudge
  refine ⟨⟨hkept.size_le, fun r hr => hkept.env r (Nat.lt_trans hr hs), hkept.grown⟩, ?_⟩
  show (t.env s, (judge (t.env s).enter).2) = _
  rw [hjudge, ← hkept.env s hs]
  rfl

theorem declare {name : Ident} {type : Ty} {taken : FindingKind} (h : w.Follows judge)
    (hjudge : ∀ env, judge' env = (Env.declare? env name.value type).elim
      (env, [⟨taken, name.line⟩]) judge) :
    (Walk.declare name type taken w).Follows judge' := by
  intro s t hs
  rw [hjudge, declare?_env hs name.value type, Walk.declare]
  cases ht : t.declare? s name.value type with
  | none => exact ⟨.refl s t, rfl⟩
  | some t1 =>
    have hdeclared := Grows.declare hs ht
    obtain ⟨hgrows, hjudge⟩ := h s t1 (Nat.lt_of_lt_of_le hs hdeclared.size_le)
    exact ⟨hdeclared.trans hgrows, hjudge⟩

end Walk.Follows

theorem Definition.walk_follows (d : Definition) : d.walk.Follows (Definition.judge · d) :=
  .declare (.look _) fun env => by
    rw [Definition.judge]
    cases Env.declare? env d.name.value d.type <;> rfl

theorem Decl.walk_follows (d : Decl) : d.walk.Follows (Decl.judge · d) :=
  .all Definition.walk_follows d.definitions

mutual

theorem Stmt.walk_follows (returns : Ty) :
    ∀ s : Stmt, (s.walk returns).Follows fun env => (env, s.findings returns env)
  | .block b => by
    obtain ⟨judge, hfollows, hfindings⟩ := b.walk_follows returns
    simpa only [Stmt.walk, Stmt.findings, hfindings] using hfollows.inside
  | .if_ c s rest => by
    simpa only [Stmt.walk, Stmt.findings, append_assoc] using
      (Walk.Follows.look (Cond.findings · c)).seq
        ((s.walk_follows returns).seq (rest.walk_follows returns))
  | .while_ c s => by
    simpa only [Stmt.walk, Stmt.findings] using
      (Walk.Follows.look (Cond.findings · c)).seq (s.walk_follows returns)
  | .assign .. | .eval _ | .break_ _ | .continue_ _ | .return_ .. => .look _

/-- What is declared in a block is not seen after it. -/
theorem Block.walk_follows (returns : Ty) : ∀ b : Block,
    ∃ judge, (b.walk returns).Follows judge ∧ ∀ env, (judge env).2 = b.findings returns env
  | .nil => ⟨_, .look _, fun _ => rfl⟩
  | .decl d rest => by
    obtain ⟨judge, hfollows, hfindings⟩ := rest.walk_follows returns
    exact ⟨_, d.walk_follows.seq hfollows, fun env => by rw [hfindings, Block.findings]⟩
  | .stmt s rest => by
    obtain ⟨judge, hfollows, hfindings⟩ := rest.walk_follows returns
    exact ⟨_, (s.walk_follows returns).seq hfollows, fun env => by rw [hfindings, Block.findings]⟩

theorem Otherwise.walk_follows (returns : Ty) :
    ∀ o : Otherwise, (o.walk returns).Follows fun env => (env, o.findings returns env)
  | .done => .look _
  | .else_ s => s.walk_follows returns
  | .elseIf c s rest => by
    simpa only [Otherwise.walk, Otherwise.findings, append_assoc] using
      (Walk.Follows.look (Cond.findings · c)).seq
        ((s.walk_follows returns).seq (rest.walk_follows returns))

end

theorem Parameter.walk_follows (p : Parameter) : p.walk.Follows (Parameter.judge · p) :=
  .declare (.look _) fun env => by
    rw [Parameter.judge]
    cases Env.declare? env p.name.value p.type <;> rfl

theorem FunctionDef.walk_follows (f : FunctionDef) : f.walk.Follows (FunctionDef.judge · f) := by
  obtain ⟨judge, hbody, hfindings⟩ := f.body.walk_follows f.returns.type
  refine .declare ((Walk.Follows.all Parameter.walk_follows f.params).seq hbody.inside).inside
    fun env => ?_
  rw [FunctionDef.judge]
  cases Env.declare? env f.name.value f.type with
  | none => rfl
  | some env => simp only [Option.elim, hfindings]

theorem TopLevel.walk_follows : ∀ u : TopLevel, u.walk.Follows (TopLevel.judge · u)
  | .decl d => d.walk_follows
  | .function f => f.walk_follows

/-- **A tree of scopes serves as well as environments do**: a program is found to
be what it is found to be with environments. The tree has grown by opening scopes
and declaring names in them, and so is lexically scoped. -/
theorem Program.walk_eq_findings (p : Program) :
    (p.walk global .new).1 = p.findings ∧ ∃ log, Grown log (p.walk global .new).2 := by
  obtain ⟨hgrows, hjudge⟩ := Walk.Follows.all TopLevel.walk_follows p.units global .new Nat.one_pos
  exact ⟨(congrArg Prod.snd hjudge).symm, hgrows.grown .new⟩

end SysY
