import SysY.Proofs.FlatRun

/-!
# Flattening keeps what can be observed

A function and its flattened form are both machines that act on a memory: a
machine goes on silently or shows what it does, calls a function, or returns.
What is called may be anything. It gets the memory and its arguments, and
answers with a result and a memory, so that nothing is assumed of other
functions.

Of a run one observes which blocks are entered, what is stored where, the calls
with their arguments and answers, the return, and whether it gets stuck
(`Trace`). A function and its flattened form have the same traces, so that they
agree on all runs, whether they end or not (`Program.flatten_traces`). The
copies and the phis of the flattened form are silent. A copy for a phi is also
made on the way to the other block that follows; nothing shows that.
-/

namespace SysY

variable {es : List Event}

namespace IR

/-- What can be observed of a run. -/
inductive Event where
  | enter (l : Label)
  | store (p : Pointer) (v : Val)
  /-- A function is called, with memory as it is then. -/
  | call (callee : String) (args : List Val) (mem : Memory)
  /-- The answer to a call. -/
  | back (r : Option Val) (mem : Memory)
  | ret (r : Option Val) (mem : Memory)
  /-- Nothing can be done any more. -/
  | stuck

/-- What a machine with states in `σ` does. -/
inductive Act (σ : Type) where
  /-- It goes on, and shows something. -/
  | go (shown : List Event) (next : σ) (mem : Memory)
  /-- It calls a function, and goes on with the result if it can. -/
  | call (callee : String) (args : List Val) (resume : Option Val → Option σ)
  | ret (r : Option Val)

/-- What is observed of a machine that does this, before it goes on. -/
def Act.shown {σ : Type} (mem : Memory) : Option (Act σ) → List Event
  | some (go ..) => []
  | some (call callee args _) => [.call callee args mem]
  | some (ret r) => [.ret r mem]
  | none => [.stuck]

/-- **The traces of a machine**: what its runs show up to some time. -/
inductive Trace {σ : Type} (act : σ → Memory → Option (Act σ)) : σ → Memory → List Event → Prop
  /-- Nothing more is looked at. -/
  | pause {s mem} : Trace act s mem []
  /-- What the machine does is looked at, and no more. -/
  | now {s mem} : Trace act s mem (Act.shown mem (act s mem))
  /-- The machine goes on. -/
  | go {s mem shown s' mem' es} : act s mem = some (.go shown s' mem') → Trace act s' mem' es →
    Trace act s mem (shown ++ es)
  /-- A call is answered. -/
  | back {s mem callee args resume r s' mem' es} : act s mem = some (.call callee args resume) →
    resume r = some s' → Trace act s' mem' es →
    Trace act s mem (.call callee args mem :: .back r mem' :: es)

/-! ## The two machines -/

/-- What an operation shows that stays in the block. -/
def Op.shown (m : Module) (args : List Val) (temps : Temps) : Op → List Event
  | store value target =>
    match value.eval m args temps, target.addr? m args temps with
    | some v, some p => [.store p v]
    | _, _ => []
  | _ => []

/-- What an instruction does, for a machine that is in the state `next` after
it, or in the state `enter` at the start of a block. -/
def Instr.act {σ : Type} (m : Module) (args : List Val) (previous : Option Label) (temps : Temps)
    (mem : Memory) (next : Temps → σ) (enter : Label → Option σ) (i : Instr) : Option (Act σ) :=
  match i.op with
  | .jump _ | .branch .. =>
    (i.op.target? m args temps).bind fun l => (enter l).map (.go [.enter l] · mem)
  | .call callee vs =>
    (evalArgs m args temps vs).map (.call callee · fun r => (temps.receive i.output r).map next)
  | .ret value => (value.eval m args temps).map fun v => .ret (some v)
  | .retVoid => some (.ret none)
  | op =>
    (op.eval m args previous temps mem).map fun r =>
      .go (op.shown m args temps) (next (temps.assign i.output r.1)) r.2

/-- **A function as a machine.** -/
def Function.act (m : Module) (f : Function) (args : List Val) (pt : Point) (mem : Memory) :
    Option (Act Point) :=
  match pt.rest with
  | [] => none
  | i :: rest =>
    i.act m args pt.previous pt.temps mem (fun temps => { pt with rest, temps }) fun l =>
      (f.code? l).map fun code => ⟨some pt.current, l, code, pt.temps⟩

/-- **A flattened function as a machine**, whose states are the line and the
temporaries. -/
def Flat.act (m : Module) (flat : Flat) (args : List Val) (s : Nat × Temps) (mem : Memory) :
    Option (Act (Nat × Temps)) :=
  match flat.lines[s.1]? with
  | none => none
  | some (.copy t v) =>
    (v.eval m args s.2).map fun w => .go [] (s.1 + 1, s.2.assign (some t) w) mem
  | some (.instr i) =>
    if i.op.isPhi then some (.go [] (s.1 + 1, s.2) mem)
    else i.act m args none s.2 mem (s.1 + 1, ·) fun l => (flat.start? l).map (·, s.2)

/-! ## Simulations -/

section Simulation

variable {σ τ : Type} {R R' : σ → τ → Prop} {a : σ → Memory → Option (Act σ)}
  {b : τ → Memory → Option (Act τ)}

/-- Two machines do the same, and go on in states that are related. -/
inductive Matches (R : σ → τ → Prop) : Option (Act σ) → Option (Act τ) → Prop
  | none : Matches R none none
  | go {shown s t mem} : R s t → Matches R (some (.go shown s mem)) (some (.go shown t mem))
  | call {callee args k k'} : (∀ r, Option.Rel R (k r) (k' r)) →
    Matches R (some (.call callee args k)) (some (.call callee args k'))
  | ret {r} : Matches R (some (.ret r)) (some (.ret r))

theorem Matches.shown_eq {x : Option (Act σ)} {y : Option (Act τ)} (h : Matches R x y)
    (mem : Memory) : Act.shown mem x = Act.shown mem y := by
  cases h <;> rfl

/-- The same of the machines in turn. -/
theorem Matches.flip {x : Option (Act σ)} {y : Option (Act τ)} {R' : τ → σ → Prop}
    (h : Matches R x y) (hR : ∀ s t, R s t → R' t s) : Matches R' y x := by
  cases h with
  | none => exact .none
  | go hst => exact .go (hR _ _ hst)
  | @call _ _ k k' hk =>
    refine .call fun r => ?_
    have hrel := hk r
    generalize k r = x, k' r = y at hrel
    cases hrel with
    | none => exact .none
    | some hst => exact .some (hR _ _ hst)
  | ret => exact .ret

/-- **What a machine shows, another one shows** that does the same, after at
most one silent step of its own. The first one may be silent in the meantime. -/
theorem Trace.simulated {s : σ} {t : τ} {mem : Memory} (h : Trace a s mem es)
    (hR : ∀ s t mem, R s t → (∃ s', a s mem = some (.go [] s' mem) ∧ R s' t) ∨
      ∃ t', (t' = t ∨ b t mem = some (.go [] t' mem)) ∧ Matches R (a s mem) (b t' mem))
    (hst : R s t) : Trace b t mem es := by
  have hsilent : ∀ {t t' mem es}, (t' = t ∨ b t mem = some (.go [] t' mem)) → Trace b t' mem es →
      Trace b t mem es := by
    rintro t t' mem es (rfl | hgo) ht'
    · exact ht'
    · exact .go hgo ht'
  induction h generalizing t with
  | pause => exact .pause
  | @now s mem =>
    obtain ⟨s', hs', -⟩ | ⟨t', ht', hmatch⟩ := hR s t mem hst
    · rw [hs']
      exact .pause
    · rw [hmatch.shown_eq mem]
      exact hsilent ht' .now
  | @go s mem shown s' mem' es hact _ ih =>
    obtain ⟨s'', hs'', hst'⟩ | ⟨t', ht', hmatch⟩ := hR s t mem hst
    · cases hact.symm.trans hs''
      exact ih hst'
    · rw [hact] at hmatch
      generalize hb : b t' mem = y at hmatch
      cases hmatch with
      | go hst' => exact hsilent ht' (.go hb (ih hst'))
  | @back s mem callee args resume r s' mem' es hact hresume _ ih =>
    obtain ⟨s'', hs'', -⟩ | ⟨t', ht', hmatch⟩ := hR s t mem hst
    · cases hact.symm.trans hs''
    · rw [hact] at hmatch
      generalize hb : b t' mem = y at hmatch
      cases hmatch with
      | @call _ _ _ k' hk =>
        have hrel := hk r
        rw [hresume] at hrel
        generalize hk' : k' r = z at hrel
        cases hrel with
        | some hst' => exact hsilent ht' (.back hb hk' (ih hst'))

end Simulation

/-! ## Places that correspond -/

section Follows

variable {m : Module} {args : List Val} {f : Function} {sig : Signatures} {ps : List Part}
  {pt : Point} {n : Nat} {temps temps' : Temps} {mem : Memory}

theorem Op.shown_congr {op : Op} (h : ∀ t, .temp t ∈ op.operands → temps t = temps' t) :
    op.shown m args temps = op.shown m args temps' := by
  cases op with
  | store v a =>
    rw [Op.shown, Op.shown, Value.eval_congr fun t ht => h t (by simp [Op.operands, ht]),
      Value.addr?_congr fun t ht => h t (by simp [Op.operands, ht])]
  | _ => rfl

/-- An instruction that is no phi does the same with temporaries that agree on
what it reads, if the machines go on in states that are related. -/
theorem Instr.act_matches {σ τ : Type} {R : σ → τ → Prop} {i : Instr} {prev : Option Label}
    {next : Temps → σ} {next' : Temps → τ} {enter : Label → Option σ} {enter' : Label → Option τ}
    (hphi : i.op.isPhi = false) (hread : ∀ t, .temp t ∈ i.op.operands → temps t = temps' t)
    (hnext : i.op.isTerminator = false →
      ∀ v, R (next (temps.assign i.output v)) (next' (temps'.assign i.output v)))
    (henter : ∀ l ∈ i.op.successors, Option.Rel R (enter l) (enter' l)) :
    Matches R (i.act m args prev temps mem next enter) (i.act m args none temps' mem next' enter') := by
  obtain ⟨output, op⟩ := i
  have hplain : op.isTerminator = false → Matches R
      ((op.eval m args prev temps mem).map fun r =>
        .go (op.shown m args temps) (next (temps.assign output r.1)) r.2)
      ((op.eval m args none temps' mem).map fun r =>
        .go (op.shown m args temps') (next' (temps'.assign output r.1)) r.2) := by
    intro hop
    rw [Op.eval_congr hread hphi, Op.shown_congr hread]
    cases op.eval m args none temps' mem with
    | none => exact .none
    | some r => exact .go (hnext hop r.1)
  have hleave : Matches R
      ((op.target? m args temps).bind fun l => (enter l).map (.go [.enter l] · mem))
      ((op.target? m args temps').bind fun l => (enter' l).map (.go [.enter l] · mem)) := by
    rw [Op.target?_congr hread]
    cases htarget : op.target? m args temps' with
    | none => exact .none
    | some l =>
      show Matches R ((enter l).map _) ((enter' l).map _)
      have hrel := henter l (Op.target?_mem_successors htarget)
      generalize enter l = x, enter' l = y at hrel
      cases hrel with
      | none => exact .none
      | some hst => exact .go hst
  cases op with
  | phi => cases hphi
  | jump | branch => exact hleave
  | call callee vs =>
    show Matches R ((evalArgs m args temps vs).map _) ((evalArgs m args temps' vs).map _)
    have hargs : evalArgs m args temps vs = evalArgs m args temps' vs := evalArgs_congr hread
    rw [hargs]
    cases evalArgs m args temps' vs with
    | none => exact .none
    | some ws =>
      refine .call fun r => ?_
      cases output with
      | none => exact .some (hnext rfl (.int 0))
      | some t =>
        cases r with
        | none => exact .none
        | some v => exact .some (hnext rfl v)
  | ret value =>
    have hvalue : value.eval m args temps = value.eval m args temps' :=
      Value.eval_congr fun t ht => hread t (ht ▸ List.mem_singleton_self _)
    show Matches R ((value.eval m args temps).map _) ((value.eval m args temps').map _)
    rw [hvalue]
    cases value.eval m args temps' with
    | none => exact .none
    | some v => exact .ret
  | retVoid => exact .ret
  | _ => exact hplain rfl

/-- There is something left to do. -/
theorem Follows.exists_cons (h : Follows sig m args ps pt n temps) : ∃ i rest, pt.rest = i :: rest := by
  cases h with
  | phi _ _ _ hrest hφ => exact ⟨_, _, hrest.trans (Part.code_of_phi hφ)⟩
  | @body _ _ _ _ _ _ rest _ _ _ _ hrest =>
    cases rest with
    | nil | cons => exact ⟨_, _, hrest⟩

/-- **At corresponding places both do the same**, after the copy is made. -/
theorem Function.Typed.act_matches (h : f.Typed sig ps)
    (hfollows : Follows sig m args ps pt n temps) :
    ∃ n' after, Copies m ⟨ps.map (·.flat)⟩ args n temps n' after ∧ ∀ mem,
      Matches (fun pt s => Follows sig m args ps pt s.1 s.2) (f.act m args pt mem)
        (Flat.act m ⟨ps.map (·.flat)⟩ args (n', after) mem) := by
  obtain ⟨prev, cur, code, before⟩ := pt
  obtain ⟨i, rest, rfl⟩ : ∃ i rest, code = i :: rest := hfollows.exists_cons
  obtain ⟨φ, rfl, hline, hval, hnext⟩ | ⟨S, S', hstep, hline, hagree, hnext⟩ |
    ⟨p, hp, rfl, rfl, n', after, hleaving, hcopies⟩ :=
      hfollows.cases fun p hp => h.parts.permitted hp
  · refine ⟨n, temps, .none, fun mem => ?_⟩
    have hact : f.act m args ⟨prev, cur, φ.instr :: rest, before⟩ mem =
        some (.go [] ⟨prev, cur, rest, before.assign φ.instr.output (temps φ.output)⟩ mem) :=
      congrArg (Option.map _) (hval mem)
    rw [hact, Flat.act, hline]
    exact .go hnext
  · refine ⟨n, temps, .none, fun mem => ?_⟩
    rw [Flat.act, hline]
    dsimp only
    rw [if_neg (by simp [hstep.not_isPhi])]
    refine Instr.act_matches hstep.not_isPhi (fun t ht => ?_) (fun _ v => ?_) fun l hl => ?_
    · obtain ⟨k, hk⟩ := hstep.known_of_operand ht
      exact hagree hk
    · exact hnext _ _ (hagree.assign hstep.kinds_of v)
    · cases hstep <;> cases hl
  · refine ⟨n', after, hcopies, fun mem => ?_⟩
    obtain ⟨_, _, hpart⟩ := h.parts.permitted hp
    rw [Flat.act, hleaving.line]
    dsimp only
    rw [if_neg (by simp [hpart.last.not_isPhi])]
    refine Instr.act_matches hpart.last.not_isPhi (fun t ht => hleaving.operands hpart.last ht)
      (fun hop => ?_) fun l hl => ?_
    · cases hop.symm.trans hpart.last.isTerminator
    · obtain ⟨q, hq, rfl, hleads⟩ := h.leads p hp l hl
      obtain ⟨s, hs, hnext⟩ := h.follows_leads hp hq hleads hleaving.agree hleaving.copied
      rw [h.code q hq, hs]
      exact .some hnext

theorem Copies.act {flat : Flat} {n' : Nat} {after : Temps} (h : Copies m flat args n temps n' after)
    (mem : Memory) :
    (n', after) = (n, temps) ∨ flat.act m args (n, temps) mem = some (.go [] (n', after) mem) := by
  cases h with
  | none => exact .inl rfl
  | one hline hv =>
    right
    rw [Flat.act, hline]
    exact congrArg (Option.map _) hv

/-- **From corresponding places the same can be observed.** -/
theorem Function.Typed.trace_iff (h : f.Typed sig ps) (hfollows : Follows sig m args ps pt n temps)
    {es : List Event} :
    Trace (f.act m args) pt mem es ↔
      Trace (Flat.act m ⟨ps.map (·.flat)⟩ args) (n, temps) mem es := by
  constructor
  · intro htrace
    refine htrace.simulated (R := fun pt s => Follows sig m args ps pt s.1 s.2) ?_ hfollows
    intro pt s mem hfollows
    obtain ⟨n', after, hcopies, hmatch⟩ := h.act_matches hfollows
    exact .inr ⟨(n', after), hcopies.act mem, hmatch mem⟩
  · -- the copy may be made already when the function is still at the end of its block
    intro htrace
    refine htrace.simulated (R := fun s pt => Follows sig m args ps pt s.1 s.2 ∨ ∀ mem,
      Matches (fun pt s => Follows sig m args ps pt s.1 s.2) (f.act m args pt mem)
        (Flat.act m ⟨ps.map (·.flat)⟩ args s mem)) ?_ (.inl hfollows)
    rintro s pt mem (hfollows | hmatch)
    · obtain ⟨n', after, hcopies, hmatch⟩ := h.act_matches hfollows
      rcases hcopies.act mem with heq | hgo
      · rw [heq] at hmatch
        exact .inr ⟨pt, .inl rfl, (hmatch mem).flip fun _ _ hst => .inl hst⟩
      · exact .inl ⟨_, hgo, .inr hmatch⟩
    · exact .inr ⟨pt, .inl rfl, (hmatch mem).flip fun _ _ hst => .inl hst⟩

end Follows

end IR

/-- **Flattening keeps what can be observed.** From any arguments and any
memory, a lowered function and its flattened form have the same traces. -/
theorem Program.flatten_traces {p : Program} {m : IR.Module} (h : p.lower.result = .ok m)
    {f : IR.Function} (hf : f ∈ m.functions) :
    ∃ start flat, f.entry? = some start ∧ f.flatten = .ok flat ∧ ∀ args mem es,
      IR.Trace (f.act m args) start mem es ↔
        IR.Trace (flat.act m args) (0, fun _ => .int 0) mem es := by
  obtain ⟨_, ps, htyped⟩ := Program.lower_typed h hf
  obtain ⟨p, hp, -⟩ := htyped.first
  have hstart := htyped.entry?_eq hp
  exact ⟨_, _, hstart, htyped.flatten, fun args mem es =>
    htyped.trace_iff (htyped.follows_entry hstart)⟩

theorem Program.flatten_traces_sum :
    ∃ m f start flat, Source.Sample.program.lower.result = .ok m ∧ f ∈ m.functions ∧
      (∃ b ∈ f.blocks, ∃ i ∈ b.code, i.op.isPhi = true) ∧
      f.entry? = some start ∧ f.flatten = .ok flat ∧ ∀ args mem es,
        IR.Trace (f.act m args) start mem es ↔
          IR.Trace (flat.act m args) (0, fun _ => .int 0) mem es := by
  obtain ⟨m, f, hm, hf, hphi⟩ := Source.Sample.head_lowers (p := Source.Sample.program)
    (fun f => ∃ b ∈ f.blocks, ∃ i ∈ b.code, i.op.isPhi = true) (by decide +kernel)
  obtain ⟨start, flat, htraces⟩ := Program.flatten_traces hm hf
  exact ⟨m, f, start, flat, hm, hf, hphi, htraces⟩

end SysY
