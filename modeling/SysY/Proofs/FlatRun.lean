import SysY.Proofs.WellFormed

/-!
# Running flattened functions

A flattened function is run line by line. There are no phis to execute any
more: a copy at the end of a block has put the value where the phi would have
put it, and the phi itself does nothing. A block may make such a copy also on
the way to where the phi is not; nothing reads it there.

Of each run it is recorded how much stack it takes, when a call takes
`size g` bytes for the function `g` that is called: a `StackRun` is a run with
this number, and the flattened function takes as much (`StackRun.flat`).
-/

namespace SysY.IR

open List Option

/-! ## The stack of a run -/

variable (size : Function → Nat) (m : Module)

/-- **The runs of a function that end, with the stack they take**: what calls
made on the way need below the frame of the function itself. -/
inductive StackRun : Function → List Val → Point → Memory → Nat → Option Val → Memory → Prop
  | step {f args prev cur i rest temps mem v mem' k r final} :
    i.op.eval m args prev temps mem = some (v, mem') →
    StackRun f args ⟨prev, cur, rest, temps.assign i.output v⟩ mem' k r final →
    StackRun f args ⟨prev, cur, i :: rest, temps⟩ mem k r final
  | goto {f args prev cur i rest temps mem l code k r final} :
    i.op.target? m args temps = some l → f.code? l = some code →
    StackRun f args ⟨some cur, l, code, temps⟩ mem k r final →
    StackRun f args ⟨prev, cur, i :: rest, temps⟩ mem k r final
  /-- A call, for which there has to be room. -/
  | call {f args prev cur output callee vs rest temps mem ws g start k' v mem' temps' k r final} :
    evalArgs m args temps vs = some ws → m.function? callee = some g → g.entry? = some start →
    StackRun g ws start mem k' v mem' → temps.receive output v = some temps' →
    StackRun f args ⟨prev, cur, rest, temps'⟩ mem' k r final →
    StackRun f args ⟨prev, cur, ⟨output, .call callee vs⟩ :: rest, temps⟩ mem
      (max (size g + k') k) r final
  | ret {f args prev cur output value rest temps mem v} :
    value.eval m args temps = some v →
    StackRun f args ⟨prev, cur, ⟨output, .ret value⟩ :: rest, temps⟩ mem 0 (some v) mem
  | retVoid {f args prev cur output rest temps mem} :
    StackRun f args ⟨prev, cur, ⟨output, .retVoid⟩ :: rest, temps⟩ mem 0 none mem

/-- A call of a function from outside that takes `k` bytes of stack. -/
def CallsOnStack (name : String) (args : List Val) (mem : Memory) (k : Nat) (r : Option Val)
    (final : Memory) : Prop :=
  ∃ f start k', m.function? name = some f ∧ f.entry? = some start ∧
    StackRun size m f args start mem k' r final ∧ k = size f + k'

variable {size m} {f : Function} {args : List Val} {pt : Point} {mem final : Memory} {r : Option Val} {k : Nat} {name : String} {t : Temp} {output : Option Temp}
  {fuel : Nat}

/-- **Every run takes some stack.** -/
theorem Run.onStack (h : Run m f args pt mem r final) :
    ∃ k, StackRun size m f args pt mem k r final := by
  induction h with
  | step heval _ ih =>
    obtain ⟨k, hrun⟩ := ih
    exact ⟨k, .step heval hrun⟩
  | goto htarget hcode _ ih =>
    obtain ⟨k, hrun⟩ := ih
    exact ⟨k, .goto htarget hcode hrun⟩
  | call hargs hg hstart _ hreceive _ ihcall ih =>
    obtain ⟨k', hcall⟩ := ihcall
    obtain ⟨k, hrun⟩ := ih
    exact ⟨_, .call hargs hg hstart hcall hreceive hrun⟩
  | ret hv => exact ⟨0, .ret hv⟩
  | retVoid => exact ⟨0, .retVoid⟩

theorem Calls.onStack (h : Calls m name args mem r final) :
    ∃ k, CallsOnStack size m name args mem k r final := by
  obtain ⟨f, start, hf, hstart, hrun⟩ := h
  obtain ⟨k, hrun⟩ : ∃ k, StackRun size m f args start mem k r final := hrun.onStack
  exact ⟨_, f, start, k, hf, hstart, hrun, rfl⟩

/-- **Run a function** from a point, with at most so many instructions on any
way through it: the stack that it takes, what it returns, and memory then. -/
def Function.runFrom (size : Function → Nat) (m : Module) :
    Nat → Function → List Val → Point → Memory → Option (Nat × Option Val × Memory)
  | 0, _, _, _, _ => none
  | _ + 1, _, _, ⟨_, _, [], _⟩, _ => none
  | _ + 1, _, args, ⟨_, _, ⟨_, .ret value⟩ :: _, temps⟩, mem => do
    let v ← value.eval m args temps
    return (0, some v, mem)
  | _ + 1, _, _, ⟨_, _, ⟨_, .retVoid⟩ :: _, _⟩, mem => some (0, none, mem)
  | fuel + 1, f, args, ⟨prev, cur, ⟨output, .call callee vs⟩ :: rest, temps⟩, mem => do
    let ws ← evalArgs m args temps vs
    let g ← m.function? callee
    let start ← g.entry?
    let (k', v, mem) ← runFrom size m fuel g ws start mem
    let temps ← temps.receive output v
    let (k, r, final) ← runFrom size m fuel f args ⟨prev, cur, rest, temps⟩ mem
    return (max (size g + k') k, r, final)
  | fuel + 1, f, args, ⟨prev, cur, i :: rest, temps⟩, mem =>
    match i.op.eval m args prev temps mem with
    | some (v, mem) => runFrom size m fuel f args ⟨prev, cur, rest, temps.assign i.output v⟩ mem
    | none => do
      let l ← i.op.target? m args temps
      let code ← f.code? l
      runFrom size m fuel f args ⟨some cur, l, code, temps⟩ mem

/-- What is computed is a run. -/
theorem StackRun.of_runFrom (h : f.runFrom size m fuel args pt mem = some (k, r, final)) :
    StackRun size m f args pt mem k r final := by
  induction fuel generalizing f args pt mem k r final with
  | zero => cases h
  | succ fuel ih =>
    unfold Function.runFrom at h
    split at h
    next heq => cases heq
    next => cases h
    next heq =>
      cases heq
      obtain ⟨v, hv, h⟩ := bind_eq_some_iff.1 h
      cases h
      exact .ret hv
    next =>
      cases h
      exact .retVoid
    next heq =>
      cases heq
      obtain ⟨ws, hws, h⟩ := bind_eq_some_iff.1 h
      obtain ⟨g, hg, h⟩ := bind_eq_some_iff.1 h
      obtain ⟨start, hstart, h⟩ := bind_eq_some_iff.1 h
      obtain ⟨⟨k', v, mem'⟩, hcallee, h⟩ := bind_eq_some_iff.1 h
      obtain ⟨temps', hreceive, h⟩ := bind_eq_some_iff.1 h
      obtain ⟨⟨k'', r', final'⟩, hrest, h⟩ := bind_eq_some_iff.1 h
      cases h
      exact .call hws hg hstart (ih hcallee) hreceive (ih hrest)
    next heq =>
      cases heq
      split at h
      next heval => exact .step heval (ih h)
      next =>
        obtain ⟨l, hl, h⟩ := bind_eq_some_iff.1 h
        obtain ⟨code, hcode, h⟩ := bind_eq_some_iff.1 h
        exact .goto hl hcode (ih h)

/-- Call a function from outside. -/
def Module.callOnStack (size : Function → Nat) (m : Module) (fuel : Nat) (name : String)
    (args : List Val) (mem : Memory) : Option (Nat × Option Val × Memory) := do
  let f ← m.function? name
  let start ← f.entry?
  let (k, r, final) ← f.runFrom size m fuel args start mem
  return (size f + k, r, final)

theorem CallsOnStack.of_callOnStack {fuel : Nat}
    (h : m.callOnStack size fuel name args mem = some (k, r, final)) :
    CallsOnStack size m name args mem k r final := by
  obtain ⟨f, hf, h⟩ := bind_eq_some_iff.1 h
  obtain ⟨start, hstart, h⟩ := bind_eq_some_iff.1 h
  obtain ⟨⟨k', r', final'⟩, hrun, h⟩ := bind_eq_some_iff.1 h
  cases h
  exact ⟨f, start, k', hf, hstart, .of_runFrom hrun, rfl⟩

/-! ## Runs of flattened functions -/

variable (size m) in
/-- **The runs of a flattened function that end**, from a line. -/
inductive FlatRun : Flat → List Val → Nat → Temps → Memory → Nat → Option Val → Memory → Prop
  | step {flat args n i temps mem v mem' k r final} :
    flat.lines[n]? = some (.instr i) → i.op.isPhi = false →
    i.op.eval m args none temps mem = some (v, mem') →
    FlatRun flat args (n + 1) (temps.assign i.output v) mem' k r final →
    FlatRun flat args n temps mem k r final
  /-- A phi, which does nothing. -/
  | phi {flat args n temps mem k r final} {φ : Phi} :
    flat.lines[n]? = some (.instr φ.instr) → FlatRun flat args (n + 1) temps mem k r final →
    FlatRun flat args n temps mem k r final
  | copy {flat args n t v w temps mem k r final} :
    flat.lines[n]? = some (.copy t v) → v.eval m args temps = some w →
    FlatRun flat args (n + 1) (temps.assign (some t) w) mem k r final →
    FlatRun flat args n temps mem k r final
  | goto {flat args n i temps mem l s k r final} :
    flat.lines[n]? = some (.instr i) → i.op.target? m args temps = some l →
    flat.start? l = some s → FlatRun flat args s temps mem k r final →
    FlatRun flat args n temps mem k r final
  /-- A call, for which there has to be room. -/
  | call {flat args n output callee vs temps mem ws g flat' k' v mem' temps' k r final} :
    flat.lines[n]? = some (.instr ⟨output, .call callee vs⟩) →
    evalArgs m args temps vs = some ws → m.function? callee = some g → g.flatten = .ok flat' →
    FlatRun flat' ws 0 (fun _ => .int 0) mem k' v mem' →
    temps.receive output v = some temps' →
    FlatRun flat args (n + 1) temps' mem' k r final →
    FlatRun flat args n temps mem (max (size g + k') k) r final
  | ret {flat args n output value temps mem v} :
    flat.lines[n]? = some (.instr ⟨output, .ret value⟩) → value.eval m args temps = some v →
    FlatRun flat args n temps mem 0 (some v) mem
  | retVoid {flat args n output temps mem} :
    flat.lines[n]? = some (.instr ⟨output, .retVoid⟩) →
    FlatRun flat args n temps mem 0 none mem

/-! ## Temporaries that agree -/

/-- Temporaries agree where something is known of them. -/
def Temps.Agree (S : Known) (temps temps' : Temps) : Prop :=
  ∀ ⦃t k⦄, S.kinds t = some k → temps t = temps' t

section Congr

variable {temps temps' : Temps} {v : Value} {S S' : Known} {op : Op} {prev : Option Label}

theorem Value.eval_congr (h : ∀ t, v = .temp t → temps t = temps' t) :
    v.eval m args temps = v.eval m args temps' := by
  cases v with
  | temp t => exact congrArg some (h t rfl)
  | _ => rfl

theorem Value.int?_congr (h : ∀ t, v = .temp t → temps t = temps' t) :
    v.int? m args temps = v.int? m args temps' := by
  rw [Value.int?, Value.int?, Value.eval_congr h]

theorem Value.addr?_congr (h : ∀ t, v = .temp t → temps t = temps' t) :
    v.addr? m args temps = v.addr? m args temps' := by
  rw [Value.addr?, Value.addr?, Value.eval_congr h]

theorem evalArgs_congr {vs : List Value} (h : ∀ t, .temp t ∈ vs → temps t = temps' t) :
    evalArgs m args temps vs = evalArgs m args temps' vs := by
  induction vs with
  | nil => rfl
  | cons v vs ih =>
    rw [evalArgs, evalArgs, ih fun t ht => h t (mem_cons_of_mem _ ht),
      Value.eval_congr fun t ht => h t (ht ▸ mem_cons_self)]

/-- An operation that is no phi depends on what it reads only. -/
theorem Op.eval_congr (h : ∀ t, .temp t ∈ op.operands → temps t = temps' t)
    (hphi : op.isPhi = false) :
    op.eval m args prev temps mem = op.eval m args none temps' mem := by
  have hint : ∀ v ∈ op.operands, v.int? m args temps = v.int? m args temps' :=
    fun v hv => Value.int?_congr fun t ht => h t (ht ▸ hv)
  have haddr : ∀ v ∈ op.operands, v.addr? m args temps = v.addr? m args temps' :=
    fun v hv => Value.addr?_congr fun t ht => h t (ht ▸ hv)
  have heval : ∀ v ∈ op.operands, v.eval m args temps = v.eval m args temps' :=
    fun v hv => Value.eval_congr fun t ht => h t (ht ▸ hv)
  cases op with
  | phi => cases hphi
  | load a => simp only [Op.eval, haddr a (by simp [Op.operands])]
  | store v a =>
    simp only [Op.eval, heval v (by simp [Op.operands]), haddr a (by simp [Op.operands])]
  | binary op a b | compare op a b =>
    simp only [Op.eval, hint a (by simp [Op.operands]), hint b (by simp [Op.operands])]
  | zext v => simp only [Op.eval, heval v (by simp [Op.operands])]
  | element b o =>
    simp only [Op.eval, haddr b (by simp [Op.operands]), hint o (by simp [Op.operands])]
  | _ => rfl

theorem Op.target?_congr (h : ∀ t, .temp t ∈ op.operands → temps t = temps' t) :
    op.target? m args temps = op.target? m args temps' := by
  cases op with
  | branch c yes no =>
    have hc : c.int? m args temps = c.int? m args temps' :=
      Value.int?_congr fun t ht => h t (ht ▸ mem_singleton_self c)
    simp only [Op.target?, hc]
  | _ => rfl

theorem Temps.assign_of_ne {u : Temp} {w : Val} (h : u ≠ t) :
    temps.assign (some t) w u = temps u := if_neg h

@[simp] theorem Temps.assign_self {w : Val} : temps.assign (some t) w t = w := if_pos rfl

theorem Temps.Agree.mono (h : temps.Agree S' temps') (hsub : Known.Sub S S') :
    temps.Agree S temps' := fun _ _ ht => h (hsub ht)

theorem Temps.Agree.assign (h : temps.Agree S temps')
    (hkinds : ∀ {t k}, S'.kinds t = some k → output = some t ∨ S.kinds t = some k) (w : Val) :
    (temps.assign output w).Agree S' (temps'.assign output w) := by
  intro t k ht
  cases output with
  | none => exact h ((hkinds ht).resolve_left nofun)
  | some u =>
    by_cases hu : t = u
    · rw [hu, Temps.assign_self, Temps.assign_self]
    · rw [Temps.assign_of_ne hu, Temps.assign_of_ne hu]
      refine h ((hkinds ht).resolve_left fun heq => hu ?_)
      exact (Option.some.inj heq).symm

theorem Temps.Agree.receive {r : Option Val} {after : Temps} (h : temps.Agree S temps')
    (hkinds : ∀ {t k}, S'.kinds t = some k → output = some t ∨ S.kinds t = some k)
    (hreceive : temps.receive output r = some after) :
    ∃ after', temps'.receive output r = some after' ∧ after.Agree S' after' := by
  cases output with
  | none =>
    cases hreceive
    exact ⟨temps', rfl, fun t k ht => h ((hkinds ht).resolve_left nofun)⟩
  | some t =>
    cases r with
    | none => cases hreceive
    | some w =>
      cases hreceive
      exact ⟨_, rfl, h.assign hkinds w⟩

end Congr

/-! ## From blocks to lines -/

/-- **A run of a function and one of its flattened form are at the same
place**, in the block of a part. Either the block begins with a phi, whose
value the copy has already put in its place; or what is left of the block is
straight code. -/
inductive Follows (sig : Signatures) (m : Module) (args : List Val) (ps : List Part) (pt : Point)
    (n : Nat) (temps : Temps) : Prop
  | phi {pre p post} {φ : Phi} : ps = pre ++ p :: post → n = lineCount pre → pt.current = p.label →
    pt.rest = p.code → p.phi = some φ →
    (∀ ⦃t k⦄, p.entry.kinds t = some k → t ≠ φ.output → pt.temps t = temps t) →
    (∀ mem, φ.instr.op.eval m args pt.previous pt.temps mem = some (temps φ.output, mem)) →
    Follows sig m args ps pt n temps
  | body {pre p post done S k rest k'} : ps = pre ++ p :: post → n = lineCount pre + done.length →
    pt.current = p.label → pt.rest = rest ++ [⟨none, p.last⟩] →
    p.lines = done ++ (rest.map .instr ++ (p.copyLines ++ [.instr ⟨none, p.last⟩])) →
    Straight sig S k rest p.known k' → pt.temps.Agree S temps →
    Follows sig m args ps pt n temps

section Follows

variable {sig : Signatures} {ps : List Part} {n : Nat} {temps : Temps} {p q : Part}

theorem Part.code_of_phi {φ : Phi} (h : p.phi = some φ) :
    p.code = φ.instr :: (p.body ++ [⟨none, p.last⟩]) := by
  simp [Part.code, Part.init, h]

theorem Part.code_of_no_phi (h : p.phi = none) : p.code = p.body ++ [⟨none, p.last⟩] := by
  simp [Part.code, Part.init, h]

theorem Part.lines_of_no_phi (h : p.phi = none) :
    p.lines = p.body.map .instr ++ (p.copyLines ++ [.instr ⟨none, p.last⟩]) := by
  simp [Part.lines, Part.init, h]

/-- The line after the first ones of a part. -/
theorem flat_lines_getElem? {pre post : List Part} {done rest : List Line} {line : Line}
    (hps : ps = pre ++ p :: post) (hlines : p.lines = done ++ line :: rest) :
    (Flat.lines ⟨ps.map (·.flat)⟩)[lineCount pre + done.length]? = some line := by
  rw [Function.Typed.lines_eq, hps]
  refine lines_getElem?_part ?_
  rw [hlines, getElem?_append_right (Nat.le_refl _), Nat.sub_self]
  rfl

/-- Where a function begins. -/
theorem Function.Typed.entry?_eq (h : f.Typed sig ps) (hp : ps.head? = some p) :
    f.entry? = some ⟨none, p.label, p.code, fun _ => .int 0⟩ := by
  have hcode := h.code p (mem_of_head? hp)
  rw [Function.entry?, h.layout, head?_map, hp]
  simp [hcode]

theorem Function.Typed.follows_entry (h : f.Typed sig ps) {start : Point}
    (hstart : f.entry? = some start) : Follows sig m args ps start 0 (fun _ => .int 0) := by
  obtain ⟨p, hhead, -, -, hphi⟩ := h.first
  obtain ⟨post, rfl⟩ := head?_eq_some_iff.1 hhead
  obtain ⟨_, _, hp⟩ := h.parts.permitted (p := p) mem_cons_self
  cases (h.entry?_eq rfl).symm.trans hstart
  exact .body (show p :: post = [] ++ p :: post from rfl)
    (show 0 = lineCount [] + ([] : List Line).length from rfl) rfl (Part.code_of_no_phi hphi)
    (Part.lines_of_no_phi hphi) hp.body fun _ _ _ => rfl

variable {after before : Temps} {i : Instr}

/-- **Where a block leads to.** The copy has given the phi's temporary the
value that the phi is about to have. -/
theorem Function.Typed.follows_leads (h : f.Typed sig ps) (hp : p ∈ ps) (hq : q ∈ ps)
    (hleads : p.Leads q) (hagree : before.Agree p.known after)
    (hcopy : ∀ t v, p.copy = some (t, v) → v.eval m args before = some (after t)) :
    ∃ s, Flat.start? ⟨ps.map (·.flat)⟩ q.label = some s ∧
      Follows sig m args ps ⟨some p.label, q.label, q.code, before⟩ s after := by
  obtain ⟨pre, post, hps⟩ := append_of_mem hq
  have hstart : Flat.start? ⟨ps.map (·.flat)⟩ q.label = some (lineCount pre) := by
    rw [hps]
    exact Flat.start?_part (hps ▸ h.nodup)
  obtain ⟨_, _, hpart⟩ := h.parts.permitted hq
  refine ⟨_, hstart, ?_⟩
  obtain ⟨-, hleads⟩ := hleads
  cases hφ : q.phi with
  | none =>
    rw [hφ] at hleads
    exact .body hps (show lineCount pre = lineCount pre + ([] : List Line).length from rfl) rfl
      (Part.code_of_no_phi hφ) (Part.lines_of_no_phi hφ) hpart.body (hagree.mono hleads)
  | some φ =>
    rw [hφ] at hleads
    obtain ⟨v, hc, hsub⟩ := hleads
    refine .phi hps rfl rfl rfl hφ (fun t k ht hne => ?_) fun mem => ?_
    · exact hagree ((Known.eq_or_of_kinds_add (hsub ht)).resolve_left fun heq => hne heq.1).2
    · -- of the phi's two values, it is the one for this block
      obtain ⟨r, hr, ψ, hψ, hout, hfrom⟩ := h.exists_phi hp hc
      cases h.eq_of_phi hr hq hψ hφ hout
      cases hψ.symm.trans hφ
      have hne := (hpart.phi φ hφ).2.1
      have hv := hcopy _ _ hc
      rcases hfrom with ⟨hl, rfl⟩ | ⟨hl, rfl⟩
      · simp [Phi.instr, Op.eval, hl, hv]
      · simp [Phi.instr, Op.eval, hl, hne.symm, hv]

theorem Straight.uncons {S S' : Known} {k k' : Nat} {is : List Instr}
    (h : Straight sig S k (i :: is) S' k') :
    ∃ S1 k1, Step sig S i S1 ∧ Straight sig S1 k1 is S' k' := by
  cases h with
  | define hstep hrest | perform hstep hrest => exact ⟨_, _, hstep, hrest⟩

/-- The last line of a part is at a line, when its copy has been made. -/
structure Leaving (m : Module) (args : List Val) (ps : List Part) (p : Part) (before : Temps)
    (n : Nat) (after : Temps) : Prop where
  /-- It is the last one. -/
  line : (Flat.lines ⟨ps.map (·.flat)⟩)[n]? = some (.instr ⟨none, p.last⟩)
  /-- Nothing else has changed. -/
  agree : before.Agree p.known after
  /-- The copy is made. -/
  copied : ∀ t v, p.copy = some (t, v) → v.eval m args before = some (after t)

/-- The way to a line on which at most a copy is made. -/
inductive Copies (m : Module) (flat : Flat) (args : List Val) (n : Nat) (temps : Temps) :
    Nat → Temps → Prop
  | none : Copies m flat args n temps n temps
  | one {t v w} : flat.lines[n]? = some (.copy t v) → v.eval m args temps = some w →
    Copies m flat args n temps (n + 1) (temps.assign (some t) w)

theorem Copies.run {flat : Flat} {n' : Nat} (h : Copies m flat args n temps n' after)
    (hrun : FlatRun size m flat args n' after mem k r final) :
    FlatRun size m flat args n temps mem k r final := by
  cases h with
  | none => exact hrun
  | one hline hv => exact .copy hline hv hrun

/-- What can be at a place: a phi, an instruction that stays in the block, or
the end of a block, before which there may be a copy to make. -/
theorem Follows.cases (hps : ∀ p ∈ ps, ∃ k k', p.Permitted sig k k') {prev : Option Label}
    {cur : Label} {rest : List Instr}
    (h : Follows sig m args ps ⟨prev, cur, i :: rest, before⟩ n temps) :
    (∃ φ : Phi, i = φ.instr ∧ (Flat.lines ⟨ps.map (·.flat)⟩)[n]? = some (.instr φ.instr) ∧
      (∀ mem, i.op.eval m args prev before mem = some (temps φ.output, mem)) ∧
      Follows sig m args ps ⟨prev, cur, rest, before.assign i.output (temps φ.output)⟩ (n + 1)
        temps) ∨
    (∃ S S', Step sig S i S' ∧ (Flat.lines ⟨ps.map (·.flat)⟩)[n]? = some (.instr i) ∧
      before.Agree S temps ∧ ∀ after after', Temps.Agree S' after after' →
        Follows sig m args ps ⟨prev, cur, rest, after⟩ (n + 1) after') ∨
    ∃ p ∈ ps, i = ⟨none, p.last⟩ ∧ cur = p.label ∧ ∃ n' after, Leaving m args ps p before n' after ∧
      Copies m ⟨ps.map (·.flat)⟩ args n temps n' after := by
  cases h with
  | @phi pre p post φ heq hn hcur hrest hφ hagree heval =>
    obtain ⟨_, _, hp⟩ := hps p (by simp [heq])
    obtain ⟨rfl, rfl⟩ := List.cons.inj (hrest.trans (Part.code_of_phi hφ))
    have hlines : p.lines = [.instr φ.instr] ++ (p.body.map .instr ++ (p.copyLines ++
        [.instr ⟨none, p.last⟩])) := by simp [Part.lines, Part.init, hφ]
    have hline := flat_lines_getElem? heq (show p.lines = [] ++ .instr φ.instr :: _ from hlines)
    refine .inl ⟨φ, rfl, hn ▸ hline, heval, ?_⟩
    refine .body heq (show n + 1 = lineCount pre + [Line.instr φ.instr].length from hn ▸ rfl) hcur rfl
      hlines hp.body ?_
    intro t k ht
    by_cases hout : t = φ.output
    · rw [hout]
      exact Temps.assign_self
    · exact (Temps.assign_of_ne hout).trans (hagree ht hout)
  | @body pre p post done S k rest' k' heq hn hcur hrest hlines hstraight hagree =>
    have hmem : p ∈ ps := by simp [heq]
    cases rest' with
    | cons i' rest' =>
      obtain ⟨rfl, rfl⟩ := List.cons.inj hrest
      obtain ⟨S', k1, hstep, hstraight'⟩ := hstraight.uncons
      refine .inr (.inl ⟨S, S', hstep, hn ▸ flat_lines_getElem? heq hlines, hagree, ?_⟩)
      intro after after' hafter
      have hn' : n + 1 = lineCount pre + (done ++ [Line.instr i]).length := by
        rw [hn, length_append, length_singleton, Nat.add_assoc]
      refine .body heq hn' hcur rfl ?_ hstraight' hafter
      rw [hlines, append_assoc]
      rfl
    | nil =>
      obtain ⟨rfl, rfl⟩ := List.cons.inj hrest
      obtain ⟨_, _, hp⟩ := hps p hmem
      cases hstraight
      refine .inr (.inr ⟨p, hmem, rfl, hcur, ?_⟩)
      rw [map_nil, nil_append] at hlines
      unfold Part.copyLines at hlines
      cases hc : p.copy with
      | none =>
        rw [hc] at hlines
        refine ⟨n, temps, ⟨hn ▸ flat_lines_getElem? heq hlines, hagree, ?_⟩, .none⟩
        intro t v h
        cases hc.symm.trans h
      | some c =>
        obtain ⟨t, v⟩ := c
        rw [hc] at hlines
        obtain ⟨⟨⟨u, rfl⟩, k, hk, -⟩, hle⟩ := hp.copy t v hc
        -- what is copied into is not known yet
        have hne : ∀ {u k}, p.known.kinds u = some k → u ≠ t :=
          fun hu => Nat.ne_of_lt (Nat.lt_of_lt_of_le (hp.known_below hu) hle)
        have hcopy := hn ▸ flat_lines_getElem? heq hlines
        refine ⟨n + 1, temps.assign (some t) (temps u), ⟨?_, ?_, ?_⟩, .one hcopy rfl⟩
        · have hlast : p.lines = (done ++ [.copy t (.temp u)]) ++ [.instr ⟨none, p.last⟩] := by
            rw [hlines, append_assoc]
            rfl
          have hline := flat_lines_getElem? heq hlast
          rw [length_append, length_singleton, ← Nat.add_assoc, ← hn] at hline
          exact hline
        · intro u k hu
          rw [Temps.assign_of_ne (hne hu)]
          exact hagree hu
        · intro t' v' h
          cases hc.symm.trans h
          rw [Temps.assign_self]
          exact congrArg some (hagree hk)

theorem Op.Ends.eval_eq_none {S : Known} {op : Op} (h : op.Ends S) {prev : Option Label}
    : op.eval m args prev temps mem = none := by
  cases op with
  | jump | branch | ret | retVoid => rfl
  | _ => cases h

theorem Step.target?_eq_none {S S' : Known} (h : Step sig S i S') :
    i.op.target? m args temps = none := by
  cases h <;> rfl

theorem Op.target?_mem_successors {op : Op} {l : Label}
    (h : op.target? m args temps = some l) : l ∈ op.successors := by
  cases op with
  | jump => exact mem_singleton.2 (Option.some.inj h).symm
  | branch c yes no =>
    obtain ⟨n, -, rfl⟩ := map_eq_some_iff.1 h
    by_cases hn : n = 0 <;> simp [Op.successors, hn]
  | _ => cases h

theorem Leaving.operands (h : Leaving m args ps p before n after) (hends : p.last.Ends p.known)
    (ht : .temp t ∈ p.last.operands) : before t = after t := by
  obtain ⟨k, hk⟩ := hends.known_of_operand ht
  exact h.agree hk

/-- **A flattened function runs as the function does.** -/
theorem StackRun.flat (hm : ∀ name g, m.function? name = some g → ∃ sig ps, g.Typed sig ps)
    (h : StackRun size m f args pt mem k r final)
    (htyped : f.Typed sig ps) (hfollows : Follows sig m args ps pt n temps) :
    FlatRun size m ⟨ps.map (·.flat)⟩ args n temps mem k r final := by
  induction h generalizing sig ps n temps with
  | @step f args prev cur i rest before mem v mem' k r final heval hrun ih =>
    obtain ⟨φ, rfl, hline, hval, hnext⟩ | ⟨S, S', hstep, hline, hagree, hnext⟩ |
      ⟨p, hp, rfl, -⟩ := hfollows.cases fun p hp => htyped.parts.permitted hp
    · -- the value of a phi has been copied before
      cases heval.symm.trans (hval mem)
      exact .phi hline (ih htyped hnext)
    · have heval' : i.op.eval m args none temps mem = some (v, mem') := by
        rw [← heval]
        refine (Op.eval_congr (fun t ht => ?_) hstep.not_isPhi).symm
        obtain ⟨k, hk⟩ := hstep.known_of_operand ht
        exact hagree hk
      exact .step hline hstep.not_isPhi heval' (ih htyped (hnext _ _ (hagree.assign hstep.kinds_of v)))
    · obtain ⟨_, _, hpart⟩ := htyped.parts.permitted hp
      rw [hpart.last.eval_eq_none] at heval
      cases heval
  | @goto f args prev cur i rest before mem l code k r final htarget hcode hrun ih =>
    obtain ⟨φ, rfl, -⟩ | ⟨S, S', hstep, -⟩ | ⟨p, hp, rfl, rfl, n', after, hleaving, hcopies⟩ :=
      hfollows.cases fun p hp => htyped.parts.permitted hp
    · cases htarget
    · rw [hstep.target?_eq_none] at htarget
      cases htarget
    · obtain ⟨_, _, hpart⟩ := htyped.parts.permitted hp
      obtain ⟨q, hq, rfl, hleads⟩ := htyped.leads p hp l (Op.target?_mem_successors htarget)
      cases (htyped.code q hq).symm.trans hcode
      obtain ⟨s, hs, hnext⟩ :=
        htyped.follows_leads hp hq hleads hleaving.agree hleaving.copied
      rw [Op.target?_congr fun t ht => hleaving.operands hpart.last ht] at htarget
      exact hcopies.run (.goto hleaving.line htarget hs (ih htyped hnext))
  | @call f args prev cur output callee vs rest before mem ws g start k' v mem' after k r final
      hargs hg hstart _ hreceive _ ihg ih =>
    obtain ⟨φ, hφ, -⟩ | ⟨S, S', hstep, hline, hagree, hnext⟩ | ⟨p, hp, hlast, -⟩ :=
      hfollows.cases fun p hp => htyped.parts.permitted hp
    · cases hφ
    · obtain ⟨sig', ps', htyped'⟩ := hm callee g hg
      have hargs' : evalArgs m args temps vs = some ws := by
        rw [← hargs]
        refine (evalArgs_congr fun t ht => ?_).symm
        obtain ⟨k, hk⟩ := hstep.known_of_operand ht
        exact hagree hk
      obtain ⟨after', hreceive', hafter⟩ := hagree.receive hstep.kinds_of hreceive
      exact .call hline hargs' hg htyped'.flatten
        (ihg htyped' (htyped'.follows_entry hstart)) hreceive' (ih htyped (hnext _ _ hafter))
    · obtain ⟨_, _, hpart⟩ := htyped.parts.permitted hp
      have hends := hpart.last
      rw [← (Instr.mk.inj hlast).2] at hends
      cases hends
  | @ret f args prev cur output value rest before mem v hv =>
    obtain ⟨φ, hφ, -⟩ | ⟨S, S', hstep, -⟩ | ⟨p, hp, hlast, -, n', after, hleaving, hcopies⟩ :=
      hfollows.cases fun p hp => htyped.parts.permitted hp
    · cases hφ
    · cases hstep
    · obtain ⟨_, _, hpart⟩ := htyped.parts.permitted hp
      obtain ⟨-, hop⟩ := Instr.mk.inj hlast
      have hv' : value.eval m args after = some v := by
        rw [← hv]
        refine (Value.eval_congr fun t ht => hleaving.operands hpart.last ?_).symm
        rw [← hop, ht]
        exact mem_singleton_self _
      exact hcopies.run (.ret (hop ▸ hleaving.line) hv')
  | @retVoid f args prev cur output rest before mem =>
    obtain ⟨φ, hφ, -⟩ | ⟨S, S', hstep, -⟩ | ⟨p, hp, hlast, -, n', after, hleaving, hcopies⟩ :=
      hfollows.cases fun p hp => htyped.parts.permitted hp
    · cases hφ
    · cases hstep
    · exact hcopies.run (.retVoid ((Instr.mk.inj hlast).2 ▸ hleaving.line))

end Follows

end SysY.IR
