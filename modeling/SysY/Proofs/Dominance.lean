import Mathlib.Data.List.Induction
import SysY.Proofs.WellFormed

/-!
# Definitions come before uses

On every path through a lowered function, however often it goes around loops,
an instruction reads only temporaries whose defining instructions have been
executed on the path. For a phi this is said of the value for the block from
which the path comes.

What is known of a typed function where a path stands has been executed on the
path (`Reached`); a step along the path keeps this. Just before a phi, its own
temporary is the exception: it counts as known, but only the copy that
flattening puts into the block before would have assigned it.
-/

namespace SysY

open List

namespace IR

/-! ## Paths -/

/-- A place in a function. -/
structure Place where
  /-- The block from which control has come, if it has come from one. -/
  prev : Option Label
  block : Label
  /-- The number of its instructions before the place. -/
  index : Nat

/-- The instruction at a place. -/
def Function.instr? (f : Function) (s : Place) : Option Instr :=
  (f.code? s.block).bind (·[s.index]?)

/-- **Paths from the start of a function** to a place, with the instructions
that are executed on the way. -/
inductive Function.Path (f : Function) : List Instr → Place → Prop
  /-- At the first instruction of the first block. -/
  | start {l} : f.layout.head? = some l → Path f [] ⟨none, l, 0⟩
  /-- On to the next instruction of the block. -/
  | next {is s i} : Path f is s → f.instr? s = some i → i.op.isTerminator = false →
    Path f (is ++ [i]) { s with index := s.index + 1 }
  /-- On to another block. -/
  | jump {is s i l} : Path f is s → f.instr? s = some i → l ∈ i.op.successors →
    Path f (is ++ [i]) ⟨some s.block, l, 0⟩

/-- The values that an instruction reads if control has come from a block. -/
def Op.reads (prev : Option Label) : Op → List Value
  | phi a fromA b fromB =>
    if prev = some fromA then [a] else if prev = some fromB then [b] else []
  | op => op.operands

theorem Op.reads_of_not_isPhi {op : Op} (h : op.isPhi = false) (prev : Option Label) :
    op.reads prev = op.operands := by
  cases op with
  | phi => cases h
  | _ => rfl

/-! ## What has been executed -/

/-- The instruction that defines a temporary is among those executed. -/
def Defined (is : List Instr) (t : Temp) : Prop := ∃ i ∈ is, i.output = some t

theorem Defined.snoc {is : List Instr} {t : Temp} (h : Defined is t) (i : Instr) :
    Defined (is ++ [i]) t :=
  h.imp fun _ hj => ⟨mem_append_left _ hj.1, hj.2⟩

theorem Defined.last {is : List Instr} {i : Instr} {t : Temp} (h : i.output = some t) :
    Defined (is ++ [i]) t :=
  ⟨i, by simp, h⟩

/-- Whatever is known has been executed. -/
def Known.DefinedBy (S : Known) (is : List Instr) : Prop :=
  ∀ ⦃t k⦄, S.kinds t = some k → Defined is t

/-- **What holds where a path stands** in a part. -/
inductive Reached (sig : Signatures) (is : List Instr) (s : Place) (p : Part) : Prop
  /-- At the phi, of which the value that is taken has been computed. -/
  | phi {φ : Phi} : s.index = 0 → p.phi = some φ →
    (s.prev = some φ.fromA ∨ s.prev = some φ.fromB) →
    (∀ ⦃t k⦄, p.entry.kinds t = some k → t = φ.output ∨ Defined is t) →
    (∀ t, .temp t ∈ φ.instr.op.reads s.prev → Defined is t) → Reached sig is s p
  /-- After the phi, with some of the instructions still to come. -/
  | body {S n rest n'} : p.code.drop s.index = rest ++ [⟨none, p.last⟩] →
    Straight sig S n rest p.known n' → S.DefinedBy is → Reached sig is s p

variable {sig : Signatures} {is : List Instr} {s : Place} {p q : Part} {i : Instr} {n n' : Nat}

theorem getElem?_of_drop {α : Type} {l : List α} {k : Nat} {a : α} {rest : List α}
    (h : l.drop k = a :: rest) : l[k]? = some a ∧ l.drop (k + 1) = rest := by
  constructor
  · rw [← head?_drop, h]
    rfl
  · rw [← tail_drop, h]
    rfl

section

variable (h : Reached sig is s p) (hi : p.code[s.index]? = some i)

include h hi

/-- Where a path stands, what is read has been executed. -/
theorem Reached.defined_of_reads (hp : p.Permitted sig n n') {t : Temp}
    (ht : .temp t ∈ i.op.reads s.prev) :
    Defined is t := by
  cases h with
  | @phi φ hzero hφ _ _ hreads =>
    have hcode : p.code[0]? = some φ.instr := by simp [Part.code, Part.init, hφ]
    rw [hzero, hcode] at hi
    cases hi
    exact hreads t ht
  | @body S m rest m' hdrop hrest hS =>
    cases hrest with
    | nil =>
      cases hi.symm.trans (getElem?_of_drop hdrop).1
      rw [Op.reads_of_not_isPhi hp.last.not_isPhi] at ht
      obtain ⟨k, hk⟩ := hp.last.known_of_operand ht
      exact hS hk
    | define hstep | perform hstep =>
      cases hi.symm.trans (getElem?_of_drop hdrop).1
      rw [Op.reads_of_not_isPhi hstep.not_isPhi] at ht
      obtain ⟨k, hk⟩ := hstep.known_of_operand ht
      exact hS hk

/-- Where a path stands at a phi, it has come from one of the two blocks. -/
theorem Reached.prev_of_phi (hp : p.Permitted sig n n') {a b : Value} {fromA fromB : Label}
    (hop : i.op = .phi a fromA b fromB) : s.prev = some fromA ∨ s.prev = some fromB := by
  cases h with
  | @phi φ hzero hφ hprev =>
    have hcode : p.code[0]? = some φ.instr := by simp [Part.code, Part.init, hφ]
    rw [hzero, hcode] at hi
    cases hi
    cases hop
    exact hprev
  | @body S m rest m' hdrop hrest hS =>
    have hnot : i.op.isPhi = false := by
      cases hrest with
      | nil =>
        cases hi.symm.trans (getElem?_of_drop hdrop).1
        exact hp.last.not_isPhi
      | define hstep | perform hstep =>
        cases hi.symm.trans (getElem?_of_drop hdrop).1
        exact hstep.not_isPhi
    rw [hop] at hnot
    cases hnot

/-- Inside of a block a path keeps what is known. -/
theorem Reached.next (hp : p.Permitted sig n n') (hterm : i.op.isTerminator = false) :
    Reached sig (is ++ [i]) { s with index := s.index + 1 } p := by
  cases h with
  | @phi φ hzero hφ _ hentry _ =>
    have hcode : p.code = φ.instr :: (p.body ++ [⟨none, p.last⟩]) := by
      simp [Part.code, Part.init, hφ]
    rw [hzero, hcode] at hi
    cases hi
    refine .body (by simp [hzero, hcode]) hp.body fun t k ht => ?_
    rcases hentry ht with rfl | hdone
    · exact .last rfl
    · exact hdone.snoc _
  | @body S m rest m' hdrop hrest hS =>
    have hlater : ∀ {S1 : Known}, Step sig S i S1 → S1.DefinedBy (is ++ [i]) := by
      intro S1 hstep t k ht
      rcases hstep.kinds_of ht with hout | hold
      · exact .last hout
      · exact (hS hold).snoc i
    cases hrest with
    | nil =>
      cases hi.symm.trans (getElem?_of_drop hdrop).1
      rw [hp.last.isTerminator] at hterm
      cases hterm
    | define hstep hrest | perform hstep hrest =>
      cases hi.symm.trans (getElem?_of_drop hdrop).1
      exact .body (getElem?_of_drop hdrop).2 hrest (hlater hstep)

/-- Where a path leaves a block, all that is known at the end has been
executed. -/
theorem Reached.leave
    (hterm : i.op.isTerminator = true) : i = ⟨none, p.last⟩ ∧ p.known.DefinedBy is := by
  cases h with
  | @phi φ hzero hφ =>
    have hcode : p.code[0]? = some φ.instr := by simp [Part.code, Part.init, hφ]
    rw [hzero, hcode] at hi
    cases hi
    cases hterm
  | @body S m rest m' hdrop hrest hS =>
    cases hrest with
    | nil => exact ⟨Option.some.inj (hi.symm.trans (getElem?_of_drop hdrop).1), hS⟩
    | define hstep | perform hstep =>
      cases hi.symm.trans (getElem?_of_drop hdrop).1
      rw [hstep.not_isTerminator] at hterm
      cases hterm

end

namespace Function.Typed

variable {f : Function} {ps : List Part}

/-- Where a block leads, enough has been executed. -/
theorem reached_of_leads (h : f.Typed sig ps) (hp : p ∈ ps) (hq : q ∈ ps) (hleads : p.Leads q)
    (hknown : p.known.DefinedBy is) : Reached sig is ⟨some p.label, q.label, 0⟩ q := by
  obtain ⟨_, _, hpart⟩ := h.parts.permitted hp
  obtain ⟨_, _, hpart'⟩ := h.parts.permitted hq
  obtain ⟨-, hleads⟩ := hleads
  cases hφ : q.phi with
  | none =>
    rw [hφ] at hleads
    refine .body (by simp [Part.code, Part.init, hφ]) hpart'.body fun t k ht => ?_
    exact hknown (hleads ht)
  | some φ =>
    rw [hφ] at hleads
    obtain ⟨v, hcopy, hsub⟩ := hleads
    obtain ⟨r, hr, ψ, hψ, hout, hfrom⟩ := h.exists_phi hp hcopy
    cases h.eq_of_phi hr hq hψ hφ hout
    cases hψ.symm.trans hφ
    refine .phi rfl hφ (hfrom.imp (congrArg some ·.1) (congrArg some ·.1)) (fun t k ht => ?_)
      fun t ht => ?_
    · exact (Known.eq_or_of_kinds_add (hsub ht)).imp (·.1) fun h => hknown h.2
    · -- the value is the one that is copied
      have hne := (hpart'.phi φ hφ).2.1
      have hv : φ.instr.op.reads (some p.label) = [v] := by
        rcases hfrom with ⟨hl, rfl⟩ | ⟨hl, rfl⟩
        · simp [Phi.instr, Op.reads, hl]
        · simp [Phi.instr, Op.reads, hl, hne.symm]
      rw [hv] at ht
      obtain rfl := mem_singleton.1 ht
      obtain ⟨-, k, hk, -⟩ := (hpart.copy _ _ hcopy).1
      exact hknown hk

/-- The instruction at a place, in the part of its block. -/
theorem getElem?_code (h : f.Typed sig ps) (hp : p ∈ ps) (hlabel : p.label = s.block)
    (hi : f.instr? s = some i) : p.code[s.index]? = some i := by
  unfold Function.instr? at hi
  rw [← hlabel, h.code p hp] at hi
  exact hi

/-- **What is known where a path stands has been executed on it.** -/
theorem reached (h : f.Typed sig ps) (hpath : f.Path is s) :
    ∃ p ∈ ps, p.label = s.block ∧ Reached sig is s p := by
  induction hpath with
  | @start l hl =>
    obtain ⟨p, hhead, -, hentry, hnone⟩ := h.first
    have hp : p ∈ ps := mem_of_head? hhead
    obtain ⟨_, _, hpart⟩ := h.parts.permitted hp
    have hlabel : p.label = l := by
      rw [h.layout, head?_map, hhead] at hl
      exact Option.some.inj hl
    refine ⟨p, hp, hlabel, .body (by simp [Part.code, Part.init, hnone]) hpart.body ?_⟩
    rw [hentry]
    exact fun t k ht => by cases ht
  | next _ hi hterm ih =>
    obtain ⟨p, hp, hlabel, hreached⟩ := ih
    obtain ⟨_, _, hpart⟩ := h.parts.permitted hp
    exact ⟨p, hp, hlabel, hreached.next (h.getElem?_code hp hlabel hi) hpart hterm⟩
  | @jump is s i l _ hi hl ih =>
    obtain ⟨p, hp, hlabel, hreached⟩ := ih
    obtain ⟨_, _, hpart⟩ := h.parts.permitted hp
    have hterm : i.op.isTerminator = true := by
      cases hop : i.op <;> rw [hop] at hl <;> first | rfl | cases hl
    obtain ⟨rfl, hknown⟩ := hreached.leave (h.getElem?_code hp hlabel hi) hterm
    obtain ⟨q, hq, rfl, hleads⟩ := h.leads p hp l hl
    rw [← hlabel]
    refine ⟨q, hq, rfl, h.reached_of_leads hp hq hleads fun t k ht => (hknown ht).snoc _⟩

/-- On a path through a typed function, what is read has been executed. -/
theorem defined_of_reads (h : f.Typed sig ps) (hpath : f.Path is s) (hi : f.instr? s = some i) :
    (∀ t, .temp t ∈ i.op.reads s.prev → Defined is t) ∧
      ∀ a fromA b fromB, i.op = .phi a fromA b fromB → s.prev = some fromA ∨ s.prev = some fromB := by
  obtain ⟨p, hp, hlabel, hreached⟩ := h.reached hpath
  obtain ⟨_, _, hpart⟩ := h.parts.permitted hp
  have hcode := h.getElem?_code hp hlabel hi
  exact ⟨fun t ht => hreached.defined_of_reads hcode hpart ht,
    fun a fromA b fromB hop => hreached.prev_of_phi hcode hpart hop⟩

end Function.Typed

/-- A path goes through a block up to the instruction that leaves it. -/
theorem Function.Path.through {f : Function} {prev : Option Label} {l : Label}
    (h : f.Path is ⟨prev, l, 0⟩) {init rest : List Instr} (hcode : f.code? l = some (init ++ rest))
    (hinit : ∀ i ∈ init, i.op.isTerminator = false) :
    f.Path (is ++ init) ⟨prev, l, init.length⟩ := by
  induction init using reverseRecOn generalizing rest with
  | nil => rwa [append_nil]
  | append_singleton init i ih =>
    have hcode' : f.code? l = some (init ++ i :: rest) := by
      rw [hcode, append_assoc]
      rfl
    have hbefore := ih hcode' fun j hj => hinit j (mem_append_left _ hj)
    have hi : f.instr? ⟨prev, l, init.length⟩ = some i := by
      simp [Function.instr?, hcode]
    rw [← append_assoc, length_append]
    exact hbefore.next hi (hinit i (by simp))

end IR

/-- **In lowered functions definitions come before uses**, whether the program
is accepted or not. Take any path from the start of a function: if the
instruction that is next reads a temporary, then the one that defines it has
been executed on the path. A phi reads the value for the block from which the
path comes, and that is always one of the two. -/
theorem Program.lower_defines_before_use {p : Program} {m : IR.Module}
    (h : p.lower.result = .ok m) {f : IR.Function} (hf : f ∈ m.functions) {is : List IR.Instr}
    {s : IR.Place} (hpath : f.Path is s) {i : IR.Instr} (hi : f.instr? s = some i) :
    (∀ t, .temp t ∈ i.op.reads s.prev → ∃ d ∈ is, d.output = some t) ∧
      ∀ a fromA b fromB, i.op = .phi a fromA b fromB → s.prev = some fromA ∨ s.prev = some fromB := by
  obtain ⟨_, _, htyped⟩ := Program.lower_typed h hf
  exact htyped.defined_of_reads hpath hi

/-- What the lowered `sum` does before its loop. -/
def Source.Sample.sumEntry : List IR.Instr :=
  [⟨some 0, .alloca⟩, ⟨none, .store (.arg 0) (.temp 0)⟩, ⟨some 1, .alloca⟩,
    ⟨none, .store (.arg 1) (.temp 1)⟩, ⟨some 2, .alloca⟩, ⟨none, .store (.const 0) (.temp 2)⟩,
    ⟨some 3, .alloca⟩, ⟨none, .store (.const 0) (.temp 3)⟩]

/-- The first operand of the condition of its loop. -/
def Source.Sample.sumCond : List IR.Instr :=
  [⟨some 4, .load (.temp 2)⟩, ⟨some 5, .load (.temp 1)⟩,
    ⟨some 6, .compare .lt (.temp 4) (.temp 5)⟩, ⟨some 7, .zext (.temp 6)⟩,
    ⟨some 8, .compare .ne (.temp 7) (.const 0)⟩]

/-- The path enters the loop of `sum` and takes the short way through its
condition. -/
theorem Program.lower_defines_before_use_sample :
    ∃ m f, Source.Sample.program.lower.result = .ok m ∧ f ∈ m.functions ∧ ∃ is,
      f.Path is ⟨some 1, 5, 0⟩ ∧
      f.instr? ⟨some 1, 5, 0⟩ = some ⟨some 14, .phi (.temp 8) 1 (.temp 13) 4⟩ ∧
      ∃ d ∈ is, d.output = some 8 := by
  obtain ⟨m, f, hm, hf, hlayout, hentry, hcond, hphi⟩ := Source.Sample.head_lowers (p := Source.Sample.program)
    (fun f => f.layout.head? = some 0 ∧
      f.code? 0 = some (Source.Sample.sumEntry ++ [⟨none, .jump 1⟩]) ∧
      f.code? 1 = some (Source.Sample.sumCond ++ [⟨none, .branch (.temp 8) 4 5⟩]) ∧
      f.instr? ⟨some 1, 5, 0⟩ = some ⟨some 14, .phi (.temp 8) 1 (.temp 13) 4⟩) (by decide +kernel)
  have hstart := (IR.Function.Path.start hlayout).through hentry (by decide)
  have hjump := hstart.jump (i := ⟨none, .jump 1⟩) (l := 1)
    (by simp [IR.Function.instr?, hentry]) (by decide)
  have hthrough := hjump.through hcond (by decide)
  have hpath := hthrough.jump (i := ⟨none, .branch (.temp 8) 4 5⟩) (l := 5)
    (by simp [IR.Function.instr?, hcond]) (by decide)
  exact ⟨m, f, hm, hf, _, hpath, hphi,
    (Program.lower_defines_before_use hm hf hpath hphi).1 8 (by decide)⟩

end SysY
