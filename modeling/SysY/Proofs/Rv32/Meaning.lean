import Mathlib
import SysY.Proofs.Lower.Meaning
import SysY.Proofs.Rv32.Labels
import SysY.Proofs.Rv32.Success

/-!
# Code generation keeps the meaning of modules

When a function of a lowered module runs to its end on the strict machine of
modules, the assembly that the module is emitted as does the same on the
processor (`Program.emit_preserves_runs`): entered at the label of the function
by the calling convention, with enough stack, it comes to a `ret` with the
return address, the stack pointer and the saved registers of the caller, with
the result in its register and with the words of all objects in memory, among
them the global variables. This is so for every number of registers. So the
assembly does what the source program does (`Program.compiled_finishes`).

How much stack is enough is said by the run: the frames of the functions that
are active at the same time.

The sample program is emitted by `cbv`, here and in the modules that import this
one. It needs the equations of core functions that many parts of the library
state, so the library is imported whole.
-/

namespace SysY

open IR

namespace Rv32

/-! ## Callers -/

/-- **A machine from which a function is called**: where the stack is, where the
objects in memory are, and that the arguments are where the convention has
them. The function may use so many bytes of stack. -/
structure Entry (img : Image) (m : Module) (args : List Val) (mem : Memory) (bytes : Nat) (c : Cpu)
    where
  sp : Nat
  /-- The objects that the caller has in memory. -/
  objs : Object → Prop
  /-- Where they are. -/
  loc : Nat → Nat
  stack : c.get .sp = Int32.ofNat sp
  aligned : sp % 4 = 0
  /-- There is enough stack, -/
  room : bytes ≤ sp
  /-- and above it there are the arguments that are not in registers. -/
  top : sp + 4 * (args.length - 8) ≤ 0x100000000
  placed : Placed loc objs
  /-- The words of objects are there, -/
  holds : Holds loc objs mem c.mem
  inside : ∀ ⦃o⦄, objs o → 0 < o.size ∧ o.base + o.size ≤ mem.length
  /-- none of them on the stack that the function uses. -/
  away : ∀ ⦃o⦄, objs o → loc o.base + 4 * o.size ≤ sp - bytes ∨ sp ≤ loc o.base
  /-- Global variables are objects, and where the program has its data. -/
  globals : ∀ ⦃name p⦄, m.global? name = some p → objs (pointee p) ∧ loc p.base = img.data + 4 * p.base
  /-- The arguments are passed; those that are addresses point into objects. -/
  passed : ∀ ⦃i v⦄, args[i]? = some v →
    IsWord loc mem.length v (argWord c sp i) ∧ ∀ p, v = .addr p → objs (pointee p)

/-- **What the caller finds** when the function has returned. -/
structure Entry.Finished {img : Image} {m : Module} {args : List Val} {mem : Memory} {bytes : Nat}
    {c : Cpu} (E : Entry img m args mem bytes c) (r : Option Val) (final : Memory) (c' : Cpu) :
    Prop where
  /-- The return address is that of the caller. -/
  address : c'.get .ra = c.get .ra
  /-- The stack is given back. -/
  stack : c'.get .sp = c.get .sp
  /-- Saved registers are the same. -/
  saved : ∀ i, c'.get (.s i) = c.get (.s i)
  /-- An integer that is returned is in its register. -/
  result : ∀ n, r = some (.int n) → c'.get returnReg = n
  /-- Integers in objects are where the objects are. -/
  words : ∀ ⦃o⦄, E.objs o → ∀ ⦃a⦄, o.Has a → ∀ n, final[a]? = some (some (.int n)) →
    c'.mem (E.loc o.base + 4 * (a - o.base)) = n
  /-- The same is true of addresses, when it is said where new objects were. -/
  values : ∃ loc, (∀ a < mem.length, loc a = E.loc a) ∧ Holds loc E.objs final c'.mem ∧
    ∀ v, r = some v → IsWord loc final.length v (c'.get returnReg)
  /-- Memory does not change outside of the stack and of objects. -/
  outside : ∀ x, x < E.sp - bytes ∨ E.sp ≤ x → (∀ o, E.objs o → ¬ o.Spans E.loc x) →
    c'.mem x = c.mem x

namespace Entry

variable {img : Image} {m : Module} {args : List Val} {mem final : Memory} {bytes : Nat} {c c' : Cpu}
  {r : Option Val}

variable (E : Entry img m args mem bytes c) (F : Compiled) (hroom : F.home.frame.size ≤ bytes)
  (hsymbol : ∀ ⦃name p⦄, m.global? name = some p →
    img.symbol? name = some (Int32.ofNat (img.data + 4 * p.base)))

/-- **The activation of the function that is called.** -/
def activation : Activation img m where
  code := F
  args := args
  sp := E.sp - F.home.frame.size
  low := E.sp - bytes
  ext := E.objs
  loc := E.loc
  start := mem
  entry := c
  aligned := by
    have haligned := E.aligned
    have hsize := F.frame.aligned
    omega
  top := by
    have hroom' := E.room
    have htop := E.top
    omega
  low_le := by omega
  inside := E.inside
  away := by
    intro o ho
    have haway := E.away ho
    have hroom' := E.room
    omega
  globals := fun _ _ hp => ⟨(E.globals hp).1, (E.globals hp).2, hsymbol hp⟩

theorem activation_top : (E.activation F hroom hsymbol).sp + F.home.frame.size = E.sp := by
  have hroom' := E.room
  show E.sp - F.home.frame.size + F.home.frame.size = E.sp
  omega

variable {E F hroom hsymbol}

theorem activation_passed :
    (E.activation F hroom hsymbol).Passed (E.activation F hroom hsymbol).ghost mem c := by
  intro i v hv
  obtain ⟨hword, hpoints⟩ := E.passed hv
  have hi := (List.getElem?_eq_some_iff.1 hv).1
  have hi' : i < args.length := hi
  have htop := E.top
  refine ⟨fun _ => hpoints, _, ?_, hword⟩
  rw [← activation_top E F hroom hsymbol]
  refine Home.Word.arg fun hge => ?_
  show (E.activation F hroom hsymbol).sp + F.home.frame.size + 4 * (i - 8) < 0x100000000
  rw [activation_top]
  omega

/-- What a function restores is what its caller finds. -/
theorem finished_of_returned (h : (E.activation F hroom hsymbol).Returned r final c') :
    E.Finished r final c' := by
  obtain ⟨loc, hagrees, hholds, hresult⟩ := h.holds
  have hloc : ∀ ⦃o⦄, E.objs o → loc o.base = E.loc o.base := fun o ho =>
    hagrees _ (by have hinside := E.inside ho; show o.base < mem.length; omega)
  refine ⟨h.address, ?_, h.saved, fun n hn => hresult _ hn, fun o ho a ha n hn => ?_,
    ⟨loc, hagrees, hholds, hresult⟩, fun x hx ho => ?_⟩
  · rw [E.stack, ← activation_top E F hroom hsymbol]
    exact h.stack
  · rw [← hloc ho]
    exact hholds ho ha _ hn
  · refine h.outside x ?_ ho
    show x < E.sp - bytes ∨ (E.activation F hroom hsymbol).sp + F.home.frame.size ≤ x
    rwa [activation_top]

end Entry

/-! ## Linked programs -/

variable {img : Image} {m : Module} {annotate : Bool} {wants : String → List Bool}
  {size : IR.Function → Nat}

/-- **A linked program does what the functions of the module do.** -/
theorem Linked.finishes (hlinked : Linked img m annotate wants size)
    (htyped : ∀ name f, m.function? name = some f → ∃ sig ps, f.Typed sig ps)
    (hsymbol : ∀ ⦃name p⦄, m.global? name = some p →
      img.symbol? name = some (Int32.ofNat (img.data + 4 * p.base)))
    {name : String} {args : List Val} {mem final : Memory} {bytes : Nat} {r : Option Val}
    (hcall : CallsOnStack size m name args mem bytes r final) {c : Cpu}
    (E : Entry img m args mem bytes c) :
    ∃ start pc c', img.label? name = some start ∧ img.Reaches ⟨start, c⟩ ⟨pc, c'⟩ ∧
      img.lines[pc]? = some (.instr .ret) ∧ E.Finished r final c' := by
  obtain ⟨f, start, k, hf, hstart, hrun, rfl⟩ := hcall
  obtain ⟨F, hinst⟩ := hlinked.function hf
  obtain ⟨sig, ps, hps⟩ := htyped name f hf
  have hflat : F.flat = ⟨ps.map (·.flat)⟩ := Except.ok.inj (hinst.flat.symm.trans hps.flatten)
  have hname : f.name = name := by simpa using List.find?_some hf
  have hroom : F.home.frame.size ≤ size f + k := by
    rw [hinst.size]
    exact Nat.le_add_right _ _
  let A := E.activation F hroom hsymbol
  have htop : A.sp + A.code.home.frame.size = E.sp := E.activation_top F hroom hsymbol
  obtain ⟨entry, pc, c1, hlabel, henter, hat, hrelated⟩ := Activation.enters (A := A) hlinked.labels
    hinst (by rw [htop]; exact E.stack) E.placed E.holds Entry.activation_passed (fun _ => .int 0)
  have hflatRun := StackRun.flat htyped hrun hps (hps.follows_entry hstart)
  have hlow : A.low + k ≤ A.sp := by
    have hroom' := E.room
    show E.sp - (size f + k) + k ≤ E.sp - F.home.frame.size
    rw [hinst.size]
    omega
  obtain ⟨pc', c', hreach, hret, hreturned⟩ :=
    Activation.returns hlinked hflatRun A hinst hflat rfl hlow hat hrelated
  exact ⟨entry, pc', c', hname ▸ hlabel, henter.trans hreach, hret, Entry.finished_of_returned hreturned⟩

end Rv32

/-! ## Programs -/

/-- Which parameters of the functions of a program are arrays; none, for those
that it does not have. -/
def Program.wants (p : Program) (name : String) : List Bool := (p.arrayParams name).getD []

/-- **The functions of an accepted program are typed**, for the parameters that
they have and those of the functions they call. -/
theorem Program.lower_typed_for {p : Program} {m : Module} (haccepted : p.accepted = true)
    (hlower : p.lower.result = .ok m) {f : IR.Function} (hf : f ∈ m.functions) :
    (∃ ps, f.Typed ⟨p.wants f.name, p.wants⟩ ps) ∧ (p.wants f.name).length = f.params := by
  have hnames := Program.nodup_names haccepted
  have hwants : ∀ d, .function d ∈ p.units → p.wants d.name.value = d.params.map (·.array.isSome) := by
    intro d hd
    rw [Program.wants, Program.arrayParams, TopLevel.arrayParams_of_mem hnames hd]
    rfl
  have hjudged : Lower.Judged p.wants [[]] [[]] := by
    constructor
    · intro _ _ hs
      cases hs
    · intro _ _ _ hf
      cases hf
  obtain ⟨d, ps, hd, hname, hparams, htyped⟩ := Lower.lowerUnits_typed hlower
    (fun _ _ hs => by cases hs) ⟨[], rfl⟩ (.inr ⟨hjudged, Program.accepted_iff.1 haccepted⟩)
    (.inr hwants) f hf
  rw [← hname, hwants d hd, List.length_map]
  exact ⟨⟨ps, htyped⟩, hparams⟩

section

variable {p : Program} {m : Module} {o : Rv32.Options} {lines : List Rv32.AsmLine} {img : Rv32.Image}
  {name : String} (haccepted : p.accepted = true) (hlower : p.lower.result = .ok m)
  (hlines : (Rv32.emit o m).result = .ok lines) (hstub : o.startStub = false)
  (hnames : ∀ name ∈ p.names, name.toList.head? ≠ some '.')

include haccepted hlower hlines hstub hnames

/-- The emitted lines, loaded anywhere, do what a function of the module does. -/
theorem Program.emitted_finishes (himg : img.lines = lines) (hloaded : img.Loaded)
    {args : List Val} {mem final : Memory} {bytes : Nat} {r : Option Val}
    (hcall : CallsOnStack (Rv32.frameBytes o) m name args mem bytes r final) {c : Rv32.Cpu}
    (E : Rv32.Entry img m args mem bytes c) :
    ∃ start pc c', img.label? name = some start ∧ img.Reaches ⟨start, c⟩ ⟨pc, c'⟩ ∧
      img.lines[pc]? = some (.instr .ret) ∧ E.Finished r final c' := by
  subst himg
  have htyped := fun f hf => Program.lower_typed_for haccepted hlower (f := f) hf
  have hperm := Lower.lowerUnits_names_perm hlower
  have hlabels : (Rv32.labels img.lines).Nodup := by
    refine Rv32.labels_nodup hlines (fun f hf => ?_) (Lower.lowerUnits_named hlower) ?_ ?_ hstub
    · obtain ⟨⟨ps, hps⟩, -⟩ := htyped f hf
      exact ⟨_, ps, hps⟩
    · exact hperm.nodup_iff.2 (Program.nodup_names haccepted)
    · exact fun name hname => hnames name (hperm.mem_iff.1 hname)
  have hlinked := Rv32.linked_of_emit hlines hstub hlabels hloaded fun f hf => (htyped f hf).1
  have hfunction : ∀ name f, m.function? name = some f → ∃ sig ps, f.Typed sig ps := by
    intro name f hf
    obtain ⟨⟨ps, hps⟩, -⟩ := htyped f (List.mem_of_find?_eq_some hf)
    exact ⟨_, ps, hps⟩
  exact hlinked.finishes hfunction (fun _ _ hp => Rv32.symbol?_of_emit hlines hstub hlabels hp) hcall E

/-- **The assembly of a program does what the program does**: when a function of
the program runs to its end, then so do the emitted lines, where there is enough
stack, and what the caller finds stands for what the program returns and leaves
in memory. -/
theorem Program.compiled_finishes {vs : List Source.Val} {mem final : Source.Memory} {v : Source.Val}
    (hrun : Source.Runs p name vs mem v final) :
    ∃ bytes, ∀ img : Rv32.Image, img.lines = lines → img.Loaded → ∀ {c : Rv32.Cpu}
      (E : Rv32.Entry img m (vs.map Lower.strictVal) (Lower.strictMemory mem) bytes c),
      ∃ start pc c' r imem, img.label? name = some start ∧ img.Reaches ⟨start, c⟩ ⟨pc, c'⟩ ∧
        img.lines[pc]? = some (.instr .ret) ∧ E.Finished r imem c' ∧ Lower.Returns v r ∧
        Lower.Refines final imem := by
  obtain ⟨r, imem, hcalls, hreturns, hrefines⟩ := Lower.calls_of_runs haccepted hlower hrun
  obtain ⟨bytes, hstack⟩ := hcalls.onStack
  refine ⟨bytes, fun img himg hloaded c E => ?_⟩
  obtain ⟨start, pc, c', hlabel, hreach, hret, hfinished⟩ :=
    Program.emitted_finishes haccepted hlower hlines hstub hnames himg hloaded hstack E
  exact ⟨start, pc, c', r, imem, hlabel, hreach, hret, hfinished, hreturns, hrefines⟩

end

/-- **Code generation preserves meaning.** Take an accepted program that is
lowered to a module, none of whose names begins with a dot, and emit the module
without an entry point, with any number of registers. If the frames are smaller
than 2^31 bytes, it is emitted. And when a function of the module runs to its
end, from any memory and with any arguments, then the emitted lines, loaded
anywhere and entered at the label of the function with as much stack as the run
takes, come to a `ret`, where the caller finds everything as it should be: its
return address, its stack and its registers, the result, and the words of the
global variables. -/
theorem Program.emit_preserves_runs {p : Program} {m : Module} {o : Rv32.Options}
    (haccepted : p.accepted = true) (hlower : p.lower.result = .ok m) (hstub : o.startStub = false)
    (hnames : ∀ name ∈ p.names, name.toList.head? ≠ some '.')
    (hframes : ∀ f ∈ m.functions, Rv32.frameBytes o f < 0x80000000 ∧ f.params ≤ 0x20000000) :
    ∃ lines, (Rv32.emit o m).result = .ok lines ∧
      ∀ {name : String} {args : List Val} {mem : Memory} {bytes : Nat} {r : Option Val}
        {final : Memory}, CallsOnStack (Rv32.frameBytes o) m name args mem bytes r final →
      ∀ (img : Rv32.Image), img.lines = lines → img.Loaded →
      ∀ {c : Rv32.Cpu} (E : Rv32.Entry img m args mem bytes c),
        ∃ start pc c', img.label? name = some start ∧ img.Reaches ⟨start, c⟩ ⟨pc, c'⟩ ∧
          img.lines[pc]? = some (.instr .ret) ∧ E.Finished r final c' ∧
          ∀ ⦃x q⦄, m.global? x = some q → ∀ ⦃a⦄, (Rv32.pointee q).Has a →
            ∀ n, final[a]? = some (some (.int n)) → c'.mem (img.data + 4 * a) = n := by
  have htyped := fun f hf => Program.lower_typed_for haccepted hlower (f := f) hf
  obtain ⟨lines, hlines⟩ : Rv32.Succeeds (Rv32.emit o m).result := by
    refine Rv32.emit_succeeds fun f hf => ?_
    obtain ⟨⟨ps, hps⟩, hparams⟩ := htyped f hf
    exact ⟨_, ps, hps, by rw [hparams]; exact (hframes f hf).2, (hframes f hf).1⟩
  refine ⟨lines, hlines, ?_⟩
  rintro name args mem bytes r final hcall img rfl hloaded c E
  obtain ⟨start, pc, c', hlabel, hreach, hret, hfinished⟩ :=
    Program.emitted_finishes haccepted hlower hlines hstub hnames rfl hloaded hcall E
  refine ⟨start, pc, c', hlabel, hreach, hret, hfinished, fun x q hq a ha n hn => ?_⟩
  obtain ⟨hobj, hloc⟩ := E.globals hq
  have hword := hfinished.words hobj ha n hn
  obtain ⟨hle, -⟩ : q.base ≤ a ∧ a < q.base + q.size := ha
  rwa [show E.loc (Rv32.pointee q).base + 4 * (a - (Rv32.pointee q).base) = img.data + 4 * a by
    show E.loc q.base + 4 * (a - q.base) = img.data + 4 * a
    omega] at hword

namespace Source.Sample

/-- Emission with one register, so that almost everything is in the frame. -/
def oneRegister : Rv32.Options where
  registers := 1
  startStub := false

/-- The words of the global variable `g` when the program is loaded. -/
def loaded : IR.Memory := [some (.int 1), some (.int 2), some (.int 0)]

/-- What can be computed of the module: its data, its frames, the call of
`main`, and the number of its lines. -/
def computed (m : Module) : Bool :=
  m.globals = [⟨"g", [1, 2, 0]⟩] &&
    (m.functions.all fun f => Rv32.frameBytes oneRegister f < 0x80000000 && f.params ≤ 0x20000000) &&
    ((m.callOnStack (Rv32.frameBytes oneRegister) 99 "main" [] loaded).any fun x =>
      x.1 ≤ 0x1000 && x.2.1 = some (.int 1) && x.2.2[2]? = some (some (.int 1))) &&
    ((Rv32.emit oneRegister m).result.toOption.any fun lines => lines.length ≤ 0x1000)

theorem program_computed : program.lower.result.toOption.any computed = true := by cbv

/-- The lines of a program in memory: the data are from 0x10000 on. -/
def image (lines : List Rv32.AsmLine) : Rv32.Image where
  lines := lines
  data := 0x10000
  code := Int32.ofNat
  line? := fun w => some (Rv32.address w)

theorem image_loaded {lines : List Rv32.AsmLine} (h : lines.length ≤ 0x1000) : (image lines).Loaded := by
  intro k hk
  have hle : k ≤ lines.length := hk
  exact congrArg some (Rv32.address_ofNat (by omega))

/-- A machine with the stack at 0x80000 and the words of `g`. -/
def cpu : Rv32.Cpu where
  regs := fun r => if r = .sp then 0x80000 else 0
  mem := fun x => if x = 0x10000 then 1 else if x = 0x10004 then 2 else 0

/-- The machine may call `main`. -/
def entry {m : Module} (hglobals : m.globals = [⟨"g", [1, 2, 0]⟩]) {bytes : Nat} (hbytes : bytes ≤ 0x1000)
    (lines : List Rv32.AsmLine) : Rv32.Entry (image lines) m [] loaded bytes cpu where
  sp := 0x80000
  objs := fun o => o = ⟨0, 3⟩
  loc := fun a => 0x10000 + 4 * a
  stack := by decide
  aligned := by decide
  room := by omega
  top := by decide
  placed := by
    refine ⟨?_, ?_, ?_, ?_⟩
    · rintro _ rfl
      decide
    · rintro _ rfl
      decide
    · rintro _ _ rfl rfl hne
      exact absurd rfl hne
    · rintro _ _ rfl rfl hne
      exact absurd rfl hne
  holds := by
    rintro _ rfl a ⟨-, ha⟩ v hv
    have ha : a < 3 := by simpa using ha
    obtain rfl | rfl | rfl : a = 0 ∨ a = 1 ∨ a = 2 := by omega
    all_goals
      cases hv
      show cpu.mem _ = _
      decide
  inside := by
    rintro _ rfl
    decide
  away := by
    rintro _ rfl
    left
    show 0x10000 + 4 * 0 + 4 * 3 ≤ 0x80000 - bytes
    omega
  globals := by
    intro name p hp
    rw [Module.global?, hglobals, globalFrom] at hp
    split at hp
    next =>
      cases hp
      exact ⟨rfl, rfl⟩
    next => cases hp
  passed := by
    intro i v hv
    cases hv

end Source.Sample

open Source.Sample

/-- The program that sums an array, with one register: called from a machine,
`main` returns 1 and has stored it in `g[2]`. -/
theorem Program.emit_preserves_runs_sample :
    ∃ m lines, program.accepted = true ∧
      program.lower.result = .ok m ∧
      (Rv32.emit oneRegister m).result = .ok lines ∧
      (image lines).Loaded ∧
      ∃ start pc c', (image lines).label? "main" = some start ∧
        (image lines).Reaches ⟨start, cpu⟩ ⟨pc, c'⟩ ∧
        lines[pc]? = some (.instr .ret) ∧ c'.get .sp = 0x80000 ∧ c'.get (.a 0) = 1 ∧
        c'.mem 0x10008 = 1 := by
  have hcomputed := program_computed
  cases hm : program.lower.result with
  | error e => simp [hm, Except.toOption] at hcomputed
  | ok m =>
    have hm' : computed m = true := by simpa [hm, Except.toOption] using hcomputed
    simp only [computed, Bool.and_eq_true, decide_eq_true_eq, List.all_eq_true,
      Option.any_eq_true] at hm'
    obtain ⟨⟨⟨hglobals, hframes⟩, ⟨bytes, r, final⟩, hcall, ⟨hbytes, rfl⟩, hfinal⟩, lines', hlines',
      hlength⟩ := hm'
    obtain ⟨lines, hlines, hruns⟩ := Program.emit_preserves_runs (o := oneRegister)
      program_accepted hm rfl (by decide) hframes
    rw [hlines] at hlines'
    obtain rfl := Option.some.inj hlines'
    have hloaded := image_loaded hlength
    obtain ⟨start, pc, c', hlabel, hreach, hret, hfinished, hwords⟩ := hruns
      (.of_callOnStack hcall) (image lines) rfl hloaded
      (entry hglobals hbytes lines)
    refine ⟨m, lines, program_accepted, rfl, hlines, hloaded, start, pc, c', hlabel, hreach,
      hret, hfinished.stack, hfinished.result 1 rfl, ?_⟩
    have hglobal : m.global? "g" = some (.first 0 3) := by
      rw [Module.global?, hglobals]
      rfl
    exact hwords hglobal (a := 2) (by constructor <;> decide) 1 hfinal

end SysY
