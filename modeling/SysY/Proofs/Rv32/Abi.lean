import SysY.Proofs.Rv32.Callee
import SysY.Proofs.Rv32.Meaning

/-!
# Emitted functions keep the calling convention

Whatever the program, the function and the number of registers, an emitted
function is a good callee (`Program.emitted_keeps_convention`): on every path from
its label to a `ret`, through branches, loops and calls of functions that keep the
convention themselves, the stack pointer, the return address and the saved
registers are in the end what they were on entry, and the register for the result
holds what the return statement says. No saved register is written that the
prologue has not saved.

Of memory it is assumed only that the stores of the program, and the functions
that are called, leave alone the words in which registers have been saved. These
are above everything else in the frame, arrays included.
-/

namespace SysY

open IR

namespace Rv32

variable {o : Options} {f : IR.Function} {lines : List AsmLine} {flat : Flat} {home : Home}

/-- The flattened function, and where everything of it is when it is emitted. -/
def housed (o : Options) (f : IR.Function) : Except Fault (Flat × Home) := do
  let (flat, live) ← analyzed f
  let plan := Plan.make live.intervals o.pool live.maxLive
  let frame ← Frame.make flat.lines plan
  let kinds := tempKinds 0 (Array.replicate f.temps .value) flat.lines
  return (flat, { function := f, plan, kinds, frame })

theorem Frame.size_le_of_make {lines : List Line} {plan : Plan Reg} {frame : Frame}
    (h : Frame.make lines plan = .ok frame) : frame.size ≤ 0x100000000 := by
  have hround : ∀ n, roundTo16 n ≤ n + 15 := by
    intro n
    unfold roundTo16
    omega
  unfold Frame.make at h
  dsimp only at h
  split at h
  next hlt =>
    cases h
    exact Nat.le_trans (hround _) (Nat.le_of_lt hlt)
  next => cases h

/-- **An emitted function is compiled**, with everything where `housed` has it. -/
theorem compiled_of_housed {sig : Signatures} {ps : List Part} (htyped : f.Typed sig ps)
    (hlines : (emitFunction o f).result = .ok lines) :
    ∃ F : Compiled, housed o f = .ok (F.flat, F.home) ∧ F.home.Stands F.flat.lines 0 ∧
      ∃ prologue body, F.home.prologue = .ok prologue ∧
        F.home.blocksCode o.annotate F.flat.blocks = .ok body ∧
        lines = [.blank, .globl f.name, .label f.name] ++ (prologue.map .instr ++ body) := by
  obtain ⟨flat, live, frame, prologue, body, hanalyzed, hframe, hprologue, hbody, rfl⟩ :=
    emitFunction_ok hlines
  obtain ⟨F, -, rfl, hhome⟩ := exists_compiled_of_fits htyped hanalyzed (Frame.fits_of_make hframe)
  have hhoused : housed o f = .ok (F.flat, F.home) := by
    unfold housed
    rw [hanalyzed]
    show (Frame.make _ _ >>= _) = _
    rw [hframe, hhome]
    rfl
  have hsize := Frame.size_le_of_make hframe
  rw [show frame = F.home.frame by rw [hhome]] at hsize
  rw [← hhome] at hprologue hbody
  exact ⟨F, hhoused, F.stands rfl (by omega), prologue, body, hprologue, hbody, rfl⟩

end Rv32

/-- **Emitted functions keep the calling convention**, for every function of a
lowered program and any options. Take the function in any program in memory in
which no label is defined twice, and any words that stores of the program and
callees are free to change, none of them one in which the function has saved a
register. Then on every path from the label of the function to a `ret` the stack
pointer, the return address and the saved registers are preserved, and memory but
for what is free and for the frame; and the value of the return statement that the
path has come to is in the register for the result. Every saved register that an
instruction writes is stored by the prologue. -/
theorem Program.emitted_keeps_convention {p : Program} {m : Module} (hlower : p.lower.result = .ok m)
    {f : IR.Function} (hf : f ∈ m.functions) {o : Rv32.Options} {lines : List Rv32.AsmLine}
    (hlines : (Rv32.emitFunction o f).result = .ok lines) :
    ∃ flat home prologue body, Rv32.housed o f = .ok (flat, home) ∧ home.prologue = .ok prologue ∧
      lines = [.blank, .globl f.name, .label f.name] ++ (prologue.map .instr ++ body) ∧
      (∀ i, .instr i ∈ lines → ∀ k, i.target? = some (.s k) →
        ∃ offset base, .sw (.s k) offset base ∈ prologue) ∧
      ∀ (img : Rv32.Image) (pc : Nat), img.At pc lines → (Rv32.labels img.lines).Nodup →
      ∀ (free : Nat → Prop) (n : Nat) (s s' : Rv32.State), img.label? f.name = some s.pc →
        home.Apart free (home.stackBase s.cpu) → img.Path free n s s' → img.Returning s' →
        s.cpu.Preserves (fun a => free a ∨ home.InFrame (home.stackBase s.cpu) a) s'.cpu ∧
          home.Delivers img flat free s s' := by
  obtain ⟨_, ps, htyped⟩ := Program.lower_typed hlower hf
  obtain ⟨F, hhoused, hs, prologue, body, hprologue, hbody, rfl⟩ :=
    Rv32.compiled_of_housed htyped hlines
  refine ⟨F.flat, F.home, prologue, body, hhoused, hprologue, rfl, fun i hi k ht => ?_,
    fun img pc hat hnodup free n s s' hpc hapart hpath hend => ?_⟩
  · refine F.saves hbody hprologue ?_ ht
    simpa using hi
  · have hlabel : img.At (pc + 2) (.label f.name :: (prologue.map .instr ++ body)) := hat.tail.tail
    rw [← Option.some.inj (hpc.symm.trans (Rv32.label?_of_at hnodup hlabel))] at hlabel
    exact F.leaves hbody hs hnodup hprologue hlabel hapart hpath hend

namespace Source.Sample

/-- The words below 0x20000, where the global variables are. -/
def low (a : Nat) : Prop := a < 0x20000

instance : DecidablePred low := fun a => inferInstanceAs (Decidable (a < _))

/-- One step of a function whose callees do nothing. -/
def pass? (img : Rv32.Image) (s : Rv32.State) : Option Rv32.State :=
  match img.lines[s.pc]? with
  | some (.instr (.call _)) => some ⟨s.pc + 1, s.cpu.set .ra (img.code (s.pc + 1))⟩
  | some (.instr .ret) => none
  | some (.instr (.sw _ offset base)) =>
    if img.ToStack s.pc base ∨ ∀ a ∈ s.cpu.address? base offset, low a then img.step s else none
  | _ => img.step s

/-- So many steps of it. -/
def path? (img : Rv32.Image) : Nat → Rv32.State → Option Rv32.State
  | 0, s => some s
  | n + 1, s => (pass? img s).bind (path? img n)

theorem pass_of_pass? {img : Rv32.Image} {s s' : Rv32.State} (h : pass? img s = some s') :
    img.Pass low s s' := by
  unfold pass? at h
  split at h
  next g hline =>
    cases h
    exact .call hline ⟨fun _ _ => rfl, fun _ _ => rfl⟩
  next => cases h
  next r offset base hline =>
    split at h
    next hstore =>
      refine .step h (fun g hg => ?_) (fun hr => ?_) fun r' offset' base' a hline' hstack ha => ?_
      · cases hline.symm.trans hg
      · cases hline.symm.trans hr
      · cases hline.symm.trans hline'
        exact hstore.resolve_left hstack a ha
    next => cases h
  next hcall hret hsw =>
    exact .step h hcall hret fun r offset base _ hline => absurd hline (hsw r offset base)

theorem path_of_path? {img : Rv32.Image} {n : Nat} {s s' : Rv32.State} (h : path? img n s = some s') :
    img.Path low n s s' := by
  induction n generalizing s with
  | zero =>
    cases h
    exact .nil _
  | succ n ih =>
    obtain ⟨s1, hpass, hrest⟩ := Option.bind_eq_some_iff.1 h
    exact .cons (pass_of_pass? hpass) (ih hrest)

/-- A function that calls itself between two uses of its parameter:

    int g;
    int f(int n) { g = f(g); return n + g; }
-/
def recursive : Program where
  units := [
    .decl ⟨false, array "g" [], []⟩,
    .function (function "f" [⟨ident "n", none⟩] <|
      .stmt (set "g" [] (call "f" [get "g"])) (ret (add (get "n") (get "g"))))]

/-- A machine that calls it with 5, when `g` is 3. -/
def caller : Rv32.Cpu where
  regs
    | .sp => 0x80000
    | .ra => 7
    | .s k => Int32.ofNat k
    | .a _ => 5
    | _ => 0
  mem := fun a => if a = 0x10000 then 3 else 0

/-- The function in memory, after the data. -/
def alone (lines : List Rv32.AsmLine) : Rv32.Image := image (Rv32.dataSection [⟨"g", [0]⟩] ++ lines)

/-- What can be computed of the function: with twelve registers it has a frame of 16
bytes, and from that machine it comes to a `ret` in 25 steps, with the result 8. -/
def returns (f : IR.Function) : Bool :=
  f.name = "f" && ((Rv32.housed ⟨12, false, false⟩ f).toOption.any fun x => x.2.frame.size = 16) &&
    (Rv32.emitFunction ⟨12, false, false⟩ f).result.toOption.any fun lines =>
      (Rv32.labels (alone lines).lines).Nodup && (alone lines).label? "f" = some 7 &&
        (path? (alone lines) 25 ⟨7, caller⟩).any fun s =>
          (alone lines).lines[s.pc]? = some (.instr .ret) && s.cpu.get Rv32.returnReg = 8

theorem recursive_returns :
    (recursive.lower.result.toOption.bind (·.functions.head?)).any (fun f => returns f = true) = true := by
  cbv

end Source.Sample

open Source.Sample

/-- The recursive function, called with 5: it stores in `g`, and its callee does
nothing but return. -/
theorem Program.emitted_keeps_convention_recursive :
    ∃ m f lines flat home s', recursive.lower.result = .ok m ∧ f ∈ m.functions ∧
      (Rv32.emitFunction ⟨12, false, false⟩ f).result = .ok lines ∧
      Rv32.housed ⟨12, false, false⟩ f = .ok (flat, home) ∧ (alone lines).At 5 lines ∧
      (Rv32.labels (alone lines).lines).Nodup ∧
      home.Apart low (home.stackBase caller) ∧
      (alone lines).Path low 25 ⟨7, caller⟩ s' ∧
      (alone lines).Returning s' ∧ s'.cpu.get .sp = 0x80000 ∧ s'.cpu.get .ra = 7 ∧
      (∀ k, s'.cpu.get (.s k) = Int32.ofNat k) ∧ s'.cpu.get Rv32.returnReg = 8 ∧
      home.Delivers (alone lines) flat low ⟨7, caller⟩ s' := by
  obtain ⟨m, f, hm, hf, hreturns⟩ := head_lowers _ recursive_returns
  simp only [returns, Bool.and_eq_true, decide_eq_true_eq, Option.any_eq_true] at hreturns
  obtain ⟨⟨hname, x, hx, hsize⟩, lines, hlines, ⟨hnodup, hlabel⟩, s', hpath, hend, hresult⟩ := hreturns
  have hok : ∀ {α : Type} {e : Except Fault α} {a : α}, e.toOption = some a → e = .ok a := by
    intro α e a h
    cases e with
    | error _ => cases h
    | ok _ => exact congrArg Except.ok (Option.some.inj h)
  have hpath := path_of_path? hpath
  obtain ⟨flat, home, prologue, body, hhoused, -, -, -, hkeeps⟩ :=
    Program.emitted_keeps_convention hm hf (hok hlines)
  cases hhoused.symm.trans (hok hx)
  have hapart : home.Apart low (home.stackBase caller) := by
    have hall : ∀ offset < 16, ¬ low (Rv32.cell (0x80000 - 16) offset) := by
      decide +kernel
    intro offset _ hoffset
    rw [hsize] at hoffset
    rw [Rv32.Home.stackBase, Rv32.Home.frameWord, hsize]
    exact hall offset hoffset
  have hat : (alone lines).At 5 lines :=
    ⟨Rv32.dataSection [⟨"g", [0]⟩], [], by rw [List.append_nil]; rfl, rfl⟩
  rw [← hname] at hlabel
  obtain ⟨hpreserves, hdelivers⟩ := hkeeps (alone lines) 5 hat hnodup
    low 25 ⟨7, caller⟩ s' hlabel hapart hpath hend
  exact ⟨m, f, lines, flat, home, s', hm, hf, hok hlines, hhoused, hat, hnodup, hapart, hpath, hend,
    hpreserves.get rfl, hpreserves.get rfl, fun k => hpreserves.get rfl, hresult, hdelivers⟩

end SysY
