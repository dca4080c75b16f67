import SysY.Proofs.Pressure
import SysY.Proofs.Rv32.Simulate

/-!
# Emitted programs are linked

What a function is emitted as, in terms of the simulation: from a typed
function and the plan for its intervals comes a `Compiled` one
(`exists_compiled`), whose code stands where the function was emitted. Then
the lines of a module, data first, are a program in which every function is
installed and every global variable has its words (`linked_of_emit`,
`symbol?_of_emit`), provided that no label is defined twice.
-/

namespace SysY

open IR List

variable {p : Pointer} {name : String} {fs : List IR.Function} {flat : Flat}
  {code : List Rv32.AsmLine}

namespace Rv32

/-! ## Frames -/

/-- The number of bytes of stack that an activation of a function takes, whether
they can be counted in 32 bits or not. -/
def frameBytes (o : Options) (f : IR.Function) : Nat :=
  match analyzed f with
  | .ok (flat, live) =>
    let plan := Plan.make live.intervals o.pool live.maxLive
    (Frame.layOut (outgoing flat.lines) plan.slots (arrayWords flat.lines) plan.used).size
  | .error _ => 0

variable {frame : Frame} {live : Liveness} {ps : List Part} {sig : Signatures}

theorem frameBytes_of_make {o : Options} {f : IR.Function} (h : analyzed f = .ok (flat, live))
    (hframe : Frame.make flat.lines (Plan.make live.intervals o.pool live.maxLive) = .ok frame) :
    frameBytes o f = frame.size := by
  rw [frameBytes, h, Frame.eq_whole_of_make hframe]
  rfl

theorem Options.nodup_pool (o : Options) : o.pool.Nodup :=
  (take_sublist _ _).nodup (by decide)

theorem Options.saved_of_mem_pool {o : Options} {r : Reg} (h : r ∈ o.pool) : ∃ i, r = .s i := by
  have hall : ∀ r ∈ Reg.saved, ∃ i, r = .s i := by decide
  exact hall r (mem_of_mem_take h)

/-! ## Functions -/

variable {o : Options} {f : IR.Function} {lines : List AsmLine}

/-- What it means that a function is emitted. -/
theorem emitFunction_ok (h : (emitFunction o f).result = .ok lines) :
    ∃ flat live frame prologue code, analyzed f = .ok (flat, live) ∧
      Frame.make flat.lines (Plan.make live.intervals o.pool live.maxLive) = .ok frame ∧
      let home : Home := ⟨f, Plan.make live.intervals o.pool live.maxLive,
        tempKinds 0 (Array.replicate f.temps .value) flat.lines, frame⟩
      home.prologue = .ok prologue ∧ home.blocksCode o.annotate flat.blocks = .ok code ∧
      lines = [.blank, .globl f.name, .label f.name] ++ (prologue.map .instr ++ code) := by
  unfold emitFunction at h
  split at h
  next => cases h
  next flat live hanalyzed =>
    dsimp only at h
    split at h
    next => cases h
    next frame hframe =>
      obtain ⟨body, hbody, rfl⟩ := except_map_ok.1 h
      obtain ⟨prologue, hprologue, hbody⟩ := except_bind_ok.1 hbody
      obtain ⟨code, hcode, hbody⟩ := except_bind_ok.1 hbody
      cases hbody
      exact ⟨flat, live, frame, prologue, code, hanalyzed, hframe, hprologue, hcode, rfl⟩

/-- **A typed function with a valid plan** is compiled. -/
theorem exists_compiled_of_plan (htyped : f.Typed sig ps)
    (hlive : Liveness.analyze f.temps ⟨ps.map (·.flat)⟩ = .ok live)
    {plan : Plan Reg} (hplan : plan.Valid live.intervals o.pool)
    (hframe : frame.Fits (Flat.lines ⟨ps.map (·.flat)⟩) plan) :
    ∃ F : Compiled, F.sig = sig ∧ F.flat = ⟨ps.map (·.flat)⟩ ∧ F.home = ⟨f, plan,
      tempKinds 0 (Array.replicate f.temps .value) (Flat.lines ⟨ps.map (·.flat)⟩), frame⟩ := by
  obtain ⟨known, hflat, -⟩ := htyped.exists_table
  obtain ⟨_, hlive', hsound⟩ := Liveness.exists_analyze hflat.closed fun t n => hflat.touch_lt
  cases hlive'.symm.trans hlive
  have hends : ∀ b ∈ ps.map (·.flat), ∃ init last, b.lines = init ++ [last] ∧
      ∀ line ∈ init, line.isTerminator = false := by
    intro b hb
    obtain ⟨p, hp, rfl⟩ := mem_map.1 hb
    obtain ⟨_, _, hpart⟩ := htyped.parts.permitted hp
    exact ⟨p.initLines, _, p.lines_eq, fun line hline => hpart.lineSteps.not_isTerminator hline⟩
  refine ⟨
    { sig, known
      temps := f.temps
      flat := ⟨ps.map (·.flat)⟩
      home := ⟨f, plan, _, frame⟩
      intervals := live.intervals
      typed := hflat
      labels := ?_
      ends := fun b hb => hends b hb
      kinds := rfl
      frame := hframe
      sound := fun t n ht hn => ?_
      placed := fun t i hi => Option.isSome_iff_exists.1 ((hplan.placed t).2 (by rw [hi]; rfl))
      apart := fun t u i j line => hplan.apart t u i j line
      register := fun hr => (hplan.mem_used _).2 ⟨_, hr⟩
      saved := fun hr => ?_
      once := hplan.used_once
      slot := fun hn => hplan.slot _ _ hn }, rfl, rfl, rfl⟩
  · rw [map_map]
    exact htyped.nodup
  · obtain ⟨i, hi, hsound⟩ := hsound ht hn
    exact ⟨i, by rw [intervalAt, hi]; rfl, hsound⟩
  · obtain ⟨t, ht⟩ := (hplan.mem_used _).1 hr
    exact Options.saved_of_mem_pool (hplan.register t _ ht)

/-- A typed function is compiled with the plan for its intervals and a frame
that fits. -/
theorem exists_compiled_of_fits (htyped : f.Typed sig ps)
    (hanalyzed : analyzed f = .ok (flat, live))
    (hframe : frame.Fits flat.lines (Plan.make live.intervals o.pool live.maxLive)) :
    ∃ F : Compiled, F.sig = sig ∧ F.flat = flat ∧ F.home = ⟨f,
      Plan.make live.intervals o.pool live.maxLive,
      tempKinds 0 (Array.replicate f.temps .value) flat.lines, frame⟩ := by
  obtain ⟨_, hflatten, hanalyzed⟩ := except_bind_ok.1 hanalyzed
  obtain ⟨_, hlive, heq⟩ := except_bind_ok.1 hanalyzed
  cases heq
  cases hflatten.symm.trans htyped.flatten
  exact exists_compiled_of_plan htyped hlive
    (Plan.valid_make o.nodup_pool (Liveness.ordered_intervals hlive) _) hframe

/-- **An emitted function is compiled**: what is known of its lines, where its
temporaries are and where its code is. -/
theorem exists_compiled (htyped : f.Typed sig ps) (h : (emitFunction o f).result = .ok lines) :
    ∃ F : Compiled, F.sig = sig ∧ f.flatten = .ok F.flat ∧ F.home.function = f ∧
      F.home.frame.size = frameBytes o f ∧ ∃ prologue code, F.home.prologue = .ok prologue ∧
        F.home.blocksCode o.annotate F.flat.blocks = .ok code ∧
        lines = [.blank, .globl f.name, .label f.name] ++ (prologue.map .instr ++ code) := by
  obtain ⟨flat, live, frame, prologue, code, hanalyzed, hframe, hprologue, hcode, rfl⟩ :=
    emitFunction_ok h
  obtain ⟨F, hsig, rfl, hhome⟩ := exists_compiled_of_fits htyped hanalyzed (Frame.fits_of_make hframe)
  obtain ⟨_, hflatten, hrest⟩ := except_bind_ok.1 hanalyzed
  obtain ⟨_, -, heq⟩ := except_bind_ok.1 hrest
  cases heq
  refine ⟨F, hsig, hflatten, by rw [hhome], by rw [hhome, frameBytes_of_make hanalyzed hframe],
    prologue, code, ?_, ?_, rfl⟩
  · rw [hhome]
    exact hprologue
  · rw [hhome]
    exact hcode

/-! ## Modules -/

variable {m : Module} {img : Image} {wants : String → List Bool}

theorem emitFunctions_cons (h : (emitFunctions o (f :: fs)).result = .ok code) :
    ∃ lines rest, (emitFunction o f).result = .ok lines ∧
      (emitFunctions o fs).result = .ok rest ∧ code = lines ++ rest := by
  unfold emitFunctions at h
  dsimp only at h
  split at h
  next => cases h
  next lines hlines =>
    obtain ⟨rest, hrest, rfl⟩ := except_map_ok.1 h
    exact ⟨lines, rest, hlines, hrest, rfl⟩

/-- Functions are emitted one after the other. -/
theorem emitFunctions_ok (h : (emitFunctions o fs).result = .ok code) (hf : f ∈ fs) :
    ∃ before lines after, (emitFunction o f).result = .ok lines ∧ code = before ++ (lines ++ after) := by
  induction fs generalizing code with
  | nil => cases hf
  | cons f' fs ih =>
    obtain ⟨lines, rest, hlines, hrest, rfl⟩ := emitFunctions_cons h
    rcases mem_cons.1 hf with rfl | hf
    · exact ⟨[], lines, rest, hlines, rfl⟩
    · obtain ⟨before, lines', after, hlines', rfl⟩ := ih hrest hf
      exact ⟨lines ++ before, lines', after, hlines', by rw [append_assoc]⟩

/-- A module is emitted as its data and its functions, when no entry point is
asked for. -/
theorem emit_ok (h : (emit o m).result = .ok lines) (hstub : o.startStub = false) :
    ∃ code, (emitFunctions o m.functions).result = .ok code ∧
      lines = dataSection m.globals ++ (.code :: code) := by
  obtain ⟨code, hcode, rfl⟩ := except_map_ok.1 h
  refine ⟨code, hcode, ?_⟩
  simp [hstub]

/-- **An emitted module is linked**, if its functions are typed and no label is
defined twice. -/
theorem linked_of_emit (h : (emit o m).result = .ok img.lines) (hstub : o.startStub = false)
    (hlabels : (labels img.lines).Nodup) (hloaded : img.Loaded)
    (htyped : ∀ f ∈ m.functions, ∃ ps, f.Typed ⟨wants f.name, wants⟩ ps) :
    Linked img m o.annotate wants (frameBytes o) where
  labels := hlabels
  loaded := hloaded
  function := by
    intro name f hf
    have hmem := mem_of_find?_eq_some hf
    obtain ⟨ps, hps⟩ := htyped f hmem
    obtain ⟨code, hcode, hlines⟩ := emit_ok h hstub
    obtain ⟨before, lines, after, hemit, rfl⟩ := emitFunctions_ok hcode hmem
    obtain ⟨F, hsig, hflat, -, hsize, prologue, body, hprologue, hbody, rfl⟩ :=
      exists_compiled hps hemit
    refine ⟨F, hflat, by rw [hsig], by rw [hsig], hsize, _, prologue, body, hprologue, hbody,
      dataSection m.globals ++ (.code :: before) ++ [.blank, .globl f.name], after, ?_, rfl⟩
    rw [hlines]
    simp

/-! ## Data -/

def globalLines (g : Global) : List AsmLine := [.alignWord, .label g.name] ++ g.init.map .word

theorem countP_globalLines (g : Global) : (globalLines g).countP Image.isWord = g.init.length := by
  have hwords : (g.init.map AsmLine.word).countP Image.isWord = g.init.length := by
    rw [countP_map]
    exact countP_eq_length.2 fun _ _ => rfl
  simp [globalLines, hwords, Image.isWord]

/-- The label of a global variable comes after the words of those before it. -/
theorem exists_label_of_global {gs : List Global} {base : Nat}
    (h : globalFrom base name gs = some p) :
    ∃ before after, gs.flatMap globalLines = before ++ .label name :: after ∧
      p.base = base + before.countP Image.isWord := by
  induction gs generalizing base with
  | nil => cases h
  | cons g gs ih =>
    unfold globalFrom at h
    split at h
    next hname =>
      cases h
      refine ⟨[.alignWord], g.init.map .word ++ gs.flatMap globalLines, ?_, rfl⟩
      rw [← hname]
      rfl
    next =>
      obtain ⟨before, after, heq, hbase⟩ := ih h
      refine ⟨globalLines g ++ before, after, ?_, ?_⟩
      · rw [flatMap_cons, heq, append_assoc]
      · rw [hbase, countP_append, countP_globalLines, Nat.add_assoc]

/-- **Global variables have their words in the data**, in order. -/
theorem symbol?_of_emit (h : (emit o m).result = .ok img.lines) (hstub : o.startStub = false)
    (hlabels : (labels img.lines).Nodup) (hp : m.global? name = some p) :
    img.symbol? name = some (Int32.ofNat (img.data + 4 * p.base)) := by
  obtain ⟨code, -, hlines⟩ := emit_ok h hstub
  obtain ⟨before, after, heq, hbase⟩ := exists_label_of_global hp
  have hdata : dataSection m.globals = .data :: m.globals.flatMap globalLines ++ [.blank] := by
    unfold dataSection
    split
    next hempty =>
      rw [Module.global?, isEmpty_iff.1 hempty] at hp
      cases hp
    next => rfl
  have hsplit : img.lines = (.data :: before) ++ ((.label name :: after) ++ ([.blank] ++ .code :: code)) := by
    rw [hlines, hdata, heq]
    simp
  have hat : img.At (AsmLine.data :: before).length (.label name :: after) :=
    ⟨.data :: before, _, hsplit, rfl⟩
  have hlabel := label?_of_at hlabels hat
  rw [Image.symbol?, hlabel, Option.map_some, hsplit, take_left, hbase, Nat.zero_add]
  rfl

end Rv32

end SysY
