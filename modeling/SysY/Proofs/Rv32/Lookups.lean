import SysY.Proofs.Rv32.Success

/-!
# Everything that emission looks up is there

Between a lowered function and its code there are many tables: the blocks by
label, the lines by number, and the intervals, the kinds and the places of
temporaries. None of the tables is asked for what it does not have, whatever
the program and however many registers there are (`Provided`). All that may
stop the emission of a lowered module is the size of a frame
(`Program.emit_failsOnly`).
-/

namespace SysY

open IR List

variable {live : Liveness} {flat : Flat}

namespace Rv32

/-- Where everything of a function is, with a frame whose bytes need not be
counted in 32 bits. -/
def Home.whole (o : Options) (f : IR.Function) (flat : Flat) (live : Liveness) : Home where
  function := f
  plan := Plan.make live.intervals o.pool live.maxLive
  kinds := tempKinds 0 (Array.replicate f.temps .value) flat.lines
  frame := Frame.whole flat.lines (Plan.make live.intervals o.pool live.maxLive)

/-- The state of planning after so many intervals. -/
def planning (o : Options) (live : Liveness) (n : Nat) : Planning Reg :=
  ((Plan.order live.intervals).take n).foldl (Plan.step live.intervals)
    (Plan.blank live.intervals o.pool live.maxLive)

/-- **A function is provided for**: everything that is looked up on the way to
its code is there. -/
structure Provided (o : Options) (f : IR.Function) (flat : Flat) (live : Liveness) : Prop where
  /-- The function can be flattened, -/
  flatten : f.flatten = .ok flat
  /-- and analysed. -/
  analyze : Liveness.analyze f.temps flat = .ok live
  /-- A block that is laid out is there, -/
  layout : ∀ l ∈ f.layout, ∃ b, f.block l = .ok b
  /-- and so is one that a line names. -/
  labels : ∀ i, .instr i ∈ flat.lines → ∀ l ∈ i.op.labels, l ∈ f.layout
  /-- A jump leads to a line. -/
  jumps : ∀ line ∈ flat.lines, ∀ l ∈ line.successors,
    ∃ s, flat.start? l = some s ∧ s < flat.lines.length
  /-- The lines of a block are lines of the function. -/
  ranges : ∀ x ∈ flat.ranges, x.2.1 ≤ x.2.2 ∧ x.2.2 ≤ flat.lines.length
  /-- A temporary of a line is one of the function, -/
  temps : ∀ line ∈ flat.lines, ∀ t ∈ line.temps, t < f.temps
  /-- all of which may have intervals, -/
  intervals : live.intervals.size = f.temps
  /-- from one line of the function to another. -/
  interval : ∀ (t : Temp) (i : Interval), live.intervals[t]? = some (some i) →
    i.start ≤ i.stop ∧ i.stop < flat.lines.length
  /-- Who has to make way for an interval is in a register, and has an interval. -/
  evicted : ∀ (n : Nat) (t : Temp) (i : Interval) (old : Occupant),
    victim? i.stop ((planning o live n).expire i.start).residents = some old →
    (∃ j, live.intervals[old.temp]? = some (some j)) ∧
      ∃ r rs, takeRegister (some old) ⟨t, i.stop⟩ ((planning o live n).expire i.start).residents
        = some (r, rs)
  /-- A block has a symbol. -/
  symbols : ∀ b ∈ flat.blocks, ∃ name, (Home.whole o f flat live).symbol b.label = .ok name
  /-- A line becomes code, if its offsets can be counted. -/
  lines : ∀ line ∈ flat.lines, ∀ annotate next,
    FailsOnly (· = .frameOverflow) ((Home.whole o f flat live).lineCode annotate next line)

variable {o : Options} {f : IR.Function} {sig : Signatures} {ps : List Part}

theorem analyzed_ok (h : analyzed f = .ok (flat, live)) :
    f.flatten = .ok flat ∧ Liveness.analyze f.temps flat = .ok live := by
  obtain ⟨_, hflatten, h⟩ := except_bind_ok.1 h
  obtain ⟨_, hlive, h⟩ := except_bind_ok.1 h
  cases h
  exact ⟨hflatten, hlive⟩

theorem ranges_le {bs : List FlatBlock} {n : Nat} {x : Label × Nat × Nat}
    (hx : x ∈ Flat.rangesFrom n bs) :
    n ≤ x.2.1 ∧ x.2.1 ≤ x.2.2 ∧ x.2.2 ≤ n + (Flat.lines ⟨bs⟩).length := by
  induction bs generalizing n with
  | nil => cases hx
  | cons b bs ih =>
    have hlength : (Flat.lines ⟨b :: bs⟩).length = b.lines.length + (Flat.lines ⟨bs⟩).length := by
      simp [Flat.lines]
    rw [hlength]
    rcases mem_cons.1 hx with rfl | hx
    · dsimp only
      omega
    · have hrest := ih hx
      omega

/-- Whoever is in a register while places are given has an interval. -/
theorem exists_interval_of_resident {temps : Nat} (hlive : Liveness.analyze temps flat = .ok live)
    {n : Nat} {r : Reg} {x : Occupant} (hx : ⟨r, some x⟩ ∈ (planning o live n).residents) :
    ∃ i, live.intervals[x.temp]? = some (some i) := by
  obtain ⟨⟨line, hsound⟩, -, -⟩ :=
    Plan.run_take o.nodup_pool (Liveness.ordered_intervals hlive) live.maxLive n
  obtain ⟨i, hi⟩ := hsound.live _ _ (hsound.resident r x hx)
  exact ⟨i, Option.join_eq_some_iff.1 hi⟩

/-- A typed function is compiled with its whole frame. -/
theorem exists_compiled_whole (htyped : f.Typed sig ps) {flat : Flat} {live : Liveness}
    (hanalyzed : analyzed f = .ok (flat, live)) :
    ∃ F : Compiled, F.flat = flat ∧ F.home = Home.whole o f flat live ∧
      F.Bounded (· = .frameOverflow) := by
  obtain ⟨F, -, hflat, hhome⟩ := exists_compiled_of_fits htyped hanalyzed
    (Frame.fits_whole flat.lines (Plan.make live.intervals o.pool live.maxLive))
  have hps : flat = ⟨ps.map (·.flat)⟩ := Except.ok.inj ((analyzed_ok hanalyzed).1.symm.trans htyped.flatten)
  exact ⟨F, hflat, hhome, Compiled.bounded htyped (hflat.trans hps) (by rw [hhome])
    (fun _ _ => .inl rfl) (.inl rfl)⟩

/-- **Typed functions are provided for.** -/
theorem exists_provided (o : Options) (htyped : f.Typed sig ps) :
    ∃ flat live, Provided o f flat live := by
  obtain ⟨known, hflat, -⟩ := htyped.exists_table
  obtain ⟨live, hanalyzed⟩ := analyzed_succeeds htyped
  obtain ⟨hflatten, hlive⟩ := analyzed_ok hanalyzed
  obtain ⟨F, hF, hhome, hbounded⟩ := exists_compiled_whole (o := o) htyped hanalyzed
  have hlayout : ∀ l, l < f.blocks.length → l ∈ f.layout := fun l hl =>
    htyped.perm.mem_iff.2 (mem_range.2 hl)
  refine ⟨⟨ps.map (·.flat)⟩, live, ?_⟩
  constructor
  case flatten => exact hflatten
  case analyze => exact hlive
  case layout =>
    intro l hl
    have hlt : l < f.blocks.length := mem_range.1 (htyped.perm.mem_iff.1 hl)
    exact ⟨f.blocks[l], by rw [Function.block, getElem?_eq_getElem hlt]⟩
  case labels => exact fun i hi l hl => hlayout l (labels_lt htyped hi hl)
  case jumps =>
    intro line hline l hl
    obtain ⟨n, hn⟩ := getElem?_of_mem hline
    obtain ⟨op, rfl, -, hleads⟩ := hflat.leave hn (Line.isTerminator_of_successors hl)
    obtain ⟨s, hs, hlt, -⟩ := hleads l hl
    exact ⟨s, hs, hlt⟩
  case ranges =>
    intro x hx
    obtain ⟨-, hle, hstop⟩ := ranges_le hx
    rw [Nat.zero_add] at hstop
    exact ⟨hle, hstop⟩
  case temps =>
    intro line hline t ht
    obtain ⟨n, hn⟩ := getElem?_of_mem hline
    exact hflat.touch_lt (Liveness.mem_touches.2 ⟨line, hn, ht⟩)
  case intervals => exact Liveness.analyze_size hlive
  case interval =>
    exact fun t i hi => ⟨Liveness.analyze_ordered hlive hi, Liveness.analyze_stop_lt hlive hi⟩
  case evicted =>
    intro n t i old hold
    obtain ⟨r, hr⟩ := mem_of_victim? hold
    exact ⟨exists_interval_of_resident hlive (Planning.mem_of_mem_expire hr),
      exists_takeRegister hr _⟩
  case symbols =>
    intro b hb
    obtain ⟨p, hp, rfl⟩ := mem_map.1 hb
    obtain ⟨name, hname⟩ : Succeeds (f.labelName p.label) :=
      (FailsOnly.of_ends (labelName_ends (htyped.label_lt hp))).succeeds
    refine ⟨".L" ++ f.name ++ "_" ++ name, ?_⟩
    show (f.labelName p.label >>= _) = _
    rw [hname]
    rfl
  case lines =>
    intro line hline annotate next
    rw [← hF] at hline
    rw [← hhome]
    exact .of_ends (Compiled.lineCode_ends hbounded hline annotate next)

/-- All that may stop the emission of a typed function is the size of its
frame. -/
theorem emitFunction_failsOnly (htyped : f.Typed sig ps) :
    FailsOnly (· = .frameOverflow) (emitFunction o f).result := by
  obtain ⟨live, hanalyzed⟩ := analyzed_succeeds htyped
  obtain ⟨F, hF, hhome, hbounded⟩ := exists_compiled_whole (o := o) htyped hanalyzed
  have hbody := Compiled.body_failsOnly hbounded o.annotate
  rw [hF, hhome] at hbody
  unfold emitFunction
  rw [hanalyzed]
  dsimp only
  split
  next e hframe =>
    unfold Frame.make at hframe
    dsimp only at hframe
    split at hframe
    · cases hframe
    · cases hframe
      exact .of_error rfl
  next frame hframe =>
    cases Frame.eq_whole_of_make hframe
    exact hbody.map _

theorem emitFunctions_failsOnly {fs : List IR.Function} (h : ∀ f ∈ fs, ∃ sig ps, f.Typed sig ps) :
    FailsOnly (· = .frameOverflow) (emitFunctions o fs).result := by
  induction fs with
  | nil => exact .of_ok rfl
  | cons f fs ih =>
    obtain ⟨⟨sig, ps, htyped⟩, hfs⟩ := forall_mem_cons.1 h
    have hhere : FailsOnly (· = .frameOverflow) (emitFunction o f).result :=
      emitFunction_failsOnly htyped
    unfold emitFunctions
    dsimp only
    split
    next e he => exact .of_error (hhere e he)
    next => exact (ih hfs).map _

end Rv32

/-- **Every lowered function is provided for, and only the size of a frame stops
emission**, whether the program is accepted or not and whatever the options. -/
theorem Program.emit_failsOnly {p : Program} {m : IR.Module} (h : p.lower.result = .ok m)
    (o : Rv32.Options) :
    (∀ f ∈ m.functions, ∃ flat live, Rv32.Provided o f flat live) ∧
      Rv32.FailsOnly (· = .frameOverflow) (Rv32.emit o m).result := by
  have htyped : ∀ f ∈ m.functions, ∃ sig ps, f.Typed sig ps := by
    intro f hf
    obtain ⟨_, ps, hps⟩ := Program.lower_typed h hf
    exact ⟨_, ps, hps⟩
  refine ⟨fun f hf => ?_, (Rv32.emitFunctions_failsOnly htyped).map _⟩
  obtain ⟨_, _, hf⟩ := htyped f hf
  exact Rv32.exists_provided o hf

/-- Without registers every place is a slot, also that of the temporary into
which the loop of `sum` copies the value of its condition. -/
theorem Program.emit_failsOnly_sample :
    ∃ m, Source.Sample.program.lower.result = .ok m ∧ m.functions.length = 2 ∧
      (∀ f ∈ m.functions, ∃ flat live, Rv32.Provided ⟨0, true, true⟩ f flat live) ∧
      Rv32.FailsOnly (· = .frameOverflow) (Rv32.emit ⟨0, true, true⟩ m).result := by
  obtain ⟨m, hm⟩ := Source.Sample.program_lowers
  have hlength : (Source.Sample.program.lower.result.toOption.map (·.functions.length)) = some 2 := by
    decide +kernel
  rw [hm] at hlength
  obtain ⟨hprovided, hemit⟩ := Program.emit_failsOnly hm ⟨0, true, true⟩
  exact ⟨m, hm, Option.some.inj hlength, hprovided, hemit⟩

end SysY
