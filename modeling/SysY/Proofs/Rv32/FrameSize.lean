import SysY.Proofs.Pressure
import SysY.Proofs.Rv32.Immediate
import SysY.Proofs.Rv32.Lookups
import SysY.Proofs.Rv32.Meaning

/-!
# When the arithmetic of frames is exact

No array takes more than 2^31 bytes, but the frame of a function holds all of
its arrays, and slots and saved registers besides, and nothing bounds the sum.
So the frame of an accepted program may be too large to be counted
(`Program.frame_exact_overflow`), even with one array only.

What there is instead: the bytes can be counted, and the stack pointer moves by
the size of the frame, exactly if the size is at most 2^31 - 16; and then, if
also the parameters on the stack are below 2^31 bytes from the stack pointer,
the function is emitted and all of its offsets can be encoded
(`Program.frame_exact`). The slots are bounded by the temporaries and the saved
registers by their number, so only the arrays of a function and the arguments
that it passes can make its frame large.
-/

namespace SysY

open IR

namespace Rv32

/-! ## The parts of a frame -/

variable {o : Options} {f : IR.Function} {sig : Signatures} {ps : List Part} {flat : Flat}
  {live : Liveness}

/-- **A compiled function with a small frame keeps everything near.** -/
theorem Compiled.near (F : Compiled) (hsize : F.home.frame.size ≤ 0x7ffffff0)
    (hparams : F.home.frame.size + 4 * (F.sig.own.length - 8) ≤ 0x80000000) :
    F.home.Near F.flat.lines := by
  intro obj offset n hk
  have hstands : F.home.Stands F.flat.lines 0 := F.stands rfl (by omega)
  have hareas := F.frame.areas
  have hwithin := keeps_within hstands hk
  cases hk with
  | incoming hi =>
    have hlt := F.arg_lt hi
    omega
  | _ =>
    simp only [StackObject.area] at hwithin
    omega

/-! ## Frames of lowered functions -/

/-- What a frame holds: outgoing arguments, slots, arrays, saved registers and
the return address. -/
theorem Frame.size_whole (lines : List Line) (plan : Plan Reg) :
    (whole lines plan).size
      = roundTo16 (outgoing lines + 4 * (plan.slots + arrayWords lines + plan.used.length + 1)) := by
  simp only [whole, layOut, wordSize]
  congr 1
  omega

/-- **The arithmetic of a frame is exact if its size is at most 2^31 - 16**, and
only then. -/
theorem Frame.exact_iff (lines : List Line) (plan : Plan Reg) :
    (whole lines plan).size ≤ 0x7ffffff0 ↔ make lines plan = .ok (whole lines plan) ∧
      (Int32.ofNat (whole lines plan).size).toInt = (whole lines plan).size ∧
      (-Int32.ofNat (whole lines plan).size).toInt = -(whole lines plan).size := by
  have hfits := fits_whole lines plan
  constructor
  · intro hsize
    have hword : (Int32.ofNat (whole lines plan).size).toInt = (whole lines plan).size :=
      Int32.toInt_ofNat_of_lt (Nat.lt_of_le_of_lt hsize (by decide))
    refine ⟨if_pos ?_, hword, ?_⟩
    · have hra := hfits.size
      show (whole lines plan).ra + wordSize + 15 < _
      simp only [wordSize]
      omega
    · rw [Int32.toInt_neg, hword]
      exact Int.bmod_eq_of_le (by omega) (by omega)
  · rintro ⟨-, hword, -⟩
    have hlt := (Int32.ofNat (whole lines plan).size).toInt_lt
    have haligned := hfits.aligned
    omega

/-- No more registers are saved than there are. -/
theorem length_used_le (hlive : Liveness.analyze f.temps flat = .ok live) :
    (Plan.make live.intervals o.pool live.maxLive).used.length ≤ 12 := by
  have hplan := Plan.valid_make o.nodup_pool (Liveness.ordered_intervals hlive) live.maxLive
  have hsub : (Plan.make live.intervals o.pool live.maxLive).used ⊆ o.pool := by
    intro r hr
    obtain ⟨t, ht⟩ := (hplan.mem_used r).1 hr
    exact hplan.register t r ht
  have hpool : o.pool.length ≤ Reg.saved.length := (List.take_sublist _ _).length_le
  exact Nat.le_trans (List.subperm_of_subset hplan.used_once hsub).length_le hpool

/-- **The code of a typed function can be encoded**, if its frame and what its
caller puts above it are small. -/
theorem emitFunction_encodable (htyped : f.Typed sig ps) (hsize : frameBytes o f ≤ 0x7ffffff0)
    (hparams : frameBytes o f + 4 * (sig.own.length - 8) ≤ 0x80000000) :
    ∃ lines, (emitFunction o f).result = .ok lines ∧ EncodableLines lines := by
  obtain ⟨lines, hlines⟩ : Succeeds (emitFunction o f).result :=
    emitFunction_succeeds htyped (Nat.lt_of_le_of_lt hsize (by decide)) (by omega)
  refine ⟨lines, hlines, ?_⟩
  obtain ⟨F, rfl, -, -, hframe, prologue, code, hprologue, hcode, rfl⟩ := exists_compiled htyped hlines
  rw [← hframe] at hsize hparams
  refine encodableLines_append (fun i hi => ?_) (F.encodable (F.near hsize hparams) hprologue hcode)
  simp at hi

/-- A frame of 2^31 bytes cannot be made room for. -/
theorem emitFunction_overflows (htyped : f.Typed sig ps) (hsize : frameBytes o f = 0x80000000) :
    (emitFunction o f).result = .error .frameOverflow := by
  obtain ⟨live, hanalyzed⟩ := analyzed_succeeds htyped
  rw [frameBytes, hanalyzed] at hsize
  set lines := Flat.lines ⟨ps.map (·.flat)⟩
  set plan := Plan.make live.intervals o.pool live.maxLive
  have hwhole : (Frame.whole lines plan).size = 0x80000000 := hsize
  have hmake : Frame.make lines plan = .ok (Frame.whole lines plan) := by
    refine if_pos ?_
    have hra := (Frame.fits_whole lines plan).size
    show (Frame.whole lines plan).ra + wordSize + 15 < _
    simp only [wordSize]
    omega
  have hprologue : ∀ kinds, Home.prologue ⟨f, plan, kinds, Frame.whole lines plan⟩
      = .error .frameOverflow := by
    refine fun kinds => if_pos ?_
    show Int32.ofNat (Frame.whole lines plan).size = _
    rw [hwhole]
    decide
  unfold emitFunction
  rw [hanalyzed]
  dsimp only
  rw [hmake]
  dsimp only
  rw [Home.body, hprologue]
  rfl

end Rv32

/-- **When the arithmetic of frames is exact.** For every function of an
accepted program that is lowered, and any number of registers: the frame holds
the outgoing arguments, no more slots than temporaries, the arrays, no more than
twelve registers and the return address. Its bytes can be counted, and the size
and its negative are words, exactly if the size is at most 2^31 - 16. And then
the function is emitted with offsets that are words and not negative, if also
the last parameter is within 2^31 bytes. -/
theorem Program.frame_exact {p : Program} {m : IR.Module} (haccepted : p.accepted = true)
    (hlower : p.lower.result = .ok m) {f : IR.Function} (hf : f ∈ m.functions) (o : Rv32.Options) :
    ∃ flat live, Rv32.analyzed f = .ok (flat, live) ∧
      let plan := Plan.make live.intervals o.pool live.maxLive
      let frame := Rv32.Frame.whole flat.lines plan
      frame.size = Rv32.roundTo16 (Rv32.outgoing flat.lines
        + 4 * (plan.slots + Rv32.arrayWords flat.lines + plan.used.length + 1)) ∧
      plan.slots ≤ f.temps ∧ plan.used.length ≤ 12 ∧
      (frame.size ≤ 0x7ffffff0 ↔ Rv32.Frame.make flat.lines plan = .ok frame ∧
        (Int32.ofNat frame.size).toInt = frame.size ∧ (-Int32.ofNat frame.size).toInt = -frame.size) ∧
      (frame.size ≤ 0x7ffffff0 → frame.size + 4 * (f.params - 8) ≤ 0x80000000 →
        ∃ lines, (Rv32.emitFunction o f).result = .ok lines ∧ Rv32.EncodableLines lines) := by
  obtain ⟨⟨ps, htyped⟩, hparams⟩ := Program.lower_typed_for haccepted hlower hf
  obtain ⟨live, hanalyzed⟩ := Rv32.analyzed_succeeds htyped
  obtain ⟨-, hlive⟩ := Rv32.analyzed_ok hanalyzed
  refine ⟨_, live, hanalyzed, Rv32.Frame.size_whole _ _, Liveness.analyze_slots_le hlive o.pool,
    Rv32.length_used_le hlive, Rv32.Frame.exact_iff _ _, fun hsize hincoming => ?_⟩
  have hbytes : Rv32.frameBytes o f = (Rv32.Frame.whole (Flat.lines ⟨ps.map (·.flat)⟩)
      (Plan.make live.intervals o.pool live.maxLive)).size := by
    rw [Rv32.frameBytes, hanalyzed]
    rfl
  rw [← hbytes] at hsize hincoming
  exact Rv32.emitFunction_encodable htyped hsize (by rw [hparams]; exact hincoming)

namespace Source.Sample

/-- A program with one array: `int main() { int a[n]; return a[0]; }`. -/
def arrayOf (n : String) : Program where
  units := [.function (function "main" [] <|
    .decl ⟨false, array "a" [num n], []⟩ (ret (get "a" [num "0"])))]

end Source.Sample

open Source.Sample

/-- One array, and the largest frame that is exact. -/
theorem Program.frame_exact_largest :
    (arrayOf "536870905").accepted = true ∧
    ∃ m f, (arrayOf "536870905").lower.result = .ok m ∧ f ∈ m.functions ∧
      Rv32.frameBytes ⟨12, false, false⟩ f = 0x7ffffff0 ∧
      ∃ lines, (Rv32.emitFunction ⟨12, false, false⟩ f).result = .ok lines ∧ Rv32.EncodableLines lines := by
  have haccepted : (arrayOf "536870905").accepted = true := by decide +kernel
  obtain ⟨m, f, hm, hf, hbytes, hparams⟩ := head_lowers
    (p := arrayOf "536870905")
    (fun f => Rv32.frameBytes ⟨12, false, false⟩ f = 0x7ffffff0 ∧ f.params = 0) (by cbv)
  obtain ⟨flat, live, hanalyzed, -, -, -, -, hemit⟩ :=
    Program.frame_exact haccepted hm hf ⟨12, false, false⟩
  have hsize := hbytes
  rw [Rv32.frameBytes, hanalyzed] at hsize
  exact ⟨haccepted, m, f, hm, hf, hbytes, hemit (Nat.le_of_eq hsize) (by
    rw [hparams]
    exact Nat.le_trans (Nat.le_of_eq hsize) (by decide))⟩

/-- With one word more the program is still accepted and lowered, but its frame
cannot be made room for. -/
theorem Program.frame_exact_overflow :
    (arrayOf "536870906").accepted = true ∧
    ∃ m f, (arrayOf "536870906").lower.result = .ok m ∧ f ∈ m.functions ∧
      Rv32.frameBytes ⟨12, false, false⟩ f = 0x80000000 ∧
      (Rv32.emitFunction ⟨12, false, false⟩ f).result = .error .frameOverflow := by
  have haccepted : (arrayOf "536870906").accepted = true := by decide +kernel
  obtain ⟨m, f, hm, hf, hbytes⟩ := head_lowers
    (p := arrayOf "536870906")
    (fun f => Rv32.frameBytes ⟨12, false, false⟩ f = 0x80000000) (by cbv)
  obtain ⟨⟨ps, htyped⟩, -⟩ := Program.lower_typed_for haccepted hm hf
  exact ⟨haccepted, m, f, hm, hf, hbytes, Rv32.emitFunction_overflows htyped hbytes⟩

end SysY
