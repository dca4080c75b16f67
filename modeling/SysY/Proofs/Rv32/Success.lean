import SysY.Proofs.Rv32.Flows
import SysY.Proofs.Rv32.Link

/-!
# Typed functions are emitted

Nothing but the size of its frame stops the emission of a typed function
(`Compiled.body_failsOnly`), since every line becomes code if offsets can be counted.
The frame bounds them, so a function whose frame is smaller than 2^31 bytes is emitted
(`emitFunction_succeeds`).
-/

namespace SysY

open IR List

namespace Rv32

open Lower (Ends)

/-! ## Computations that succeed -/

/-- A computation comes to a result. -/
def Succeeds {ε α : Type} (x : Except ε α) : Prop := ∃ a, x = .ok a

theorem Succeeds.map {ε α β : Type} {x : Except ε α} (hx : Succeeds x) (f : α → β) :
    Succeeds (x.map f) := by
  obtain ⟨a, rfl⟩ := hx
  exact ⟨f a, rfl⟩

/-- A computation comes to a result, or stops with a fault that is allowed. -/
def FailsOnly (allowed : Fault → Prop) {α : Type} (x : Except Fault α) : Prop :=
  ∀ e, x = .error e → allowed e

variable {allowed : Fault → Prop}

namespace FailsOnly

variable {α β : Type} {x : Except Fault α}

theorem of_ends {P : α → Prop} (h : Ends allowed x P) : FailsOnly allowed x := by
  rintro e rfl
  exact h

theorem of_ok {a : α} (h : x = .ok a) : FailsOnly allowed x := by
  rintro e rfl
  cases h

theorem of_error {e : Fault} (h : allowed e) : FailsOnly allowed (.error e : Except Fault α) := by
  rintro _ ⟨⟩
  exact h

theorem map (hx : FailsOnly allowed x) (f : α → β) : FailsOnly allowed (x.map f) := by
  cases x with
  | ok a => exact of_ok rfl
  | error e => exact of_error (hx e rfl)

/-- What no fault may stop comes to a result. -/
theorem succeeds (h : FailsOnly (fun _ => False) x) : Succeeds x := by
  cases x with
  | ok a => exact ⟨a, rfl⟩
  | error e => exact (h e rfl).elim

end FailsOnly

/-- **Nothing but what bounds it stops the code of a compiled function.** -/
theorem Compiled.body_failsOnly {F : Compiled} (hF : F.Bounded allowed) (annotate : Bool) :
    FailsOnly allowed (F.home.body annotate F.flat) :=
  .of_ends (P := fun _ => True) <| hF.prologue.bind fun _ _ =>
    (Compiled.blocksCode_ends hF (nil_append _).symm annotate).bind fun _ _ => .pure trivial

theorem labelName_ends {f : IR.Function} {l : Label} (h : l < f.blocks.length) :
    Ends allowed (f.labelName l) fun _ => True := by
  have hblock : f.block l = .ok f.blocks[l] := by rw [Function.block, getElem?_eq_getElem h]
  exact .bind_ok hblock (.pure trivial)

/-! ## Functions -/

variable {o : Options} {f : IR.Function} {sig : Signatures} {ps : List Part}

theorem analyzed_succeeds (htyped : f.Typed sig ps) :
    ∃ live, analyzed f = .ok (⟨ps.map (·.flat)⟩, live) := by
  obtain ⟨known, hflat, -⟩ := htyped.exists_table
  obtain ⟨live, hlive, -⟩ := Liveness.exists_analyze hflat.closed fun t n => hflat.touch_lt
  refine ⟨live, ?_⟩
  rw [analyzed, htyped.flatten]
  show (Liveness.analyze f.temps _ >>= fun live => Pure.pure (_, live)) = _
  rw [hlive]
  rfl

/-- A frame that is small enough can be laid out. -/
theorem exists_frame {flat : Flat} {live : Liveness} (hanalyzed : analyzed f = .ok (flat, live))
    (hsize : frameBytes o f < 0x80000000) :
    ∃ frame, Frame.make flat.lines (Plan.make live.intervals o.pool live.maxLive) = .ok frame := by
  rw [frameBytes, hanalyzed] at hsize
  refine ⟨_, if_pos ?_⟩
  have hround := le_roundTo16 ((Frame.layOut (outgoing flat.lines)
    (Plan.make live.intervals o.pool live.maxLive).slots (arrayWords flat.lines)
    (Plan.make live.intervals o.pool live.maxLive).used).ra + wordSize)
  have hbound : (Frame.layOut (outgoing flat.lines)
    (Plan.make live.intervals o.pool live.maxLive).slots (arrayWords flat.lines)
    (Plan.make live.intervals o.pool live.maxLive).used).ra + wordSize < 0x80000000 :=
    Nat.lt_of_le_of_lt hround hsize
  exact Nat.lt_of_lt_of_le (Nat.add_lt_add_right hbound 15) (by decide)

/-- The blocks that a typed function names in its lines are there. -/
theorem labels_lt (htyped : f.Typed sig ps) {i : IR.Instr}
    (hi : .instr i ∈ Flat.lines ⟨ps.map (·.flat)⟩) {l : Label} (hl : l ∈ i.op.labels) :
    l < f.blocks.length := by
  rw [Function.Typed.lines_eq] at hi
  obtain ⟨p, hp, hline⟩ := mem_flatMap.1 hi
  have hcode : i ∈ p.code := by
    simp only [Part.lines, Part.copyLines, mem_append, mem_map, Option.mem_toList,
      mem_singleton] at hline
    obtain (⟨j, hj, heq⟩ | ⟨c, -, heq⟩) | heq := hline
    · cases heq
      exact mem_append_left _ hj
    · cases heq
    · cases heq
      exact mem_append_right _ (mem_singleton_self _)
  obtain ⟨b, hb, hbcode⟩ := Option.map_eq_some_iff.1 (htyped.code p hp)
  exact htyped.wellFormed.labels b (mem_of_getElem? hb) i (hbcode ▸ hcode) l hl

/-- The blocks that a typed function names are there, and its offsets can be counted,
unless that may be a fault. -/
theorem Compiled.bounded (htyped : f.Typed sig ps) {F : Compiled} (hflat : F.flat = ⟨ps.map (·.flat)⟩)
    (hfunction : F.home.function = f)
    (hargs : ∀ i < F.sig.own.length,
      allowed .frameOverflow ∨ F.home.frame.size + (i - registerArgs) * wordSize < 0x100000000)
    (hsize : allowed .frameOverflow ∨ F.home.frame.size < 0x80000000) : F.Bounded allowed where
  labels := by
    intro i hi l hl
    rw [hflat] at hi
    rw [hfunction]
    exact labelName_ends (labels_lt htyped hi hl)
  blocks := by
    intro b hb
    rw [hflat] at hb
    obtain ⟨p, hp, rfl⟩ := mem_map.1 hb
    rw [hfunction]
    exact labelName_ends (htyped.label_lt hp)
  args := by
    intro i hi
    unfold Frame.incomingOffset
    dsimp only
    split
    next => trivial
    next hlarge => exact (hargs i hi).resolve_right hlarge
  prologue := by
    unfold Home.prologue
    split
    next hmin =>
      refine hsize.resolve_right fun hsize => ?_
      have hword : (address F.home.frameWord : Nat) = F.home.frame.size :=
        address_ofNat (Nat.lt_trans hsize (by decide))
      rw [hmin, show address Int32.minValue = 0x80000000 by decide] at hword
      omega
    next => trivial

/-- **A typed function is emitted**, if its frame is smaller than 2^31 bytes and
it has no more parameters on the stack than words that many bytes hold. -/
theorem emitFunction_succeeds (htyped : f.Typed sig ps) (hsize : frameBytes o f < 0x80000000)
    (hparams : sig.own.length ≤ 0x20000008) : Succeeds (emitFunction o f).result := by
  obtain ⟨live, hanalyzed⟩ := analyzed_succeeds htyped
  obtain ⟨frame, hframe⟩ := exists_frame hanalyzed hsize
  obtain ⟨F, rfl, hflat, hhome⟩ := exists_compiled_of_fits htyped hanalyzed (Frame.fits_of_make hframe)
  have hframeSize : F.home.frame.size < 0x80000000 := by
    rw [hhome, ← frameBytes_of_make hanalyzed hframe]
    exact hsize
  have hF : F.Bounded fun _ => False := by
    refine Compiled.bounded htyped hflat (by rw [hhome]) (fun i hi => .inr ?_) (.inr hframeSize)
    simp only [registerArgs, wordSize]
    omega
  have hbody := (Compiled.body_failsOnly hF o.annotate).succeeds
  rw [hflat, hhome] at hbody
  unfold emitFunction
  rw [hanalyzed]
  dsimp only
  rw [hframe]
  exact hbody.map _

/-- **A module of typed functions is emitted.** -/
theorem emit_succeeds {m : Module} (hm : ∀ f ∈ m.functions, ∃ sig ps, f.Typed sig ps ∧
    sig.own.length ≤ 0x20000000 ∧ frameBytes o f < 0x80000000) : Succeeds (emit o m).result := by
  refine Succeeds.map ?_ _
  generalize m.functions = fs at hm
  induction fs with
  | nil => exact ⟨[], rfl⟩
  | cons f fs ih =>
    obtain ⟨⟨sig, ps, htyped, hparams, hsize⟩, hfs⟩ := forall_mem_cons.1 hm
    obtain ⟨lines, hlines⟩ := emitFunction_succeeds htyped hsize (Nat.le_trans hparams (by decide))
    unfold emitFunctions
    dsimp only
    rw [hlines]
    exact (ih hfs).map _

end Rv32

end SysY
