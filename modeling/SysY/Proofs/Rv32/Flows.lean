import SysY.Proofs.Lower.Ends
import SysY.Proofs.Rv32.Position
import SysY.Proofs.Rv32.Writes
import SysY.Proofs.WellFormed

/-!
# Compiled functions become code

Whatever a line of a compiled function reads or assigns has a place, because it is
touched by the line and so has an interval; an instruction that has to have a result
has one; and the blocks that a line names are blocks of the function. What is left
are offsets and names of blocks, and all that stops the code of a function is what may
stop these (`Compiled.Bounded`).

The same walk shows what the code looks like, and that it accesses on the stack
what the line is about (`Home.accesses`): for each kind of line
(`Compiled.line_ends`), and put together in the order of the code
(`Compiled.blocksCode_ends`). Control does not run on after the last line.
-/

namespace SysY.Rv32

open IR (Value Line Label Temp Op FlatBlock Flat Known)
open Lower (Ends)
open List

variable {allowed : Fault → Prop} {r rd : Reg} {before : List FlatBlock} {output : Option Temp}
  {l : Label} {code : List AsmLine} {callee : String} {annotate : Bool} {bs : List FlatBlock}

namespace Home

variable {h : Home} {t : Temp}

/-- The code runs on to what comes after it. -/
def RunsOn (h : Home) (flat : Flat) (acc : List Access) (code : List Instr) : Prop :=
  h.Flows flat acc true (code.map .instr)

/-- The code has a shape, and control does not run on after it if it is to stop. -/
def Leads (h : Home) (flat : Flat) (acc : List Access) (stops : Prop) (code : List AsmLine) : Prop :=
  ∃ b, h.Flows flat acc b code ∧ (stops → b = false)

end Home

open Home

theorem flatMap_zip_fst {α β γ : Type} (f : α → List γ) (xs : List α) (ys : List β) :
    (xs.zip ys).flatMap (fun x => f x.1) = (xs.take ys.length).flatMap f := by
  induction xs generalizing ys with
  | nil => simp
  | cons x xs ih => cases ys <;> simp [ih]

/-- **What may stop the code of a compiled function**: a block that it names, a
parameter on the stack, or its frame. -/
structure Compiled.Bounded (allowed : Fault → Prop) (F : Compiled) : Prop where
  labels : ∀ ⦃i⦄, .instr i ∈ F.flat.lines → ∀ l ∈ i.op.labels,
    Ends allowed (F.home.function.labelName l) fun _ => True
  blocks : ∀ ⦃b⦄, b ∈ F.flat.blocks → Ends allowed (F.home.function.labelName b.label) fun _ => True
  args : ∀ i < F.sig.own.length, Ends allowed (F.home.frame.incomingOffset i) fun _ => True
  prologue : Ends allowed F.home.prologue fun _ => True

namespace Compiled

variable {F : Compiled} {n : Nat} {line : Line} {v value target : Value} {t : Temp} {k : TempKind}

/-- Anything may stop the code of a function. -/
theorem bounded_any (F : Compiled) : F.Bounded fun _ => True :=
  ⟨fun _ _ _ _ => .any _, fun _ _ => .any _, fun _ _ => .any _, .any _⟩

/-! ## Places -/

/-- What is read is no argument, or one that the function has. -/
theorem arg_lt (F : Compiled) {i : Nat} (hread : IsRead F.flat.lines (.arg i)) :
    i < F.sig.own.length := by
  obtain ⟨line, hline, hi⟩ := hread
  obtain ⟨n, hn⟩ := getElem?_of_mem hline
  cases hterm : line.isTerminator with
  | true =>
    obtain ⟨op, rfl, hends, -⟩ := F.typed.leave hn hterm
    cases op with
    | branch | ret =>
      cases mem_singleton.1 hi
      exact False.elim hends
    | jump | retVoid => cases hi
    | _ => cases hends
  | false =>
    have hstep := (F.typed.step hn hterm).1
    generalize F.known (n + 1) = S' at hstep
    have husable : ∀ {S : Known}, ¬ (Value.arg i).Usable S := fun h => h
    cases hstep with
    | phi => cases hi
    | copy hv =>
      cases mem_singleton.1 hi
      exact (husable hv.2).elim
    | instr hstep =>
      cases hstep with
      | alloca | array => cases hi
      | loadCell | loadPointer => cases mem_singleton.1 hi
      | load hv =>
        cases mem_singleton.1 hi
        exact (husable hv.usable).elim
      | zext hv =>
        cases mem_singleton.1 hi
        exact (husable hv).elim
      | storeArg _ hown _ =>
        rcases mem_pair.1 hi with heq | heq
        · cases heq
          exact (List.getElem?_eq_some_iff.1 hown).1
        · cases heq
      | storeCell _ hv =>
        rcases mem_pair.1 hi with rfl | heq
        · exact (husable hv).elim
        · cases heq
      | store ha hv =>
        rcases mem_pair.1 hi with rfl | rfl
        · exact (husable hv).elim
        · exact (husable ha.usable).elim
      | element ha hb =>
        rcases mem_pair.1 hi with rfl | rfl
        · exact (husable ha.usable).elim
        · exact (husable hb).elim
      | binary ha hb | compare ha hb =>
        rcases mem_pair.1 hi with rfl | rfl
        · exact (husable ha).elim
        · exact (husable hb).elim
      | call hfit | callVoid hfit => exact (husable (hfit.1 _ hi)).elim

theorem touched (hread : IsRead F.flat.lines (.temp t)) : ∃ n, (t, n) ∈ Liveness.touches F.flat.lines := by
  obtain ⟨line, hline, ht⟩ := hread
  obtain ⟨n, hn⟩ := getElem?_of_mem hline
  exact ⟨n, Liveness.mem_touches_of_operand hn ht⟩

theorem exists_kind (F : Compiled) (hread : IsRead F.flat.lines (.temp t)) :
    ∃ k, F.home.kind t = .ok k := by
  obtain ⟨n, ht⟩ := touched hread
  have hlt : t < F.home.kinds.size := by
    rw [F.kinds, size_tempKinds, Array.size_replicate]
    exact F.typed.touch_lt ht
  refine ⟨F.home.kinds[t], ?_⟩
  unfold Home.kind
  rw [Array.getElem?_eq_getElem hlt]

/-- A temporary has a place. -/
def Seated (F : Compiled) (t : Temp) : Prop := ∃ pl, F.home.place t = .ok pl

theorem seated_of_touch (F : Compiled) (hk : F.home.kinds[t]? = some k) (hne : ∀ first, k ≠ .array first)
    (ht : (t, n) ∈ Liveness.touches F.flat.lines) : F.Seated t := by
  obtain ⟨_, pl, -, -, hpl⟩ := F.exists_place hk hne ht
  refine ⟨pl, ?_⟩
  unfold Home.place
  rw [show (F.home.plan.places[t]?).join = some pl from hpl]

theorem seated_of_read (hread : IsRead F.flat.lines (.temp t)) (hk : F.home.kind t = .ok k)
    (hne : ∀ first, k ≠ .array first) : F.Seated t := by
  obtain ⟨n, ht⟩ := touched hread
  exact F.seated_of_touch (kinds_of_kind hk) hne ht

theorem seated_of_result (hn : F.flat.lines[n]? = some line) (ht : line.result? = some t)
    (hroom : roomFor? line = none) (hout : line.output? = some t) : F.Seated t :=
  F.seated_of_touch (F.kind_value hn ht hroom) (fun _ => TempKind.noConfusion)
    (Liveness.mem_touches_of_output hn hout)

/-- A register that is a place may be written. -/
theorem writable (F : Compiled) (hplace : F.home.place t = .ok (.register r)) :
    F.home.Writable r ∧ r ≠ addressReg := by
  have hused := F.register (placeAt_of_place hplace)
  obtain ⟨k, rfl⟩ := F.saved hused
  exact ⟨⟨Reg.noConfusion, Reg.noConfusion, fun _ _ => F.frame.preserved ▸ hused⟩, Reg.noConfusion⟩

/-- A slot is below the area of saved registers. -/
theorem spills (F : Compiled) (hplace : F.home.place t = .ok (.slot n)) (hr : r ≠ addressReg) :
    F.home.RunsOn F.flat (F.home.writeAccess t) (storeStack r (F.home.frame.slotOffset n)) := by
  have hpl := placeAt_of_place hplace
  rw [writeAccess, hpl]
  refine .of_spill hr ?_ (.slot (F.slot hpl))
  have hslot := F.frame.slot (F.slot hpl)
  have hareas := F.frame.areas
  omega

/-- Nothing is accessed to put a word into a register. -/
theorem writeAccess_register (hplace : F.home.place t = .ok (.register r)) :
    F.home.writeAccess t = [] := by
  rw [writeAccess, placeAt_of_place hplace]

/-- The last block of a compiled function is left. -/
theorem exists_terminator (F : Compiled) {blk : FlatBlock}
    (hblocks : F.flat.blocks = before ++ [blk]) : ∃ line ∈ blk.lines, line.isTerminator = true := by
  obtain ⟨init, last, hlast, -⟩ := F.ends (b := blk) (by simp [hblocks])
  obtain ⟨done, hlines⟩ : ∃ done, F.flat.lines = done ++ [last] := by
    refine ⟨before.flatMap (·.lines) ++ init, ?_⟩
    rw [Flat.lines, hblocks, flatMap_append, flatMap_singleton, hlast, append_assoc]
  refine ⟨last, by simp [hlast], ?_⟩
  cases hterm : last.isTerminator with
  | true => rfl
  | false =>
    have hlt := (F.typed.step (by rw [hlines, getElem?_concat_length]) hterm).2
    rw [hlines, length_append, length_singleton] at hlt
    exact absurd hlt (Nat.lt_irrefl _)

/-! ## Reading and writing -/

theorem write_ends (hseat : F.Seated t) :
    Ends allowed (F.home.write t) fun x =>
      F.home.Writable x.1 ∧ x.1 ≠ addressReg ∧ F.home.RunsOn F.flat (F.home.writeAccess t) x.2 := by
  obtain ⟨pl, hpl⟩ := hseat
  refine .bind_ok hpl ?_
  cases pl with
  | register r =>
    obtain ⟨hr, hne⟩ := F.writable hpl
    exact .pure ⟨hr, hne, writeAccess_register hpl ▸ .nil⟩
  | slot n =>
    have hne : resultReg ≠ addressReg := by decide
    exact .pure ⟨F.home.writable_t 2, hne, F.spills hpl hne⟩

section

variable (hF : F.Bounded allowed)

include hF

/-- **Operands can be read**, from where they are, into a register that is neither the stack
pointer nor the scratch register for addresses. -/
theorem read_ends (hread : IsRead F.flat.lines v) {scratch : Reg}
    (hscratch : F.home.Writable scratch) (hne : scratch ≠ addressReg) :
    Ends allowed (F.home.read v scratch) fun x =>
      F.home.Computing F.flat.lines (F.home.readAccess v) x.1 ∧ x.2 ≠ .sp ∧ x.2 ≠ addressReg := by
  have hself : .sp ∉ [scratch] := by simp [hscratch.1.symm]
  cases v with
  | const n =>
    show Ends allowed (if n = 0 then _ else _) _
    split
    · exact .pure ⟨.nil, Reg.noConfusion, Reg.noConfusion⟩
    · exact .pure ⟨.single ⟨rfl, ⟨_, rfl, hscratch⟩, .const scratch n⟩ hself, hscratch.1, hne⟩
  | global name =>
    exact .pure ⟨.single ⟨rfl, ⟨_, rfl, hscratch⟩, .global hread scratch⟩ hself, hscratch.1, hne⟩
  | arg i =>
    unfold Home.read readAccess
    dsimp only
    split
    next => exact .pure ⟨.nil, Reg.noConfusion, Reg.noConfusion⟩
    next hge =>
      refine (hF.args i (F.arg_lt hread)).eq_ok.bind fun offset hoffset => .pure ⟨?_, hscratch.1, hne⟩
      rw [incomingOffset_ok hoffset]
      exact .of_load (.incoming hread (Nat.not_lt.1 hge)) hscratch
  | temp t =>
    obtain ⟨k, hk⟩ := F.exists_kind hread
    refine .bind_ok hk ?_
    simp only [readAccess, kinds_of_kind hk]
    cases k with
    | array first =>
      obtain ⟨n, words, hline, rfl⟩ := F.exists_array (kinds_of_kind hk)
      exact .pure ⟨.of_address (.array hline) hscratch, hscratch.1, hne⟩
    | value | scalar =>
      obtain ⟨pl, hpl⟩ := seated_of_read hread hk fun _ => TempKind.noConfusion
      refine .bind_ok hpl ?_
      rw [placeAt_of_place hpl]
      cases pl with
      | register r =>
        obtain ⟨hr, hne⟩ := F.writable hpl
        exact .pure ⟨.nil, hr.1, hne⟩
      | slot n =>
        exact .pure ⟨.of_load (.slot (F.slot (placeAt_of_place hpl))) hscratch, hscratch.1, hne⟩

theorem read_lhs (hread : IsRead F.flat.lines v) :
    Ends allowed (F.home.read v lhsReg) fun x =>
      F.home.Computing F.flat.lines (F.home.readAccess v) x.1 ∧ x.2 ≠ .sp ∧ x.2 ≠ addressReg :=
  read_ends hF hread (F.home.writable_t 0) (by decide)

theorem readInto_ends (hread : IsRead F.flat.lines v)
    (hrd : F.home.Writable rd) (hne : rd ≠ addressReg) :
    Ends allowed (F.home.readInto v rd) (F.home.Computing F.flat.lines (F.home.readAccess v)) :=
  (read_ends hF hread hrd hne).bind fun _ hx =>
    .pure (append_nil (F.home.readAccess v) ▸ hx.1.append (.of_move hrd hx.2.1))

/-! ## Lines that run on -/

theorem combine_ends {a b : Value} (ha : IsRead F.flat.lines a)
    (hb : IsRead F.flat.lines b) (hseat : F.Seated t) (compute : Reg → Reg → Reg → List Instr)
    (hcompute : ∀ {rd x y}, F.home.Writable rd → x ≠ .sp → y ≠ .sp →
      F.home.Computing F.flat.lines [] (compute rd x y)) :
    Ends allowed (F.home.combine (some t) a b compute) (F.home.RunsOn F.flat
      (F.home.readAccess a ++ F.home.readAccess b ++ F.home.writeAccess t)) :=
  .bind_ok rfl <| (read_lhs hF ha).bind fun x hx =>
    (read_ends hF hb (F.home.writable_t 1) (by decide)).bind fun y hy =>
      (write_ends hseat).bind fun w hw => by
        have hcode := (hx.1.append hy.1).append (hcompute hw.1 hx.2.1 hy.2.1)
        rw [append_nil] at hcode
        exact .pure (.append_map (.of_computing hcode) hw.2.2)

theorem copy_ends (hread : IsRead F.flat.lines v) (hseat : F.Seated t) :
    Ends allowed (F.home.copy t v)
      (F.home.RunsOn F.flat (F.home.readAccess v ++ F.home.writeAccess t)) :=
  (write_ends hseat).bind fun _ hw => (readInto_ends hF hread hw.1 hw.2.1).bind fun _ hc =>
    .pure (.append_map (.of_computing hc) hw.2.2)

theorem load_ends (hread : IsRead F.flat.lines v) (hseat : F.Seated t) :
    Ends allowed (F.home.load (some t) v)
      (F.home.RunsOn F.flat (F.home.readAccess v ++ F.home.writeAccess t)) := by
  refine .bind_ok rfl <| (write_ends hseat).bind fun w hw => ?_
  have hdone : ∀ code, F.home.Computing F.flat.lines (F.home.readAccess v) code →
      Ends allowed (pure (code ++ w.2))
        (F.home.RunsOn F.flat (F.home.readAccess v ++ F.home.writeAccess t)) :=
    fun code hcode => .pure (.append_map (.of_computing hcode) hw.2.2)
  have hload : ∀ {base : Reg}, base ≠ .sp → F.home.Computing F.flat.lines [] [.lw w.1 0 base] :=
    fun hbase => .single ⟨rfl, ⟨w.1, rfl, hw.1⟩, .load ..⟩
      (by simp [Instr.registers, hw.1.1.symm, hbase.symm])
  have hinto := readInto_ends hF hread hw.1 hw.2.1
  have hpointer := read_lhs hF hread
  have hscalar : Ends allowed (F.home.isScalar v) fun _ => True := by
    cases v with
    | temp s =>
      obtain ⟨k, hk⟩ := F.exists_kind hread
      exact .bind_ok hk (.pure trivial)
    | _ => exact .pure trivial
  cases v with
  | global name =>
    exact hdone _ (.cons ⟨rfl, ⟨_, rfl, F.home.writable_t 3⟩, .global hread _⟩
      (by simp [Instr.registers, addressReg]) (hload (by decide)))
  | const m | arg i | temp s =>
    refine hscalar.bind fun b _ => ?_
    cases b with
    | true => exact hinto.bind hdone
    | false =>
      exact hpointer.bind fun x hx => hdone _ (append_nil (readAccess ..) ▸ hx.1.append (hload hx.2.1))

theorem assign_ends (hread : IsRead F.flat.lines v) (hseat : F.Seated t) :
    Ends allowed (F.home.assign t v)
      (F.home.RunsOn F.flat (F.home.readAccess v ++ F.home.writeAccess t)) := by
  obtain ⟨pl, hpl⟩ := hseat
  refine .bind_ok hpl ?_
  cases pl with
  | register r =>
    obtain ⟨hr, hne⟩ := F.writable hpl
    rw [writeAccess_register hpl, append_nil]
    exact (readInto_ends hF hread hr hne).imp fun _ => .of_computing
  | slot n =>
    exact (read_lhs hF hread).bind fun x hx =>
      .pure (.append_map (.of_computing hx.1) (F.spills hpl hx.2.2))

theorem store_ends {output : Option Temp} (hvalue : IsRead F.flat.lines value)
    (htarget : IsRead F.flat.lines target) :
    Ends allowed (F.home.store value target)
      (F.home.RunsOn F.flat (F.home.accesses (.instr ⟨output, .store value target⟩))) := by
  have hthrough : Ends allowed (F.home.storeThrough value target)
      (F.home.RunsOn F.flat (F.home.readAccess value ++ F.home.readAccess target)) :=
    (read_lhs hF hvalue).bind fun x hx =>
      (read_ends hF htarget (F.home.writable_t 1) (by decide)).bind fun y hy => by
        have hcode : F.home.RunsOn F.flat _ ((x.1 ++ y.1) ++ [.sw x.2 0 y.2]) :=
          .append_map (.of_computing (hx.1.append hy.1)) (.store hx.2.1 hy.2.1 hy.2.2 .nil)
        rw [append_nil] at hcode
        exact .pure hcode
  cases target with
  | const m | arg i => exact hthrough
  | global name =>
    exact (read_lhs hF hvalue).bind fun x hx =>
      .pure (.append_map (.of_computing hx.1) (.global hx.2.1 htarget .nil))
  | temp t =>
    obtain ⟨k, hk⟩ := F.exists_kind htarget
    refine .bind_ok hk ?_
    simp only [accesses, kinds_of_kind hk, Option.some.injEq]
    split
    next heq => exact assign_ends hF hvalue (seated_of_read htarget hk (by simp [heq]))
    next => exact hthrough

theorem stackArgs_ends {args vs : List Value}
    (hline : .instr ⟨output, .call callee args⟩ ∈ F.flat.lines) (hvs : ∀ v ∈ vs, v ∈ args) {k : Nat}
    (hroom : k + vs.length ≤ args.length - 8) :
    Ends allowed (F.home.stackArgs k vs) (F.home.RunsOn F.flat (F.home.argAccess k vs)) := by
  induction vs generalizing k with
  | nil => exact .pure .nil
  | cons v vs ih =>
    obtain ⟨hv, hvs⟩ := forall_mem_cons.1 hvs
    rw [length_cons] at hroom
    have hsaved : k * wordSize < F.home.frame.saved := by
      have hout := le_outgoing hline
      have hareas := F.frame.areas
      rw [F.frame.spills] at hareas
      simp only [wordSize]
      omega
    have hk : F.home.Keeps F.flat.lines (.outgoing k) (k * wordSize) 4 := by
      rw [wordSize, Nat.mul_comm]
      exact .outgoing hline (by omega)
    refine (read_lhs hF ⟨_, hline, hv⟩).bind fun x hx => (ih hvs (k := k + 1) (by omega)).bind
      fun _ hc => .pure ?_
    rw [append_assoc]
    exact .append_map (.of_computing hx.1) (.append_map (.of_spill hx.2.2 hsaved hk) hc)

theorem registerArgCode_ends {vs : List (Value × Fin 8)}
    (hvs : ∀ x ∈ vs, IsRead F.flat.lines x.1) :
    Ends allowed (F.home.registerArgCode vs)
      (F.home.Computing F.flat.lines (vs.flatMap fun x => F.home.readAccess x.1)) := by
  induction vs with
  | nil => exact .pure .nil
  | cons x vs ih =>
    obtain ⟨hx, hvs⟩ := forall_mem_cons.1 hvs
    exact (readInto_ends hF hx (F.home.writable_a x.2) Reg.noConfusion).bind fun _ hc =>
      (ih hvs).bind fun _ hr => .pure (hc.append hr)

theorem call_ends {vs : List Value}
    (hline : .instr ⟨output, .call callee vs⟩ ∈ F.flat.lines)
    (hseat : ∀ t, output = some t → F.Seated t) :
    Ends allowed (F.home.call output callee vs)
      (F.home.RunsOn F.flat (F.home.accesses (.instr ⟨output, .call callee vs⟩))) := by
  have hroom : 0 + (vs.drop registerArgs).length ≤ vs.length - 8 := by
    rw [Nat.zero_add, length_drop]
    exact Nat.le_refl _
  refine (stackArgs_ends hF hline (fun v hv => mem_of_mem_drop hv) hroom).bind fun c1 h1 =>
    (registerArgCode_ends hF fun x hx => ⟨_, hline, (of_mem_zip hx).1⟩).bind fun c2 h2 => ?_
  have hcall : F.home.RunsOn F.flat _ (c1 ++ c2 ++ [Instr.call callee]) :=
    .append_map (.append_map h1 (.of_computing h2)) (.call hline .nil)
  rw [append_nil, flatMap_zip_fst] at hcall
  cases output with
  | none => exact .pure (.append_map hcall .nil)
  | some t =>
    exact (write_ends (hseat t rfl)).bind fun _ hw => .pure
      (.append_map hcall (.append_map (.of_computing (.of_move hw.1 Reg.noConfusion)) hw.2.2))

/-! ## Lines that leave their block -/

/-- The lines of a compiled function lead to its blocks only. -/
theorem successor_ends {i : IR.Instr} (hline : .instr i ∈ F.flat.lines)
    (hl : l ∈ i.op.successors) :
    Ends allowed (F.home.symbol l) fun name =>
      F.home.symbol l = .ok name ∧ l ∈ F.flat.blocks.map (·.label) := by
  have hlabel : l ∈ i.op.labels := by
    unfold Op.labels
    split
    next heq =>
      rw [heq] at hl
      cases hl
    next => exact hl
  have hsymbol : Ends allowed (F.home.symbol l) fun _ => True :=
    (hF.labels hline l hlabel).bind fun _ _ => .pure trivial
  refine hsymbol.eq_ok.imp fun name hname => ⟨hname, ?_⟩
  obtain ⟨n, hn⟩ := getElem?_of_mem hline
  obtain ⟨op, heq, -, hstarts⟩ := F.typed.leave hn (Line.isTerminator_of_successors hl)
  cases heq
  obtain ⟨s, hs, -⟩ := hstarts l hl
  obtain ⟨before, b, after, hblocks, rfl, -⟩ := exists_block_of_start? hs
  exact mem_map.2 ⟨b, by simp [hblocks], rfl⟩

theorem jump_ends (hline : .instr ⟨none, .jump l⟩ ∈ F.flat.lines)
    (next : Option Label) :
    Ends allowed (F.home.jump next l) fun code =>
      F.home.Leads F.flat [] (next = none) (code.map .instr) := by
  unfold Home.jump
  split
  next heq => exact .pure ⟨true, .nil, by simp [heq]⟩
  next =>
    exact (successor_ends hF hline mem_cons_self).bind fun name hname =>
      .pure ⟨false, .jump hname.2 hname.1 .nil, fun _ => rfl⟩

theorem branch_ends {yes no : Label}
    (hline : .instr ⟨none, .branch v yes no⟩ ∈ F.flat.lines) (next : Option Label) :
    Ends allowed (F.home.branch next v yes no) fun code =>
      F.home.Leads F.flat (F.home.readAccess v) (next = none) (code.map .instr) := by
  refine (read_lhs hF ⟨_, hline, mem_cons_self⟩).bind fun x hx =>
    (successor_ends hF hline (l := yes) (by simp [Op.successors])).bind fun yesName hyes =>
    (successor_ends hF hline (l := no) (by simp [Op.successors])).bind fun noName hno => ?_
  have hcond : F.home.RunsOn F.flat _ x.1 := .of_computing hx.1
  rw [← append_nil (F.home.readAccess v)]
  split
  next heq =>
    exact .pure ⟨true, .append_map hcond (.branch hx.2.1 hno.2 hno.1 (.inl rfl) .nil), by simp [heq]⟩
  next =>
    split
    next heq =>
      exact .pure ⟨true, .append_map hcond (.branch hx.2.1 hyes.2 hyes.1 (.inr rfl) .nil), by simp [heq]⟩
    next =>
      exact .pure ⟨false, .append_map hcond (.branch hx.2.1 hyes.2 hyes.1 (.inr rfl)
        (.jump hno.2 hno.1 .nil)), fun _ => rfl⟩

theorem ret_ends (hline : .instr ⟨none, .ret v⟩ ∈ F.flat.lines) :
    Ends allowed (do return (← F.home.readInto v returnReg) ++ F.home.epilogue) fun code =>
      F.home.Flows F.flat (F.home.readAccess v ++ F.home.exitAccess) false (code.map .instr) := by
  have hwritable : F.home.Writable returnReg := F.home.writable_a 0
  have hcode := readInto_ends hF ⟨_, hline, mem_cons_self⟩ hwritable Reg.noConfusion
  cases hread : F.home.readInto v returnReg <;> rw [hread] at hcode
  case error => exact hcode
  case ok =>
    have hret := Flows.ret hline hread hcode .nil
    rwa [append_nil, append_nil] at hret

/-! ## Lines -/

/-- **Every line becomes code** that accesses what the line is about, and control runs on
after it, unless it leaves its block and there is no block after that. -/
theorem line_ends (hline : line ∈ F.flat.lines) (next : Option Label) :
    Ends allowed (F.home.line next line) fun code =>
      F.home.Leads F.flat (F.home.accesses line) (next = none ∧ line.isTerminator = true)
        (code.map .instr) := by
  obtain ⟨n, hn⟩ := getElem?_of_mem hline
  cases hterm : line.isTerminator with
  | true =>
    simp only [and_true]
    obtain ⟨op, rfl, hends, -⟩ := F.typed.leave hn hterm
    cases op with
    | jump target => exact jump_ends hF hline next
    | branch cond yes no => exact branch_ends hF hline next
    | ret v => exact (ret_ends hF hline).imp fun _ hcode => ⟨false, hcode, fun _ => rfl⟩
    | retVoid =>
      have hret := Flows.retVoid (h := F.home) hline .nil
      rw [append_nil, append_nil] at hret
      exact .pure ⟨false, hret, fun _ => rfl⟩
    | _ => cases hends
  | false =>
    have hread : ∀ v ∈ line.operands, IsRead F.flat.lines v := fun v hv => ⟨line, hline, hv⟩
    obtain ⟨hstep, -⟩ := F.typed.step hn hterm
    generalize F.known (n + 1) = S' at hstep
    suffices hruns : Ends allowed (F.home.line next line)
        (F.home.RunsOn F.flat (F.home.accesses line)) from
      hruns.imp fun _ hcode => ⟨true, hcode, fun hstops => Bool.noConfusion hstops.2⟩
    cases hstep with
    | phi => exact .pure .nil
    | @copy t v hv =>
      refine copy_ends hF (hread v mem_cons_self) ?_
      exact F.seated_of_touch (F.kind_copy hn) (fun _ => TempKind.noConfusion)
        (Liveness.mem_touches_of_output hn rfl)
    | instr hstep =>
      cases hstep with
      | alloca | array => exact .pure .nil
      | loadCell | loadPointer | load =>
        exact load_ends hF (hread _ mem_cons_self) (seated_of_result hn rfl rfl rfl)
      | storeCell | storeArg | store =>
        exact store_ends hF (hread _ mem_cons_self)
          (hread _ (mem_cons_of_mem _ mem_cons_self))
      | @binary t op a b =>
        exact combine_ends hF (hread a mem_cons_self)
          (hread b (mem_cons_of_mem _ mem_cons_self)) (seated_of_result hn rfl rfl rfl)
          (fun rd x y => [.alu (aluOp op) rd x y])
          fun hrd hx hy => .single ⟨rfl, ⟨_, rfl, hrd⟩, .alu ..⟩
            (by simp [Instr.registers, hrd.1.symm, hx.symm, hy.symm])
      | @compare t op a b =>
        exact combine_ends hF (hread a mem_cons_self)
          (hread b (mem_cons_of_mem _ mem_cons_self)) (seated_of_result hn rfl rfl rfl)
          (compare op) fun hrd hx hy => computing_compare hrd hx hy op
      | @element t a b =>
        exact combine_ends hF (hread a mem_cons_self)
          (hread b (mem_cons_of_mem _ mem_cons_self)) (seated_of_result hn rfl rfl rfl)
          elementAddress computing_elementAddress
      | @zext t v =>
        exact .bind_ok rfl
          (copy_ends hF (hread v mem_cons_self) (seated_of_result hn rfl rfl rfl))
      | call =>
        exact call_ends hF hline (by rintro _ ⟨⟩; exact seated_of_result hn rfl rfl rfl)
      | callVoid => exact call_ends hF hline (by rintro _ ⟨⟩)

/-- The text of a line can be written if the blocks that it names are there. -/
theorem text_ends (hline : line ∈ F.flat.lines) :
    Ends allowed (line.text F.home.function) fun _ => True := by
  cases line with
  | copy t v => exact .pure trivial
  | instr i =>
    obtain ⟨output, op⟩ := i
    have hlabels := hF.labels hline
    have hop : Ends allowed (F.home.function.opText op) fun _ => True := by
      cases op with
      | phi a la b lb =>
        exact (hlabels la (by simp [Op.labels])).bind fun _ _ =>
          (hlabels lb (by simp [Op.labels])).bind fun _ _ => .pure trivial
      | jump l => exact (hlabels l (by simp [Op.labels, Op.successors])).bind fun _ _ => .pure trivial
      | branch c yes no =>
        exact (hlabels yes (by simp [Op.labels, Op.successors])).bind fun _ _ =>
          (hlabels no (by simp [Op.labels, Op.successors])).bind fun _ _ => .pure trivial
      | _ => exact .pure trivial
    refine hop.bind fun _ _ => ?_
    cases output <;> exact .pure trivial

theorem lineCode_ends (hline : line ∈ F.flat.lines) (annotate : Bool)
    (next : Option Label) :
    Ends allowed (F.home.lineCode annotate next line)
      (F.home.Leads F.flat (F.home.accesses line) (next = none ∧ line.isTerminator = true)) := by
  have hcode := line_ends hF hline next
  unfold Home.lineCode
  dsimp only
  split
  · exact (text_ends hF hline).bind fun text _ => .bind_ok rfl <| hcode.bind fun _ hleads =>
      .pure (hleads.imp fun _ hb => ⟨.remark text hb.1, hb.2⟩)
  · exact .bind_ok rfl <| hcode.bind fun _ hleads => .pure hleads

theorem linesCode_ends {ls : List Line} (hls : ∀ line ∈ ls, line ∈ F.flat.lines)
    (annotate : Bool) (next : Option Label) :
    Ends allowed (F.home.linesCode annotate next ls)
      (F.home.Leads F.flat (ls.flatMap F.home.accesses)
        (next = none ∧ ∃ line ∈ ls, line.isTerminator = true)) := by
  induction ls with
  | nil => exact .pure ⟨true, .nil, by simp⟩
  | cons line ls ih =>
    obtain ⟨hline, hls⟩ := forall_mem_cons.1 hls
    refine (lineCode_ends hF hline annotate next).bind fun _ hhere => (ih hls).bind fun _ hlater => ?_
    obtain ⟨b, hhere, hb⟩ := hhere
    obtain ⟨b', hlater, hb'⟩ := hlater
    refine .pure ⟨b && b', hhere.append hlater, ?_⟩
    rintro ⟨hnone, last, hlast, hterm⟩
    obtain rfl | hlast := mem_cons.1 hlast
    · rw [hb ⟨hnone, hterm⟩, Bool.false_and]
    · rw [hb' ⟨hnone, last, hlast, hterm⟩, Bool.and_false]

/-! ## Functions -/

/-- **The code of blocks**, from any of the function's on: control does not run on after
it. -/
theorem blocksCode_ends (hblocks : F.flat.blocks = before ++ bs) (annotate : Bool) :
    Ends allowed (F.home.blocksCode annotate bs)
      (F.home.Leads F.flat (bs.flatMap fun b => b.lines.flatMap F.home.accesses) (bs ≠ [])) := by
  induction bs generalizing before with
  | nil => exact .pure ⟨true, .nil, fun hne => absurd rfl hne⟩
  | cons blk bs ih =>
    have hmem : blk ∈ F.flat.blocks := by simp [hblocks]
    have hlines : ∀ line ∈ blk.lines, line ∈ F.flat.lines := fun line hline =>
      mem_flatMap.2 ⟨blk, hmem, hline⟩
    have hlabel : Ends allowed (F.home.symbol blk.label) fun _ => True :=
      (hF.blocks hmem).bind fun _ _ => .pure trivial
    have hrest : F.flat.blocks = (before ++ [blk]) ++ bs := by simp [hblocks]
    refine hlabel.bind fun name _ => (linesCode_ends hF hlines annotate _).bind fun _ hhere =>
      (ih hrest).bind fun _ hlater => ?_
    obtain ⟨b, hhere, hb⟩ := hhere
    obtain ⟨b', hlater, hb'⟩ := hlater
    refine .pure ⟨b && b', .label name (hhere.append hlater), fun _ => ?_⟩
    cases bs with
    | nil => rw [hb ⟨rfl, F.exists_terminator hblocks⟩, Bool.false_and]
    | cons => rw [hb' (cons_ne_nil _ _), Bool.and_false]

end

/-- **The shape of emitted code**, from any of its blocks on. -/
theorem flows (F : Compiled) (hblocks : F.flat.blocks = before ++ bs) (hne : bs ≠ [])
    (hcode : F.home.blocksCode annotate bs = .ok code) :
    F.home.Flows F.flat (bs.flatMap fun b => b.lines.flatMap F.home.accesses) false code := by
  have hends := blocksCode_ends F.bounded_any hblocks annotate
  rw [hcode] at hends
  obtain ⟨b, hflows, hb⟩ := hends
  exact hb hne ▸ hflows

/-- All of it accesses what the lines are about, in their order. -/
theorem flows_all (F : Compiled) (hcode : F.home.blocksCode annotate F.flat.blocks = .ok code) :
    F.home.Flows F.flat (F.flat.lines.flatMap F.home.accesses) false code := by
  rw [Flat.lines, flatMap_assoc]
  refine F.flows (nil_append _).symm (fun hnil => ?_) hcode
  have hlines := F.typed.nonempty
  rw [Flat.lines, hnil] at hlines
  cases hlines

end Compiled

end SysY.Rv32
