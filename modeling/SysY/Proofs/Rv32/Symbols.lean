import SysY.Proofs.Countable
import SysY.Proofs.Lower.Mentions
import SysY.Proofs.Reports
import SysY.Proofs.Rv32.Flows
import SysY.Proofs.Rv32.Labels
import SysY.Proofs.Scan.Lossless

/-!
# Every symbol is defined

An instruction names a symbol where it jumps, calls a function or takes the
address of a global variable. In an emitted program each of them is the label of
a line (`Program.emitted_labels`), but for `main` in the entry point, which calls
it whether there is one or not. And no label is defined twice in a program that
is read from a text, as long as nothing in it is called `_start`: the name of the
entry point can be declared like any other.
-/

namespace SysY

open IR List

variable {sig : Signatures} {ps : List Part}

namespace Rv32

/-- The symbol that an instruction names. -/
def Instr.symbol? : Instr → Option String
  | la _ symbol | j symbol | beqz _ symbol | bnez _ symbol | call symbol => some symbol
  | _ => none

/-! ## Symbols of lines -/

section

variable {h : Home} {lines : List Line} {i : Instr} {s : String}

theorem symbol?_storeStack (r : Reg) (offset : Nat) : ∀ i ∈ storeStack r offset, i.symbol? = none :=
  forall_atStack (fun _ => rfl) rfl rfl rfl

theorem symbol?_moveStack (w : Int32) : ∀ i ∈ moveStack w, i.symbol? = none :=
  forall_moveStack (fun _ => rfl) rfl rfl

/-- **Where the symbols of lines come from**: they read a global variable, call a
function or lead to a block. -/
theorem Home.Writes.symbol (hi : h.Writes lines i) (hs : s ∈ i.symbol?) :
    IsRead lines (.global s) ∨ (∃ output args, .instr ⟨output, .call s args⟩ ∈ lines) ∨
      ∃ l, h.symbol l = .ok s := by
  cases hi with
  | global hname =>
    cases hs
    exact .inl hname
  | call hline =>
    cases hs
    exact .inr (.inl ⟨_, _, hline⟩)
  | branch hname hi =>
    obtain rfl | rfl | rfl := hi <;> cases hs <;> exact .inr (.inr ⟨_, hname⟩)
  | stack ho hi =>
    have hnone : i.symbol? = none := by
      rcases hi with hi | hi
      · exact forall_atStack (P := (·.symbol? = none)) (fun _ => rfl) rfl rfl rfl i hi
      · exact symbol?_storeStack _ _ i hi
    rw [hnone] at hs
    cases hs
  | address ht hi =>
    rw [forall_stackAddress (P := (·.symbol? = none)) (fun _ => rfl) rfl rfl i hi] at hs
    cases hs
  | leave hi =>
    rw [symbol?_moveStack _ i hi] at hs
    cases hs
  | const | mv | alu | negate | scale | seqz | snez | load | store | ret => cases hs

end

/-! ## Symbols of functions -/

variable {known : String → Prop} {f : IR.Function} {o : Options} {lines : List AsmLine}

/-- What a line mentions is known. -/
structure LineAmong (known : String → Prop) (line : Line) : Prop where
  operands : ∀ v ∈ line.operands, v.Among known
  callee : ∀ ⦃output callee args⦄, line = .instr ⟨output, .call callee args⟩ → known callee

theorem lineAmong_instr {i : IR.Instr} (hi : i.op.Among known) : LineAmong known (.instr i) := by
  constructor
  · intro v hv
    refine hi.operands v ?_
    unfold Line.operands at hv
    split at hv
    next => cases hv
    next heq =>
      cases heq
      exact hv
    next heq => cases heq
  · rintro output callee args ⟨⟩
    exact hi.callee callee rfl

/-- The lines of a function mention what its blocks mention. A copy is of a value
of a phi. -/
theorem among_lines (h : f.Typed sig ps) (hblocks : ∀ b ∈ f.blocks, IR.Among known b.code)
    {p : Part} (hp : p ∈ ps) : ∀ line ∈ p.lines, LineAmong known line := by
  have hcode : ∀ q ∈ ps, IR.Among known q.code := by
    intro q hq
    obtain ⟨b, hb, heq⟩ := Option.map_eq_some_iff.1 (h.code q hq)
    exact heq ▸ hblocks b (mem_of_getElem? hb)
  have hinstr : ∀ i ∈ p.code, LineAmong known (.instr i) :=
    fun i hi => lineAmong_instr (hcode p hp i hi)
  have hcopy : ∀ line ∈ p.copyLines, LineAmong known line := by
    intro line hline
    obtain ⟨⟨t, v⟩, hc, rfl⟩ := mem_map.1 hline
    obtain ⟨q, hq, φ, hφ, -, hv⟩ := h.exists_phi hp (Option.mem_toList.1 hc)
    have hphi : φ.instr.op.Among known := hcode q hq _ (by simp [Part.code, Part.init, hφ])
    refine ⟨fun w hw => ?_, fun _ _ _ heq => by cases heq⟩
    cases mem_singleton.1 hw
    rcases hv with ⟨-, rfl⟩ | ⟨-, rfl⟩
    · exact hphi.operands _ mem_cons_self
    · exact hphi.operands _ (mem_cons_of_mem _ mem_cons_self)
  intro line hline
  rw [Part.lines, mem_append, mem_append] at hline
  obtain (hline | hline) | hline := hline
  · obtain ⟨i, hi, rfl⟩ := mem_map.1 hline
    exact hinstr i (mem_append_left _ hi)
  · exact hcopy line hline
  · cases mem_singleton.1 hline
    exact hinstr _ (mem_append_right _ (mem_singleton_self _))

/-- **The symbols of a function** are known to it, or those of its blocks. -/
theorem symbols_emitFunction (h : (emitFunction o f).result = .ok lines) (htyped : f.Typed sig ps)
    (hblocks : ∀ b ∈ f.blocks, IR.Among known b.code) :
    ∀ i, .instr i ∈ lines → ∀ s ∈ i.symbol?, known s ∨ s ∈ blockSymbols f := by
  obtain ⟨F, -, hflatten, rfl, -, prologue, body, hprologue, hbody, rfl⟩ := exists_compiled htyped h
  have hflat := Except.ok.inj (hflatten.symm.trans htyped.flatten)
  have hamong : ∀ line ∈ F.flat.lines, LineAmong known line := by
    intro line hline
    rw [hflat] at hline
    obtain ⟨b, hb, hline⟩ := mem_flatMap.1 hline
    obtain ⟨p, hp, rfl⟩ := mem_map.1 hb
    exact among_lines htyped hblocks hp line hline
  intro i hi s hs
  simp only [mem_append, mem_cons, not_mem_nil, or_false, reduceCtorEq, false_or,
    mem_map, AsmLine.instr.injEq, exists_eq_right] at hi
  rcases hi with hi | hi
  · rw [forall_prologue (P := (·.symbol? = none)) hprologue symbol?_moveStack
      (fun _ _ => symbol?_storeStack _ _) i hi] at hs
    cases hs
  obtain ⟨line, hline, hglobal⟩ | ⟨output, args, hcall⟩ | ⟨l, hl⟩ :=
    ((F.flows_all hbody).instr hi).1.symbol hs
  · exact .inl ((hamong line hline).operands _ hglobal s rfl)
  · exact .inl ((hamong _ hcall).callee rfl)
  · obtain ⟨b, hb, rfl⟩ := Home.symbol_ok hl
    exact .inr (mem_blockSymbols.2 ⟨l, b, hb, rfl⟩)

/-! ## Symbols of modules -/

theorem symbols_emitFunctions {fs : List IR.Function} {code : List AsmLine}
    (h : (emitFunctions o fs).result = .ok code) (htyped : ∀ f ∈ fs, ∃ sig ps, f.Typed sig ps)
    (hblocks : ∀ f ∈ fs, ∀ b ∈ f.blocks, IR.Among known b.code) :
    ∀ i, .instr i ∈ code → ∀ s ∈ i.symbol?, known s ∨ s ∈ fs.flatMap blockSymbols := by
  induction fs generalizing code with
  | nil =>
    cases h
    exact fun i hi => absurd hi not_mem_nil
  | cons f fs ih =>
    obtain ⟨lines, rest, hlines, hrest, rfl⟩ := emitFunctions_cons h
    obtain ⟨⟨sig, ps, hps⟩, htyped⟩ := forall_mem_cons.1 htyped
    obtain ⟨hf, hblocks⟩ := forall_mem_cons.1 hblocks
    intro i hi s hs
    rcases mem_append.1 hi with hi | hi
    · exact (symbols_emitFunction hlines hps hf i hi s hs).imp_right (mem_append_left _)
    · exact (ih hrest htyped hblocks i hi s hs).imp_right (mem_append_right _)

/-- Data has no instructions. -/
theorem instr_not_mem_dataSection (gs : List Global) (i : Instr) : .instr i ∉ dataSection gs := by
  unfold dataSection
  split <;> simp

end Rv32

/-! ## Programs that are read from a text -/

variable {p : Program} {name : String}

/-- The names that a program declares are spelled in it. -/
theorem Program.ident_mem_spell (h : name ∈ p.names) : .ident name ∈ p.spell := by
  obtain ⟨u, hu, hname⟩ := mem_flatMap.1 h
  refine mem_flatMap.2 ⟨u, hu, ?_⟩
  cases u with
  | decl d =>
    obtain ⟨e, he, rfl⟩ := mem_map.1 hname
    exact Decl.subset_spell he mem_cons_self
  | function f =>
    cases mem_singleton.1 hname
    exact mem_cons_of_mem _ mem_cons_self

variable {text : String}

/-- The names in a text do not begin with a dot. -/
theorem Program.head_name_of_ofText (h : Program.ofText text = .ok p) (hname : name ∈ p.names) :
    name.toList.head? ≠ some '.' := by
  obtain ⟨tokens, htokens, hparse⟩ := Program.ofText_ok h
  have hident := Program.ident_mem_spell hname
  rw [Program.spelled_of_parse hparse] at hident
  obtain ⟨t, ht, hvalue⟩ := mem_map.1 hident
  have hlaid : Laid Position.origin text.toList tokens :=
    Scan.laid_of_scanFrom (Scan.map_ok_of_tokens htokens)
  obtain ⟨_, _, -, hlexeme, -⟩ := hlaid.exists_of_mem ht
  rw [hvalue] at hlexeme
  intro hdot
  obtain ⟨c, cs, hchars, hfirst, -⟩ := exists_of_headed hlexeme.1
  rw [hchars] at hdot
  cases hdot
  exact absurd hfirst (by decide)

/-- **The labels of an emitted program.** They are that of the entry point, if it
is asked for, the names that the program declares and the symbols of the blocks.
Every symbol that an instruction outside of the entry point names is one of them.
And of an accepted program that is read from a text no label is defined twice,
unless it declares the name of the entry point. -/
theorem Program.emitted_labels {p : Program} {m : Module} {o : Rv32.Options}
    {lines : List Rv32.AsmLine} (hlower : p.lower.result = .ok m)
    (hlines : (Rv32.emit o m).result = .ok lines) :
    (Rv32.labels lines).Perm
      (Rv32.stubLabels o ++ p.names ++ m.functions.flatMap Rv32.blockSymbols) ∧
    (∃ before after, lines = before ++ (if o.startStub then Rv32.startStub else []) ++ after ∧
      ∀ i, .instr i ∈ before ++ after → ∀ s ∈ i.symbol?, s ∈ Rv32.labels lines) ∧
    ∀ text, Program.ofText text = .ok p → p.accepted = true →
      ((Rv32.labels lines).Nodup ↔ (o.startStub = true → "_start" ∉ p.names)) := by
  have htyped : ∀ f ∈ m.functions, ∃ sig ps, f.Typed sig ps := by
    intro f hf
    obtain ⟨own, ps, hps⟩ := Program.lower_typed hlower hf
    exact ⟨_, ps, hps⟩
  have hnames := Lower.lowerUnits_names_perm hlower
  have hlabels := Rv32.labels_emit hlines htyped
  have hperm : (Rv32.labels lines).Perm
      (Rv32.stubLabels o ++ p.names ++ m.functions.flatMap Rv32.blockSymbols) :=
    hlabels.trans ((hnames.append_left _).append_right _)
  refine ⟨hperm, ?_, fun text htext haccepted => ?_⟩
  · obtain ⟨code, hcode, rfl⟩ := except_map_ok.1 hlines
    refine ⟨Rv32.dataSection m.globals ++ [.code], code, rfl, fun i hi s hs => ?_⟩
    have hi : .instr i ∈ code := by
      simpa [Rv32.instr_not_mem_dataSection] using hi
    have hdefined :=
      Rv32.symbols_emitFunctions hcode htyped (Program.lower_mentions hlower) i hi s hs
    rw [hperm.mem_iff, List.mem_append, List.mem_append]
    exact hdefined.imp_left .inr
  · rw [Rv32.labels_nodup_iff hlines htyped (Lower.lowerUnits_named hlower)
      (hnames.nodup_iff.2 (Program.nodup_names haccepted))
      fun name hname => Program.head_name_of_ofText htext (hnames.mem_iff.1 hname), hnames.mem_iff]
    exact Iff.rfl

/-- What holds of the lines that a text is emitted as, by evaluation. -/
theorem Program.exists_emitted {o : Rv32.Options}
    {P : Program → List Rv32.AsmLine → Bool}
    (h : ((Program.ofText text).toOption.any fun p => p.lower.result.toOption.any fun m =>
      (Rv32.emit o m).result.toOption.any (P p)) = true) :
    ∃ p m lines, Program.ofText text = .ok p ∧ p.lower.result = .ok m ∧
      (Rv32.emit o m).result = .ok lines ∧ P p lines = true := by
  obtain ⟨p, htext, h⟩ := exists_ok_of_any h
  obtain ⟨m, hlower, h⟩ := exists_ok_of_any h
  obtain ⟨lines, hlines, h⟩ := exists_ok_of_any h
  exact ⟨p, m, lines, htext, hlower, hlines, h⟩

/-- The symbols of the blocks of `f` begin like those of `f_if`. There is no `main`
for the entry point to call. -/
theorem Program.emitted_labels_underscores :
    ∃ p m lines, Program.ofText
        "int g;\nvoid f_if() \x7b g = 1; return; \x7d\nvoid f() \x7b if (1) f_if(); \x7d" = .ok p ∧
      p.lower.result = .ok m ∧ (Rv32.emit {} m).result = .ok lines ∧ p.accepted = true ∧
      Rv32.labels lines = ["g", "_start", "f_if", ".Lf_if_entry0", ".Lf_if_dead1", "f", ".Lf_entry0",
        ".Lf_if_true2", ".Lf_if_false3", ".Lf_if_end1"] ∧
      (∃ before after, lines = before ++ Rv32.startStub ++ after ∧
        ∀ i, .instr i ∈ before ++ after → ∀ s ∈ i.symbol?, s ∈ Rv32.labels lines) ∧
      (Rv32.labels lines).Nodup := by
  obtain ⟨p, m, lines, htext, hlower, hlines, hcomputed⟩ : ∃ p m lines, Program.ofText
        "int g;\nvoid f_if() \x7b g = 1; return; \x7d\nvoid f() \x7b if (1) f_if(); \x7d" = .ok p ∧
      p.lower.result = .ok m ∧ (Rv32.emit {} m).result = .ok lines ∧
      decide (p.accepted = true ∧ "_start" ∉ p.names ∧ Rv32.labels lines = ["g", "_start", "f_if",
        ".Lf_if_entry0", ".Lf_if_dead1", "f", ".Lf_entry0", ".Lf_if_true2", ".Lf_if_false3",
        ".Lf_if_end1"]) = true :=
    Program.exists_emitted (by decide +kernel)
  obtain ⟨haccepted, hstart, hlabels⟩ := of_decide_eq_true hcomputed
  obtain ⟨-, hdefined, hnodup⟩ := Program.emitted_labels hlower hlines
  exact ⟨p, m, lines, htext, hlower, hlines, haccepted, hlabels, hdefined,
    (hnodup _ htext haccepted).2 fun _ => hstart⟩

/-- A program may declare `_start`, and then the label is there twice. -/
theorem Program.entry_label_twice :
    ∃ p m lines, Program.ofText
        "int _start() \x7b return 0; \x7d\nint main() \x7b return _start(); \x7d" = .ok p ∧
      p.lower.result = .ok m ∧ (Rv32.emit {} m).result = .ok lines ∧ p.accepted = true ∧
      Rv32.labels lines = ["_start", "_start", ".L_start_entry0", ".L_start_dead1", "main",
        ".Lmain_entry0", ".Lmain_dead1"] ∧ ¬ (Rv32.labels lines).Nodup := by
  obtain ⟨p, m, lines, htext, hlower, hlines, hcomputed⟩ : ∃ p m lines, Program.ofText
        "int _start() \x7b return 0; \x7d\nint main() \x7b return _start(); \x7d" = .ok p ∧
      p.lower.result = .ok m ∧ (Rv32.emit {} m).result = .ok lines ∧
      decide (p.accepted = true ∧ Rv32.labels lines = ["_start", "_start", ".L_start_entry0",
        ".L_start_dead1", "main", ".Lmain_entry0", ".Lmain_dead1"] ∧
        ¬ (Rv32.labels lines).Nodup) = true :=
    Program.exists_emitted (by decide +kernel)
  exact ⟨p, m, lines, htext, hlower, hlines, of_decide_eq_true hcomputed⟩

end SysY
