import SysY.Proofs.Lower.Program
import SysY.Proofs.Static.Lines
import SysY.Proofs.Static.Stmt

/-!
# Lowered functions are typed

The walk through the code of a function is cut into parts, one for each block,
and the promises of the walk become those of the parts. So every function of a
lowered module is typed.

If the program has been accepted, then also the arguments of calls fit: which
parameters of a function are arrays is read off the program
(`Program.arrayParams`).
-/

namespace SysY

open List

variable {ps : List IR.Part} {m : IR.Module} {ds : List Definition}

namespace Lower

open IR (Value Op Instr Line Label Temp Kind Known Signatures Step Straight Phi Part Parts)

/-! ## Parts of a walk -/

def Part.items (p : Part) : Code := .label p.label :: straight p.code

/-- The block of a part as one that can be jumped to. -/
def Part.target (p : Part) : Target := ⟨p.label, p.entry, p.phi.map (·.output)⟩

def Part.exit (p : Part) : Exit := ⟨p.label, p.known, p.copy, p.last⟩

variable {sig : Signatures} {l l' : Label} {S S' : Known} {n n' : Nat} {c : Code} {ks : List Cut}
  {op : Op} {f : IR.Function} {d : FunctionDef} {functions : Frame Signature} {us : List TopLevel}

/-- **A walk is cut into parts.** The walk begins inside of a block of which the
phi and the instructions `pre` have been seen. -/
theorem exists_parts (h : Walk sig l S n c ks l' S' n') (hop : op.Ends S')
    (φ : Option Phi) {entry : Known} (n0 : Nat) (pre : List Instr)
    (hφ : ∀ ψ, φ = some ψ → ψ.output = n0 ∧ ψ.fromA ≠ ψ.fromB ∧ entry.kinds n0 = some .data)
    (hbelow : entry.Below (n0 + φ.toList.length))
    (hpre : Straight sig entry (n0 + φ.toList.length) pre S n) :
    ∃ p ps, p.phi = φ ∧ Part.target p = ⟨l, entry, φ.map (·.output)⟩ ∧
      .label l :: straight (φ.toList.map (·.instr) ++ pre) ++ c ++ perform op
        = (p :: ps).flatMap Part.items ∧
      Parts sig n0 (p :: ps) n' ∧
      (p :: ps).map Part.exit = ks.map (·.toExit) ++ [⟨l', S', none, op⟩] ∧
      ps.map Part.target = ks.map (·.target) ∧ ∀ q ∈ ps, q.entry.args = false := by
  induction h generalizing φ entry n0 pre with
  | @nil l S n =>
    refine ⟨⟨l, φ, entry, pre, S, none, op⟩, [], rfl, rfl, ?_, .last ?_, rfl, rfl,
      fun _ h => absurd h not_mem_nil⟩
    · simp [Part.items, IR.Part.code, IR.Part.init, straight, perform]
    · exact ⟨hφ, hbelow, hpre, by simp, hop⟩
  | @define l S n op' S1 c ks l' S' n' hstep _ ih =>
    obtain ⟨p, ps, hphi, htarget, hcode, hrest⟩ :=
      ih hop φ n0 _ hφ hbelow (hpre.append (.result hstep))
    refine ⟨p, ps, hphi, htarget, ?_, hrest⟩
    rw [← hcode]
    simp [straight]
  | @perform l S n op' S1 c ks l' S' n' hstep _ ih =>
    obtain ⟨p, ps, hphi, htarget, hcode, hrest⟩ :=
      ih hop φ n0 _ hφ hbelow (hpre.append (.effect hstep))
    refine ⟨p, ps, hphi, htarget, ?_, hrest⟩
    rw [← hcode]
    simp [straight]
  | @cut l S n op' copy next entry' c ks l' S' n' hends hcopy hbelow' hargs _ ih =>
    obtain ⟨q, qs, hphi, htarget, hcode, hparts, hexits, htargets, hquiet⟩ :=
      ih hop none n [] (by simp) hbelow' .nil
    have hp : IR.Part.Permitted sig n0 ⟨l, φ, entry, pre, S, copy, op'⟩ n :=
      ⟨hφ, hbelow, hpre, hcopy, hends⟩
    refine ⟨_, q :: qs, rfl, rfl, ?_, .cons hp (by simp [hphi]) hparts, ?_, ?_, ?_⟩
    · rw [flatMap_cons, ← hcode]
      simp [Part.items, IR.Part.code, IR.Part.init, straight, perform]
    · rw [map_cons, hexits]
      rfl
    · rw [map_cons, htargets, htarget]
      rfl
    · exact forall_mem_cons.2 ⟨(congrArg (·.entry.args) htarget).trans hargs, hquiet⟩
  | @join l S n op' v next a la b lb c ks l' S' n' entry' hends hv hne hbelow' hargs _ ih =>
    obtain ⟨q, qs, hphi, htarget, hcode, hparts, hexits, htargets, hquiet⟩ :=
      ih hop (some ⟨n, a, la, b, lb⟩) n []
        (by rintro _ ⟨⟩; exact ⟨rfl, hne, Known.kinds_add_self _ _ _⟩) (hbelow'.add _) .nil
    have hp : IR.Part.Permitted sig n0 ⟨l, φ, entry, pre, S, some (n, v), op'⟩ n := by
      refine ⟨hφ, hbelow, hpre, ?_, hends⟩
      rintro _ _ ⟨⟩
      exact ⟨hv, Nat.le_refl n⟩
    refine ⟨_, q :: qs, rfl, rfl, ?_, .cons hp (by simp [hphi]) hparts, ?_, ?_, ?_⟩
    · rw [flatMap_cons, ← hcode]
      simp [Part.items, IR.Part.code, IR.Part.init, Phi.instr, straight, perform]
    · rw [map_cons, hexits]
      rfl
    · rw [map_cons, htargets, htarget]
      rfl
    · exact forall_mem_cons.2 ⟨(congrArg (·.entry.args) htarget).trans hargs, hquiet⟩

/-! ## Functions -/

theorem layout_items (ps : List Part) : Code.layout (ps.flatMap Part.items) = ps.map (·.label) := by
  induction ps with
  | nil => rfl
  | cons p ps ih =>
    rw [flatMap_cons, Code.layout_append, Part.items, Code.layout_label, Code.layout_straight, ih]
    rfl

theorem head_items (ps : List Part) : Code.head (ps.flatMap Part.items) = [] := by
  cases ps <;> rfl

theorem phiCopies_items (ps : List Part) :
    phiCopies (ps.flatMap Part.items) = IR.phiCopies ps := by
  induction ps with
  | nil => rfl
  | cons p ps ih =>
    have hitems : phiCopies (Part.items p) = p.code.flatMap (·.copies) := by
      rw [Part.items, phiCopies_label, phiCopies, straight, flatMap_map]
    rw [flatMap_cons, phiCopies_append, hitems, ih]
    rfl

theorem cutCopies_exits (h : ps.map Part.exit = ks.map (·.toExit) ++ [⟨l, S, none, op⟩]) :
    IR.partCopies ps = cutCopies ks := by
  have hcopies := congrArg (fun es => es.flatMap Exit.copies) h
  simp only [flatMap_map, flatMap_append] at hcopies
  have hpart : ∀ p : Part, p.copyLines.map (p.label, ·) = (Part.exit p).copies := by
    intro p
    unfold IR.Part.copyLines Part.exit Exit.copies
    rw [map_map]
    rfl
  rw [IR.partCopies, cutCopies]
  simp only [hpart, hcopies]
  exact append_nil _

/-- The blocks of a function are parts of its code. -/
theorem code?_of_parts (hC : Placed f (ps.flatMap Part.items)) {p : Part} (hp : p ∈ ps) :
    f.code? p.label = some p.code := by
  obtain ⟨pre, post, rfl⟩ := append_of_mem hp
  have hsuffix : .label p.label :: (straight p.code ++ post.flatMap Part.items)
      <:+ (pre ++ p :: post).flatMap Part.items := by
    refine ⟨pre.flatMap Part.items, ?_⟩
    simp [Part.items]
  rw [hC.code_eq hsuffix, Code.head_straight, head_items, append_nil]

/-- **A function is typed if the walk through its code is in order.** -/
theorem typed_of_walk (hwalk : Walk sig 0 .start 0 c ks l' S' f.temps)
    (hres : Resolved [] ks) (hperm : (phiCopies c).Perm (cutCopies ks)) (hop : op.Ends S')
    (hleaves : op.successors = []) (hC : Placed f ([.label 0] ++ (c ++ perform op)))
    (hlayout : f.layout = Code.layout ([.label 0] ++ (c ++ perform op)))
    (hall : f.layout.Perm (List.range f.blocks.length)) : ∃ ps, f.Typed sig ps := by
  obtain ⟨p, ps, hphi, htarget, hcode, hparts, hexits, htargets, hquiet⟩ :=
    exists_parts hwalk hop none 0 [] nofun (Known.below_start _) .nil
  have hitems : [.label 0] ++ (c ++ perform op) = (p :: ps).flatMap Part.items := hcode
  rw [hitems] at hC hlayout
  rw [layout_items] at hlayout
  refine ⟨p :: ps, hlayout, hall, fun q hq => code?_of_parts hC hq, hparts, ?_, ?_, ?_, ?_⟩
  · intro q hq l hl
    have hexit : Part.exit q ∈ ks.map (·.toExit) ++ [⟨l', S', none, op⟩] :=
      hexits ▸ mem_map_of_mem hq
    rcases mem_append.1 hexit with hcut | hlast
    · obtain ⟨k, hk, hkq⟩ := mem_map.1 hcut
      have hlk : l ∈ k.op.successors := by
        rw [congrArg Exit.op hkq]
        exact hl
      obtain ⟨T, hT, rfl, haccepts⟩ := hres.jumps k hk l hlk
      rw [append_nil, ← htargets] at hT
      obtain ⟨r, hr, rfl⟩ := mem_map.1 hT
      refine ⟨r, mem_cons_of_mem _ hr, rfl, hquiet r hr, ?_⟩
      rw [hkq] at haccepts
      unfold Exit.Accepts Part.target at haccepts
      cases hφ : r.phi with
      | none => simpa only [hφ, Option.map_none, Part.exit] using haccepts
      | some φ => simpa only [hφ, Option.map_some, Part.exit] using haccepts
    · rw [show q.last = op from congrArg Exit.op (mem_singleton.1 hlast), hleaves] at hl
      cases hl
  · have hasked : phiCopies c = IR.phiCopies (p :: ps) := by
      rw [← phiCopies_items, ← hitems]
      simp
    rw [← hasked, cutCopies_exits hexits]
    exact hperm
  · intro q hq t v hcopy
    have hexit : Part.exit q ∈ ks.map (·.toExit) ++ [⟨l', S', none, op⟩] :=
      hexits ▸ mem_map_of_mem hq
    rcases mem_append.1 hexit with hcut | hlast
    · obtain ⟨k, hk, hkq⟩ := mem_map.1 hcut
      obtain ⟨T, hT, hphi, hleads⟩ := hres.copies k hk t v ((congrArg Exit.copy hkq).trans hcopy)
      rw [← htargets] at hT
      obtain ⟨r, hr, rfl⟩ := mem_map.1 hT
      obtain ⟨φ, hφ, rfl⟩ := Option.map_eq_some_iff.1 hphi
      rw [congrArg Exit.op hkq] at hleads
      exact ⟨r, mem_cons_of_mem _ hr, φ, hφ, rfl, hleads⟩
    · cases hcopy.symm.trans (congrArg Exit.copy (mem_singleton.1 hlast))
  · exact ⟨p, rfl, congrArg Target.label htarget, congrArg Target.entry htarget, hphi⟩

/-- Every block of a function is laid out. -/
theorem lowerFunction_layout {symbols : Symbols} (h : lowerFunction symbols functions d = .ok f) :
    f.layout.Perm (List.range f.blocks.length) := by
  obtain ⟨code, σ', hcode, rfl⟩ := lowerFunction_ok h
  simpa [Code.blocks] using functionCode_layout_perm hcode

/-- **Lowered functions are typed.** -/
theorem lowerFunction_typed {wants : String → List Bool} {env : TyEnv} {symbols : Symbols}
    (h : lowerFunction symbols functions d = .ok f) (hS : Covers .start symbols)
    (hc : Checked wants env symbols ((TyEnv.judgeAll Parameter.judge env.enter d.params).2 ++
      d.body.findings d.returns.type (TyEnv.judgeAll Parameter.judge env.enter d.params).1.enter)) :
    ∃ ps, f.Typed ⟨d.params.map (·.array.isSome), wants⟩ ps := by
  obtain ⟨is, inner, σ1, body, σ', hparams, hbody, hC, hlayout, -, htemps⟩ :=
    placed_of_lowerFunction h
  have hext := lowerParameters_extends hparams
  have hσ1 : σ1.names.size > σ1.current := by
    rw [hext.names, hext.current]
    exact Nat.one_pos
  have hparamsGrow := lowerParameters_grows ⟨d.params.map (·.array.isSome), wants⟩ hparams hS.enter
    (Known.below_start _) rfl (fun j p hp => by simp [hp]) (hc.imp fun hj hnil => ⟨hj.enter, hnil⟩)
  obtain ⟨S1, hg, hS1, hc1⟩ := hparamsGrow
  have hbodyWalks : StmtWalks ⟨d.params.map (·.array.isSome), wants⟩ [] S1 σ1 body σ' :=
    lowerBlock_walks d.body hbody ⟨hσ1, hS1.enter, hg.below, fun _ hl => nomatch hl⟩ hc1.enter
  obtain ⟨S', ts, ⟨ks, hwalk, hres, hperm, -⟩, -⟩ := hbodyWalks
  have hcurrent : σ1.current = 0 := hext.current
  rw [hcurrent] at hwalk
  have hall := (Walk.straight hg.code 0).append hwalk
  rw [nil_append, ← htemps] at hall
  rw [← append_assoc (straight is)] at hC hlayout
  refine typed_of_walk hall hres ?_ ?_ ?_ hC hlayout (lowerFunction_layout h)
  · rw [phiCopies_append, phiCopies_straight hg.code]
    exact hperm
  · cases d.returns <;> trivial
  · cases d.returns <;> rfl

/-! ## Programs -/

theorem isArray_parameter (p : Parameter) : p.type.isArray = p.array.isSome := by
  unfold Parameter.type
  cases p.array <;> rfl

/-- A global variable is known everywhere. -/
theorem globalSymbol_known (S : Known) (constant : Bool) (name : String) (dims : List Nat)
    (init : List Int32) : SymbolKnown S (globalSymbol constant name dims init) ∧
      Suits (globalSymbol constant name dims init) (.arrayOf .int dims.length) := by
  unfold globalSymbol
  split
  next hnil => exact ⟨trivial, by rw [isEmpty_iff.1 hnil]; rfl⟩
  next => exact ⟨trivial, rfl⟩

variable {wants : String → List Bool} {env : TyEnv} {symbols : Symbols} {fs : List Finding}

theorem judgeAll_definition_frame (hone : ∃ frame, env = [frame]) :
    ∃ frame, (TyEnv.judgeAll Definition.judge env ds).1 = [frame] := by
  induction ds generalizing env with
  | nil => exact hone
  | cons d ds ih => exact ih (TyEnv.declares_frame hone)

/-- Global variables are judged as they are lowered. -/
theorem lowerGlobals_checked {constant : Bool} {gs : List IR.Global} {inner : Symbols}
    (h : lowerGlobals constant symbols ds = .ok (gs, inner)) (hS : Covers .start symbols)
    (hc : Checked wants env symbols ((TyEnv.judgeAll Definition.judge env ds).2 ++ fs)) :
    Covers .start inner ∧ Checked wants (TyEnv.judgeAll Definition.judge env ds).1 inner fs := by
  induction ds generalizing symbols env gs with
  | nil =>
    cases h
    exact ⟨hS, hc⟩
  | cons d ds ih =>
    obtain ⟨dims, init, rest, hdims, -, -, hrest, -⟩ := lowerGlobals_cons h
    have hsymbol := globalSymbol_known .start constant d.name.value dims init
    have htype : d.type = .arrayOf .int dims.length := by
      rw [evalDims_length hdims]
      rfl
    have hc' : Checked wants (d.judge env).1
        (symbols.bind d.name.value (globalSymbol constant d.name.value dims init))
        ((TyEnv.judgeAll Definition.judge (d.judge env).1 ds).2 ++ fs) := by
      refine hc.imp fun hj hnil => ?_
      have hnil' : (d.judge env).2 ++ ((TyEnv.judgeAll Definition.judge (d.judge env).1 ds).2 ++ fs)
          = [] := by
        rw [← append_assoc]
        exact hnil
      obtain ⟨hhere, hlater⟩ := append_eq_nil_iff.1 hnil'
      rw [(judge_definition hhere).1] at hlater ⊢
      exact ⟨hj.bind _ (htype ▸ hsymbol.2), hlater⟩
    exact ih hrest (hS.bind _ hsymbol.1) hc'

/-- What is said of the parameters of functions is what their definitions say,
if anything is. -/
def WantsMatch (wants : String → List Bool) (us : List TopLevel) : Prop :=
  (∀ name, wants name = []) ∨
    ∀ d, .function d ∈ us → wants d.name.value = d.params.map (·.array.isSome)

/-- A function is judged in a scope that has its name. -/
theorem Checked.function (hone : ∃ frame, env = [frame])
    (hc : Checked wants env symbols ((d.judge env).2 ++ fs))
    (hwants : WantsMatch wants (.function d :: us)) :
    (∃ env', Checked wants env' symbols ((TyEnv.judgeAll Parameter.judge env'.enter d.params).2 ++
      d.body.findings d.returns.type (TyEnv.judgeAll Parameter.judge env'.enter d.params).1.enter)) ∧
    Checked wants (d.judge env).1 symbols fs := by
  rcases hwants with hnone | hwants
  · exact ⟨⟨env, .inl hnone⟩, .inl hnone⟩
  · rcases hc with hnone | ⟨hj, hnil⟩
    · exact ⟨⟨env, .inl hnone⟩, .inl hnone⟩
    · obtain ⟨hhere, hlater⟩ := append_eq_nil_iff.1 hnil
      obtain ⟨hfree, henv, hinside⟩ := FunctionDef.judge_iff.1 (TyEnv.eq_of_nil hhere)
      have hkinds : wants d.name.value = (d.params.map (·.type)).map (·.isArray) := by
        rw [hwants d mem_cons_self, map_map]
        exact map_congr_left fun p _ => (isArray_parameter p).symm
      obtain ⟨frame, rfl⟩ := hone
      have hj' : Judged wants (d.judge [frame]).1 symbols := henv ▸ hj.declare hfree hkinds
      exact ⟨⟨_, .inr ⟨hj', hinside⟩⟩, .inr ⟨hj', hlater⟩⟩

/-- A function of a module is the typed function of a definition. -/
def Realised (wants : String → List Bool) (us : List TopLevel) (f : IR.Function) : Prop :=
  ∃ d ps, .function d ∈ us ∧ d.name.value = f.name ∧ d.params.length = f.params ∧
    f.Typed ⟨d.params.map (·.array.isSome), wants⟩ ps

theorem Realised.cons (h : Realised wants us f) (u : TopLevel) : Realised wants (u :: us) f := by
  obtain ⟨d, ps, hd, hrest⟩ := h
  exact ⟨d, ps, mem_cons_of_mem _ hd, hrest⟩

/-- **Every function of a lowered program is typed.** -/
theorem lowerUnits_typed (h : (lowerUnits symbols functions us).result = .ok m)
    (hS : Covers .start symbols) (hone : ∃ frame, env = [frame])
    (hc : Checked wants env symbols (TyEnv.judgeAll TopLevel.judge env us).2)
    (hwants : WantsMatch wants us) : ∀ f ∈ m.functions, Realised wants us f := by
  induction us generalizing symbols functions env m with
  | nil =>
    cases h
    exact fun f hf => absurd hf not_mem_nil
  | cons u us ih =>
    have hwants' : WantsMatch wants us :=
      hwants.imp_right fun h d hd => h d (mem_cons_of_mem _ hd)
    cases u with
    | decl d =>
      obtain ⟨gs, inner, rest, hgs, hrest, rfl⟩ := lowerUnits_decl h
      obtain ⟨hS', hc'⟩ := lowerGlobals_checked hgs hS hc
      exact fun f hf =>
        (ih hrest hS' (judgeAll_definition_frame hone) hc' hwants' f hf).cons _
    | function d =>
      obtain ⟨g, rest, hg, hrest, rfl⟩ := lowerUnits_function h
      obtain ⟨⟨env', hc1⟩, hc2⟩ := Checked.function hone hc hwants
      intro f hf
      rcases mem_cons.1 hf with rfl | hf
      · obtain ⟨ps, htyped⟩ := lowerFunction_typed hg hS hc1
        obtain ⟨_, _, -, rfl⟩ := lowerFunction_ok hg
        exact ⟨d, ps, mem_cons_self, rfl, rfl, htyped⟩
      · exact (ih hrest hS (TyEnv.declares_frame hone) hc2 hwants' f hf).cons _

end Lower

/-- **The functions of a lowered program are typed**, whether it is accepted or
not. -/
theorem Program.lower_typed {p : Program} (h : p.lower.result = .ok m) {f : IR.Function}
    (hf : f ∈ m.functions) : ∃ own ps, f.Typed ⟨own, fun _ => []⟩ ps := by
  have hone : ∃ frame : Frame Ty, ([[]] : TyEnv) = [frame] := ⟨[], rfl⟩
  obtain ⟨d, ps, -, -, -, htyped⟩ := Lower.lowerUnits_typed h (fun _ _ hs => by cases hs) hone
    (.inl fun _ => rfl) (.inl fun _ => rfl) f hf
  exact ⟨_, ps, htyped⟩

end SysY
