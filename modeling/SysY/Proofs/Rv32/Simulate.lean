import SysY.Proofs.Rv32.Convention
import SysY.Proofs.Rv32.Position

/-!
# Simulation

In a program in which every function is *installed*, the machine does what a
run of a flattened function does (`Activation.returns`): from a state that is
related to the run it comes to a `ret`, having restored everything, and what
the run leaves in memory and returns is there. The proof is by induction on
the run. A call needs the statement for the callee, whose activation has the
caller's frame above it, and as much stack as the run takes.
-/

namespace SysY

open IR List

variable {vs : List Value} {ys args : List Val} {output : Option Temp} {lines : List Rv32.AsmLine}
  {flat : Flat} {callee : String}

namespace Rv32

/-! ## Programs -/

/-- **A function is installed** in a program. -/
structure Installed (img : Image) (annotate : Bool) (wants : String → List Bool)
    (size : IR.Function → Nat) (f : IR.Function) (F : Compiled) : Prop where
  /-- Its lines are those of the function. -/
  flat : f.flatten = .ok F.flat
  /-- Its own parameters and those of others are what callers take them for. -/
  own : F.sig.own = wants f.name
  others : F.sig.wants = wants
  /-- Its frame has the size that is counted for it. -/
  size : F.home.frame.size = size f
  /-- Its code stands after its label. -/
  code : ∃ pc prologue code, F.home.prologue = .ok prologue ∧
    F.home.blocksCode annotate F.flat.blocks = .ok code ∧
    img.At pc (.label f.name :: (prologue.map .instr ++ code))

/-- **A program is linked**: every function of a module is installed. -/
structure Linked (img : Image) (m : Module) (annotate : Bool) (wants : String → List Bool)
    (size : IR.Function → Nat) : Prop where
  /-- No label stands twice. -/
  labels : (labels img.lines).Nodup
  /-- Code is found where it is. -/
  loaded : img.Loaded
  function : ∀ ⦃name f⦄, m.function? name = some f → ∃ F, Installed img annotate wants size f F

variable {img : Image} {m : Module} {annotate : Bool} {wants : String → List Bool}
  {size : IR.Function → Nat} {f : IR.Function} {F : Compiled}

theorem Installed.resident (h : Installed img annotate wants size f F) :
    Resident img F.home annotate F.flat := by
  obtain ⟨pc, prologue, code, -, hcode, hat⟩ := h.code
  exact ⟨_, code, hcode, hat.tail.append_right⟩

/-- The code of blocks begins with that of the first line. -/
theorem lands_zero {pc : Nat} {code : List AsmLine} (F : Compiled)
    (hcode : F.home.blocksCode annotate F.flat.blocks = .ok code) (hat : img.At pc code) :
    Lands img F.home annotate F.flat 0 pc := by
  have hnonempty := F.typed.nonempty
  cases hblocks : F.flat.blocks with
  | nil =>
    rw [Flat.lines, hblocks] at hnonempty
    cases hnonempty
  | cons b bs =>
    rw [hblocks] at hcode
    obtain ⟨symbol, here, later, -, hhere, hlater, rfl⟩ := blocksCode_cons hcode
    exact ⟨pc + 1, fun _ => reaches_label hat, [], b, bs, [], b.lines, here, later, hblocks, rfl, rfl,
      hhere, hlater, hat.tail⟩

namespace Activation

variable {A : Activation img m} {g : Ghost} {mem mem' final : Memory} {temps temps' : Temps}
  {c c' : Cpu} {n k pc : Nat} {r : Option Val} {line : Line}

/-- **The machine returns from an activation** with a result and a memory. -/
def Returns (A : Activation img m) (pc : Nat) (c : Cpu) (r : Option Val) (final : Memory) : Prop :=
  ∃ pc' c', img.Reaches ⟨pc, c⟩ ⟨pc', c'⟩ ∧ img.lines[pc']? = some (.instr .ret) ∧
    A.Returned r final c'

theorem Returns.of_reaches {s : State} (hreach : img.Reaches ⟨pc, c⟩ s)
    (h : A.Returns s.pc s.cpu r final) : A.Returns pc c r final := by
  obtain ⟨pc', c', hreach', hret⟩ := h
  exact ⟨pc', c', hreach.trans hreach', hret⟩

/-- **From the label of a function** the machine comes to its first line. -/
theorem enters (hlabels : (labels img.lines).Nodup) (hinst : Installed img annotate wants size f A.code)
    (hsp : A.entry.get .sp = Int32.ofNat (A.sp + A.code.home.frame.size))
    (hplaced : Placed A.loc A.ext) (hholds : Holds A.loc A.ext A.start A.entry.mem)
    (hpassed : A.Passed A.ghost A.start A.entry) (temps : Temps) :
    ∃ start pc c, img.label? f.name = some start ∧ img.Reaches ⟨start, A.entry⟩ ⟨pc, c⟩ ∧
      AtLine img A.code.home annotate A.code.flat 0 pc ∧ A.Related A.ghost 0 temps A.start c := by
  obtain ⟨start, prologue, code, hprologue, hcode, hat⟩ := hinst.code
  obtain ⟨c, hexec, hrelated⟩ := A.enter hsp hplaced hholds hpassed hprologue temps
  have hbody := hat.tail.append_right
  rw [length_map] at hbody
  obtain ⟨pc, hlands, hline⟩ := lands_zero A.code hcode hbody
  exact ⟨start, pc, c, label?_of_at hlabels hat,
    (reaches_label hat).trans ((reaches_of_execAll hat.tail hexec).trans (hlands c)), hline, hrelated⟩

/-! ## Calls -/

theorem exists_of_evalArgs {i : Nat} {y : Val} (h : evalArgs m args temps vs = some ys)
    (hy : ys[i]? = some y) : ∃ v, vs[i]? = some v ∧ v.eval m args temps = some y := by
  induction vs generalizing ys i with
  | nil =>
    cases h
    cases hy
  | cons v vs ih =>
    obtain ⟨y', hy', h⟩ := Option.bind_eq_some_iff.1 h
    obtain ⟨ys', hys, h⟩ := Option.bind_eq_some_iff.1 h
    cases h
    cases i with
    | zero =>
      cases hy
      exact ⟨v, rfl, hy'⟩
    | succ i => exact ih hys hy

/-- The objects of a caller are in place when it has passed its arguments. -/
theorem Laid.holds_of_mem (h : A.Laid g mem c) {words : Nat → Int32}
    (hmem : ∀ x, x < A.sp ∨ A.sp + A.code.home.frame.spills ≤ x → words x = c.mem x) :
    Holds g.loc (A.Live g) mem words := by
  intro o ho a ha v hv
  have hareas := A.code.frame.areas
  have hlow := A.low_le
  obtain ⟨h1, h2⟩ := ha.spans g.loc
  rw [hmem _ (by rcases h.region ho with ⟨-, -, haway⟩ | ⟨-, hin, -⟩ <;> omega)]
  exact h.holds ho ha v hv

section

variable (h : A.Standing g n temps mem c)

include h

/-- What a caller has passed is where the callee finds its arguments. -/
theorem Standing.passed_callee
    (heval : evalArgs m A.args temps vs = some ys) (hfit : ArgsFit F.sig.own (A.code.known n) vs)
    {ws : List Int32} (hws : List.Forall₂ (IsWord g.loc mem.length) ys ws) {entry : Cpu}
    (hwords : ∀ i w, ws[i]? = some w → argWord entry A.sp i = w)
    (hspills : 4 * (vs.length - 8) ≤ A.code.home.frame.spills)
    (hroom : A.low + F.home.frame.size ≤ A.sp) :
    (A.callee h.laid F ys entry hroom).Passed (A.callee h.laid F ys entry hroom).ghost mem entry := by
  intro i y hy
  obtain ⟨v, hv, hval⟩ := exists_of_evalArgs heval hy
  have htop : A.sp - F.home.frame.size + F.home.frame.size = A.sp := by omega
  refine ⟨fun hown p hp => ?_, ?_⟩
  · subst hp
    refine h.live (hfit.2 i v hown hv) ?_
    rw [Value.addr?, hval]
  · obtain ⟨w, hw, hisWord⟩ := forall₂_getElem? hws hy
    have hi := (List.getElem?_eq_some_iff.1 hv).1
    have hareas := A.code.frame.areas
    have hsize := A.top
    have hword : Home.Word img F.home (A.sp - F.home.frame.size) entry (.arg i)
        (argWord entry (A.sp - F.home.frame.size + F.home.frame.size) i) :=
      Home.Word.arg fun hge => by omega
    rw [htop, hwords i w hw] at hword
    exact ⟨w, hword, hisWord⟩

/-- **A call** passes its arguments, and comes back with what the callee
returns. -/
theorem Standing.call_reaches (hlinked : Linked img m annotate wants size)
    (hline : A.code.flat.lines[n]? = some (.instr ⟨output, .call callee vs⟩))
    (hfit : ArgsFit (wants callee) (A.code.known n) vs)
    (heval : evalArgs m A.args temps vs = some ys) (hf : m.function? callee = some f)
    (hflat : f.flatten = .ok flat) (hroom : A.low + (size f + k) ≤ A.sp)
    (hrun : ∀ (A' : Activation img m) {f' g' pc c}, Installed img annotate wants size f' A'.code →
      A'.code.flat = flat → A'.args = ys → A'.low + k ≤ A'.sp →
      AtLine img A'.code.home annotate A'.code.flat 0 pc →
      A'.Related g' 0 (fun _ => .int 0) mem c → A'.Returns pc c r mem') {code1 code2 : List Instr}
    (hcode1 : A.code.home.stackArgs 0 (vs.drop registerArgs) = .ok code1)
    (hcode2 : A.code.home.registerArgCode (vs.zip [0, 1, 2, 3, 4, 5, 6, 7]) = .ok code2)
    (hat : img.At pc ((code1 ++ code2).map .instr ++ .instr (.call callee) :: lines)) :
    ∃ c' loc, img.Reaches ⟨pc, c⟩ ⟨pc + (code1 ++ code2).length + 1, c'⟩ ∧
      A.Called g mem c loc mem' c' ∧
      ∀ v, r = some v → IsWord loc mem'.length v (c'.get returnReg) := by
  obtain ⟨F, hinst⟩ := hlinked.function hf
  obtain rfl : F.flat = flat := Except.ok.inj (hinst.flat.symm.trans hflat)
  have hname : f.name = callee := by simpa using find?_some hf
  have hspills : 4 * (vs.length - 8) ≤ A.code.home.frame.spills := by
    rw [A.code.frame.spills]
    exact le_outgoing (mem_of_getElem? hline)
  obtain ⟨ws, hwords, hisWords⟩ := h.words hfit.1 (fun v hv => touched hline hv) heval
  have hvs : ∀ v ∈ vs, ∀ i, v ≠ .arg i := by
    rintro _ hv i rfl
    exact hfit.1 _ hv
  obtain ⟨c1, hexec, hsp, hsaved, hmem, hargs⟩ :=
    Home.pass_exec A.stands h.kept.stack hwords hvs hspills hcode1 hcode2
  have hsize : A.low + F.home.frame.size ≤ A.sp := by
    rw [hinst.size]
    omega
  -- the callee starts with the address of the line after the call
  let back := pc + (code1 ++ code2).length + 1
  let entry := c1.set .ra (img.code back)
  have hspEntry : entry.get .sp = Int32.ofNat A.sp :=
    (Cpu.get_set_of_ne (by decide)).trans (hsp.trans h.kept.stack)
  have hargsEntry : ∀ i w, ws[i]? = some w → argWord entry A.sp i = w := by
    intro i w hw
    rw [← hargs i w hw]
    unfold argWord
    split
    · exact Cpu.get_set_of_ne nofun
    · rfl
  let A' := A.callee h.laid F ys entry hsize
  have htop : A'.sp + A'.code.home.frame.size = A.sp := by
    show A.sp - F.home.frame.size + F.home.frame.size = A.sp
    omega
  have hfit' : ArgsFit F.sig.own (A.code.known n) vs := by
    rw [hinst.own, hname]
    exact hfit
  obtain ⟨start, pc1, c2, hlabel, henter, hat1, hrelated⟩ := enters (A := A') hlinked.labels hinst
    (by rw [htop]; exact hspEntry) h.laid.placed (h.laid.holds_of_mem fun x hx => hmem x hx)
    (h.passed_callee heval hfit' hisWords hargsEntry hspills hsize) (fun _ => .int 0)
  obtain ⟨pc2, c3, hreturn, hret, hreturned⟩ := hrun A' hinst rfl rfl
    (by show A.low + k ≤ A.sp - F.home.frame.size; rw [hinst.size]; omega) hat1 hrelated
  obtain ⟨loc, hcalled, hresult⟩ := hreturned.called h.laid h.kept.stack
    (fun i => (Cpu.get_set_of_ne (q := .s i) (r := .ra) nofun).trans (hsaved i)) fun x hx => hmem x hx
  refine ⟨c3, loc, ?_, hcalled, hresult⟩
  have hjump : img.step ⟨pc + (code1 ++ code2).length, c1⟩ = some ⟨start, entry⟩ := by
    have hcall := hat.append_right
    rw [length_map] at hcall
    rw [step_instr hcall, Image.perform, Image.goto, ← hname, hlabel]
    rfl
  have hback : img.step ⟨pc2, c3⟩ = some ⟨back, c3⟩ := by
    have hle := hat.le_length
    have haddress : c3.get .ra = img.code back :=
      hreturned.address.trans (Cpu.get_set_self (by decide))
    have hloaded : img.line? (img.code back) = some back := by
      refine hlinked.loaded back ?_
      simp only [length_append, length_map, length_cons] at hle
      simp only [back, length_append]
      omega
    unfold Image.step
    rw [show img.lines[(⟨pc2, c3⟩ : State).pc]? = _ from hret]
    simp [Image.perform, haddress, hloaded]
  exact (reaches_of_execAll hat hexec).trans
    (.head hjump (henter.trans (hreturn.trans (.single hback))))

/-- The result of a call is put into its place. -/
theorem Standing.receive (hline : A.code.flat.lines[n]? = some (.instr ⟨output, .call callee vs⟩))
    (hstep : Step A.code.sig (A.code.known n) ⟨output, .call callee vs⟩ (A.code.known (n + 1)))
    (hreceive : temps.receive output r = some temps')
    (hr : ∀ v, r = some v → IsWord g.loc mem.length v (c.get returnReg)) {code : List Instr}
    (hcode : A.code.home.Receives output code) :
    Runs img code c (A.Related g (n + 1) temps' mem) := by
  generalize hS' : A.code.known (n + 1) = S' at hstep
  cases hstep with
  | callVoid =>
    cases hcode
    cases hreceive
    refine ⟨c, rfl, h.move (hS' ▸ .refl _) fun _ _ _ _ _ _ _ _ hn => Nat.le_of_succ_le hn, ?_⟩
    rw [hS']
    nofun
  | @call t =>
    cases r with
    | none => cases hreceive
    | some v =>
      cases hreceive
      refine h.compute hline rfl (A.code.kind_value hline rfl rfl) hS' (.inl rfl) (hr v rfl)
        fun pl hpl => ?_
      obtain ⟨rd, commit, hwrite, rfl⟩ := hcode
      obtain ⟨hrd, -, hcommit⟩ :=
        Home.write_exec A.stands h.kept.stack hpl img (c.get returnReg) hwrite
      have hmove : Runs img (Rv32.move rd returnReg) c fun c1 => Cpu.LikeBut rd c c1 ∧
          c1.get rd = c.get returnReg := by
        unfold Rv32.move
        split
        next heq => exact ⟨c, rfl, (Cpu.Like.refl c).but rd, heq ▸ rfl⟩
        next => exact ⟨_, execAll_singleton _ _, .set .., Cpu.get_set_self hrd⟩
      obtain ⟨c1, hexec1, hbut, hget⟩ := hmove
      obtain ⟨c', hexec2, hlike⟩ := hcommit c1 hbut hget
      exact ⟨c', execAll_trans hexec1 hexec2, hlike⟩

/-! ## Ends -/

theorem Standing.like (hlike : c.Like c') : A.Standing g n temps mem c' :=
  ⟨h.kept.like hlike, h.laid.like hlike, fun _ _ hu => (h.sits hu).keep rfl (Nat.le_refl _)
    (fun _ _ => rfl) (fun _ _ => rfl) rfl (fun _ _ ho => ho) (fun _ _ _ _ _ _ => rfl)
    fun _ _ _ _ _ hpl _ hn => ⟨hn, Home.placeWord_like A.stands hpl hlike⟩⟩

/-- **A jump or a branch** comes to the line where the run goes on. -/
theorem Standing.leave (hlinked : Linked img m annotate wants size)
    (hinst : Installed img annotate wants size f A.code)
    {i : IR.Instr} (hline : A.code.flat.lines[n]? = some (.instr i)) {l : Label} {s : Nat}
    (htarget : i.op.target? m A.args temps = some l) (hs : A.code.flat.start? l = some s)
    (hat : AtLine img A.code.home annotate A.code.flat n pc) :
    ∃ pc' c', img.Reaches ⟨pc, c⟩ ⟨pc', c'⟩ ∧ AtLine img A.code.home annotate A.code.flat s pc' ∧
      A.Related g s temps mem c' := by
  have hl := Op.target?_mem_successors htarget
  have hterm : Line.isTerminator (.instr i) = true := Line.isTerminator_of_successors hl
  obtain ⟨next, pc1, code, lines, hreach, hcode, hat1, hat2, before, b, after, done, rest, hblocks,
    hlines, rfl, rfl⟩ := hat.code hline
  have hnext : after.head?.map (·.label) = some l →
      AtLine img A.code.home annotate A.code.flat s (pc1 + code.length) := by
    intro heq
    obtain rfl := A.code.start_next hblocks hlines hterm heq hs
    exact hat2
  obtain ⟨op, heq, hends, -⟩ := A.code.typed.leave hline hterm
  cases heq
  cases op with
  | jump target =>
    cases htarget
    obtain ⟨pc', hreach', hline'⟩ := jump_lands hinst.resident hlinked.labels hs hcode hat1 hnext c
    exact ⟨pc', c, (hreach c).trans hreach', hline', h.goto hline hl hs⟩
  | branch cond yes no =>
    obtain ⟨x, hx, rfl⟩ := Option.map_eq_some_iff.1 htarget
    have hword := h.int hends (touched hline mem_cons_self) hx
    obtain ⟨pc', c', hreach', hlike, hline'⟩ := branch_lands A.stands h.kept.stack hword
      hinst.resident hlinked.labels hs hcode hat1 hnext
    exact ⟨pc', c', (hreach c).trans hreach', hline', (h.like hlike).goto hline hl hs⟩
  | _ => cases htarget

/-- **A return** restores everything and comes to a `ret`. -/
theorem Standing.return_reaches {pre : List Instr} {i : Fin 8}
    (hexec : execAll img pre c = some c') (hbut : Cpu.LikeBut (.a i) c c')
    (hr : ∀ v, r = some v → IsWord g.loc mem.length v (c'.get returnReg))
    (hat : img.At pc ((pre ++ A.code.home.epilogue).map .instr ++ lines)) :
    A.Returns pc c r mem := by
  obtain ⟨c1, hexec1, hreturned⟩ := (h.kept.likeBut hbut).restore
    (h.laid.change fun _ _ x _ => congrFun hbut.mem x) hr
  have hcode : (pre ++ A.code.home.epilogue).map AsmLine.instr ++ lines
      = (pre ++ A.code.home.restore).map .instr ++ (.instr .ret :: lines) := by
    simp [Home.epilogue_eq]
  rw [hcode] at hat
  have hret := hat.append_right
  rw [length_map] at hret
  exact ⟨_, c1, reaches_of_execAll hat (execAll_trans hexec hexec1), hret.head, hreturned⟩

end

/-! ## Runs -/

/-- **The machine does what a run does**, from any line on. -/
theorem returns (hlinked : Linked img m annotate wants size)
    (hrun : FlatRun size m flat args n temps mem k r final) (A : Activation img m)
    (hinst : Installed img annotate wants size f A.code) (hflat : A.code.flat = flat)
    (hargs : A.args = args) (hroom : A.low + k ≤ A.sp)
    (hat : AtLine img A.code.home annotate A.code.flat n pc) (h : A.Related g n temps mem c) :
    A.Returns pc c r final := by
  -- for all activations at once, since a callee has one of its own
  induction hrun generalizing A f g pc c with
  | @step flat args n i temps mem v mem' k r final hline hphi heval _ ih =>
    subst hflat hargs
    have hterm : Line.isTerminator (.instr i) = false := by
      refine Bool.eq_false_iff.2 fun hterm => ?_
      obtain ⟨op, heq, hends, -⟩ := A.code.typed.leave hline hterm
      cases heq
      rw [hends.eval_eq_none] at heval
      cases heval
    obtain ⟨next, pc1, code, lines, hreach, hcode, hat1, hat2, -⟩ := hat.code hline
    obtain ⟨hstep, -⟩ := A.code.typed.step hline hterm
    generalize hS' : A.code.known (n + 1) = S' at hstep
    cases hstep with
    | phi => cases hphi
    | instr hstep =>
      obtain ⟨g', c', hexec, hrelated⟩ := h.step hline (hS' ▸ hstep) heval hcode
      exact .of_reaches ((hreach c).trans (reaches_of_execAll hat1 hexec))
        (ih A hinst rfl rfl hroom hat2 hrelated)
  | @phi flat args n temps mem k r final φ hline _ ih =>
    subst hflat hargs
    obtain ⟨next, pc1, code, lines, hreach, hcode, hat1, hat2, -⟩ := hat.code hline
    cases hcode
    obtain ⟨hstep, -⟩ := A.code.typed.step hline rfl
    exact .of_reaches (hreach c) (ih A hinst rfl rfl hroom hat2 (h.phi hstep.eq_of_phi))
  | @copy flat args n t v w temps mem k r final hline heval _ ih =>
    subst hflat hargs
    obtain ⟨next, pc1, code, lines, hreach, hcode, hat1, hat2, -⟩ := hat.code hline
    obtain ⟨hstep, -⟩ := A.code.typed.step hline rfl
    generalize hS' : A.code.known (n + 1) = S' at hstep
    cases hstep with
    | copy hv hnone =>
      obtain ⟨c', hexec, hrelated⟩ := Standing.copy h.toStanding hline hv.2 hS' heval hcode
      exact .of_reaches ((hreach c).trans (reaches_of_execAll hat1 hexec))
        (ih A hinst rfl rfl hroom hat2 hrelated)
  | goto hline htarget hs _ ih =>
    subst hflat hargs
    obtain ⟨pc', c', hreach, hat', hrelated⟩ :=
      h.leave hlinked hinst hline htarget hs hat
    exact .of_reaches hreach (ih A hinst rfl rfl hroom hat' hrelated)
  | @call flat args n output callee vs temps mem ws f' flat' k' v mem' temps' k r final hline hvs hf
      hflat' _ hreceive _ ihcallee ih =>
    subst hflat hargs
    obtain ⟨next, pc1, code, lines, hreach, hcode, hat1, hat2, -⟩ := hat.code hline
    obtain ⟨hstep, -⟩ := A.code.typed.step hline rfl
    have hstep' : Step A.code.sig (A.code.known n) ⟨output, .call callee vs⟩ (A.code.known (n + 1)) := by
      generalize A.code.known (n + 1) = S' at hstep
      cases hstep with
      | instr hstep => exact hstep
    have hfit : ArgsFit (wants callee) (A.code.known n) vs := by
      rw [← hinst.others]
      generalize A.code.known (n + 1) = S' at hstep'
      cases hstep' with
      | call hfit | callVoid hfit => exact hfit
    obtain ⟨code1, code2, code3, hcode1, hcode2, hcode3, rfl⟩ := Home.call_ok hcode
    have hsplit : (code1 ++ code2 ++ [Instr.call callee] ++ code3).map AsmLine.instr ++ lines
        = (code1 ++ code2).map .instr ++ .instr (.call callee) :: (code3.map .instr ++ lines) := by
      simp
    rw [hsplit] at hat1
    have hroom' : A.low + (size f' + k') ≤ A.sp := by omega
    obtain ⟨c1, loc, hcall, hcalled, hresult⟩ := h.call_reaches hlinked hline
      hfit hvs hf hflat' hroom' (fun A' => ihcallee A') hcode1 hcode2 hat1
    obtain ⟨c2, hexec, hrelated⟩ :=
      (Standing.call h.toStanding hcalled).receive hline hstep' hreceive hresult hcode3
    have hat3 := hat1.append_right.tail
    rw [length_map] at hat3
    refine .of_reaches ((hreach c).trans (hcall.trans (reaches_of_execAll hat3 hexec)))
      (ih A hinst rfl rfl (by omega) ?_ hrelated)
    simpa [Nat.add_assoc, Nat.add_comm 1] using hat2
  | @ret flat args n output value temps mem v hline hv =>
    subst hflat hargs
    obtain ⟨next, pc1, code, lines, hreach, hcode, hat1, -⟩ := hat.code hline
    obtain ⟨op, heq, hends, -⟩ := A.code.typed.leave hline rfl
    cases heq
    obtain ⟨pre, hread, hcode⟩ := except_bind_ok.1 hcode
    cases hcode
    obtain ⟨w, hword, hisWord⟩ := h.word hends (touched hline mem_cons_self) hv
    obtain ⟨c', hexec, hbrings⟩ :=
      Home.readInto_exec A.stands h.kept.stack hword hread (by decide) (by decide)
    refine .of_reaches (hreach c) (h.return_reaches hexec hbrings.likeBut (fun y hy => ?_) hat1)
    cases hy
    rw [hbrings.word]
    exact hisWord
  | @retVoid flat args n output temps mem hline =>
    subst hflat hargs
    obtain ⟨next, pc1, code, lines, hreach, hcode, hat1, -⟩ := hat.code hline
    cases hcode
    exact .of_reaches (hreach c)
      (h.return_reaches (i := 0) (show execAll img [] c = some c from rfl)
        ((Cpu.Like.refl c).but _) nofun hat1)

end Activation

end Rv32

end SysY
