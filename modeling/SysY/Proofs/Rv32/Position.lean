import SysY.Proofs.Rv32.Relate

/-!
# Lines in the program

Where the code of each line of a function stands in the program. The machine
is *at a line* when the code of what is left of the line's block is next, and
that of the blocks after it follows. Labels and remarks do nothing, so being
before the label of a block is being at its first line.

A jump to the block that is laid out next is no instruction at all, and a
branch jumps in one case only; in the other the machine runs on and is at the
right line (`jump_lands`, `branch_lands`).
-/

namespace SysY.Rv32

open IR (Value Line Label Temp FlatBlock Flat)
open List

variable {img : Image} {h : Home} {annotate : Bool} {flat : Flat} {n s pc : Nat} {line : Line}
  {c : Cpu} {l : Label}

/-- The number of lines of blocks. -/
def countLines (bs : List FlatBlock) : Nat := (bs.flatMap (·.lines)).length

@[simp] theorem countLines_cons (b : FlatBlock) (bs : List FlatBlock) :
    countLines (b :: bs) = b.lines.length + countLines bs := by
  simp [countLines]

@[simp] theorem countLines_append (bs bs' : List FlatBlock) :
    countLines (bs ++ bs') = countLines bs + countLines bs' := by
  simp [countLines]

variable (img h annotate flat)

/-- **The machine is at a line** of a function. -/
def AtLine (n pc : Nat) : Prop :=
  ∃ before b after done rest code later, flat.blocks = before ++ b :: after ∧
    b.lines = done ++ rest ∧ n = countLines before + done.length ∧
    h.linesCode annotate (after.head?.map (·.label)) rest = .ok code ∧
    h.blocksCode annotate after = .ok later ∧ img.At pc (code ++ later)

/-- The machine comes to a line without doing anything. -/
def Lands (s pc : Nat) : Prop :=
  ∃ pc', (∀ c, img.Reaches ⟨pc, c⟩ ⟨pc', c⟩) ∧ AtLine img h annotate flat s pc'

variable {img h annotate flat}

theorem blocksCode_cons {b : FlatBlock} {bs : List FlatBlock} {code : List AsmLine}
    (hcode : h.blocksCode annotate (b :: bs) = .ok code) :
    ∃ symbol here later, h.symbol b.label = .ok symbol ∧
      h.linesCode annotate (bs.head?.map (·.label)) b.lines = .ok here ∧
      h.blocksCode annotate bs = .ok later ∧ code = .label symbol :: (here ++ later) := by
  obtain ⟨symbol, hsymbol, hcode⟩ := except_bind_ok.1 hcode
  obtain ⟨here, hhere, hcode⟩ := except_bind_ok.1 hcode
  obtain ⟨later, hlater, hcode⟩ := except_bind_ok.1 hcode
  cases hcode
  exact ⟨symbol, here, later, hsymbol, hhere, hlater, rfl⟩

theorem getElem?_lines {before after : List FlatBlock} {b : FlatBlock} {done rest : List Line}
    (hblocks : flat.blocks = before ++ b :: after) (hlines : b.lines = done ++ line :: rest) :
    flat.lines[countLines before + done.length]? = some line := by
  unfold countLines
  rw [Flat.lines, hblocks, flatMap_append, getElem?_append_right (Nat.le_add_right _ _),
    Nat.add_sub_cancel_left, flatMap_cons, hlines, append_assoc,
    getElem?_append_right (Nat.le_refl _), Nat.sub_self]
  rfl

/-- At the end of a block the machine goes on with the next line there is. -/
theorem AtLine.normal (hat : AtLine img h annotate flat n pc) (hline : flat.lines[n]? = some line) :
    ∃ pc' before b after done rest code later, (∀ c, img.Reaches ⟨pc, c⟩ ⟨pc', c⟩) ∧
      flat.blocks = before ++ b :: after ∧ b.lines = done ++ line :: rest ∧
      n = countLines before + done.length ∧
      h.linesCode annotate (after.head?.map (·.label)) (line :: rest) = .ok code ∧
      h.blocksCode annotate after = .ok later ∧ img.At pc' (code ++ later) := by
  obtain ⟨before, b, after, done, rest, code, later, hblocks, hlines, rfl, hcode, hlater, hat⟩ := hat
  -- a block may have nothing left, so the argument is on the blocks that follow
  induction after generalizing before b done rest code later pc with
  | nil =>
    cases rest with
    | nil =>
      refine absurd (List.getElem?_eq_some_iff.1 hline).1 (Nat.not_lt.2 ?_)
      rw [Flat.lines, hblocks, ← countLines, countLines_append, countLines_cons, hlines]
      simp [countLines]
    | cons line' rest =>
      cases (getElem?_lines hblocks hlines).symm.trans hline
      exact ⟨pc, before, b, [], done, rest, code, later, fun _ => .refl _, hblocks, hlines, rfl,
        hcode, hlater, hat⟩
  | cons b' after ih =>
    cases rest with
    | nil =>
      cases hcode
      obtain ⟨symbol, here, later', -, hhere, hlater', rfl⟩ := blocksCode_cons hlater
      have hn : countLines before + done.length
          = countLines (before ++ [b]) + ([] : List Line).length := by
        rw [countLines_append, countLines_cons, hlines]
        simp [countLines]
      rw [hn] at hline ⊢
      obtain ⟨pc', hrest⟩ := ih (before ++ [b]) b' [] b'.lines here later'
        (by rw [hblocks, append_assoc]; rfl) rfl hline hhere hlater' (Image.At.tail hat)
      obtain ⟨before', b'', after', done', rest', code', later'', hreach, hrest⟩ := hrest
      exact ⟨pc', before', b'', after', done', rest', code', later'',
        fun c => (reaches_label hat).trans (hreach c), hrest⟩
    | cons line' rest =>
      cases (getElem?_lines hblocks hlines).symm.trans hline
      exact ⟨pc, before, b, b' :: after, done, rest, code, later, fun _ => .refl _, hblocks, hlines,
        rfl, hcode, hlater, hat⟩

/-- The code of a line comes after a remark, if there is one. -/
theorem lineCode_ok {next : Option Label} {here : List AsmLine}
    (hhere : h.lineCode annotate next line = .ok here) :
    ∃ remark is, h.line next line = .ok is ∧ here = remark ++ is.map .instr ∧
      (remark = [] ∨ ∃ text, remark = [.comment text]) := by
  unfold Home.lineCode at hhere
  dsimp only at hhere
  split at hhere
  · obtain ⟨text, -, hhere⟩ := except_bind_ok.1 hhere
    obtain ⟨_, hremark, hhere⟩ := except_bind_ok.1 hhere
    cases hremark
    obtain ⟨is, his, hhere⟩ := except_bind_ok.1 hhere
    cases hhere
    exact ⟨[.comment text], is, his, rfl, .inr ⟨text, rfl⟩⟩
  · obtain ⟨_, hremark, hhere⟩ := except_bind_ok.1 hhere
    cases hremark
    obtain ⟨is, his, hhere⟩ := except_bind_ok.1 hhere
    cases hhere
    exact ⟨[], is, his, rfl, .inl rfl⟩

/-- **The code of a line** is next when the machine is there, and the next line
follows it. -/
theorem AtLine.code (hat : AtLine img h annotate flat n pc) (hline : flat.lines[n]? = some line) :
    ∃ next pc' code lines, (∀ c, img.Reaches ⟨pc, c⟩ ⟨pc', c⟩) ∧ h.line next line = .ok code ∧
      img.At pc' (code.map .instr ++ lines) ∧ AtLine img h annotate flat (n + 1) (pc' + code.length) ∧
      ∃ before b after done rest, flat.blocks = before ++ b :: after ∧
        b.lines = done ++ line :: rest ∧ n = countLines before + done.length ∧
        next = after.head?.map (·.label) := by
  obtain ⟨pc1, before, b, after, done, rest, code, later, hreach, hblocks, hlines, hn, hcode, hlater,
    hat⟩ := hat.normal hline
  obtain ⟨here, hhere, hcode⟩ := except_bind_ok.1 hcode
  obtain ⟨code', hcode', hcode⟩ := except_bind_ok.1 hcode
  cases hcode
  obtain ⟨remark, is, his, rfl, hremark⟩ := lineCode_ok hhere
  have hskip : ∀ c, img.Reaches ⟨pc1, c⟩ ⟨pc1 + remark.length, c⟩ := by
    intro c
    rcases hremark with rfl | ⟨text, rfl⟩
    · exact .refl _
    · exact reaches_comment hat
  have hat' : img.At (pc1 + remark.length) (is.map .instr ++ (code' ++ later)) := by
    rw [append_assoc, append_assoc] at hat
    exact hat.append_right
  have hnext := hat'.append_right
  rw [length_map] at hnext
  refine ⟨_, pc1 + remark.length, is, code' ++ later, fun c => (hreach c).trans (hskip c), his, hat',
    ⟨before, b, after, done ++ [line], rest, code', later, hblocks, by simp [hlines], ?_, hcode',
      hlater, hnext⟩, before, b, after, done, rest, hblocks, hlines, hn, rfl⟩
  rw [hn, length_append, length_singleton, Nat.add_assoc]

/-! ## Blocks -/

theorem exists_block_of_start? (hs : flat.start? l = some s) :
    ∃ before b after, flat.blocks = before ++ b :: after ∧ b.label = l ∧ s = countLines before := by
  have hranges : ∀ {bs : List FlatBlock} {first : Nat} {x : Label × Nat × Nat},
      x ∈ Flat.rangesFrom first bs → ∃ before b after, bs = before ++ b :: after ∧ b.label = x.1 ∧
        x.2.1 = first + countLines before := by
    intro bs
    induction bs with
    | nil => nofun
    | cons b bs ih =>
      intro first x hx
      rcases mem_cons.1 hx with rfl | hx
      · exact ⟨[], b, bs, rfl, rfl, rfl⟩
      · obtain ⟨before, b', after, rfl, hlabel, hstart⟩ := ih hx
        refine ⟨b :: before, b', after, rfl, hlabel, ?_⟩
        rw [hstart, countLines_cons, Nat.add_assoc]
  obtain ⟨x, hx, rfl⟩ := Option.map_eq_some_iff.1 hs
  have hlabel := find?_some hx
  obtain ⟨before, b, after, hblocks, hb, hstart⟩ :=
    hranges (mem_reverse.1 (mem_of_find?_eq_some hx))
  exact ⟨before, b, after, hblocks, hb.trans (by simpa using hlabel), by rw [hstart, Nat.zero_add]⟩

/-- The code of a function's blocks stands in the program. -/
def Resident (img : Image) (h : Home) (annotate : Bool) (flat : Flat) : Prop :=
  ∃ pc code, h.blocksCode annotate flat.blocks = .ok code ∧ img.At pc code

/-- The code of blocks comes after that of the blocks before them. -/
theorem blocksCode_skip (before : List FlatBlock) {bs : List FlatBlock} {code : List AsmLine}
    (hcode : h.blocksCode annotate (before ++ bs) = .ok code) (hat : img.At pc code) :
    ∃ pc' code', h.blocksCode annotate bs = .ok code' ∧ img.At pc' code' := by
  induction before generalizing pc code with
  | nil => exact ⟨pc, code, hcode, hat⟩
  | cons b before ih =>
    obtain ⟨symbol, here, later, -, -, hlater, rfl⟩ := blocksCode_cons hcode
    exact ih hlater hat.tail.append_right

/-- **The label of a block leads to its first line.** -/
theorem Resident.lands (hres : Resident img h annotate flat) (hnodup : (labels img.lines).Nodup)
    (hs : flat.start? l = some s) {symbol : String} (hsymbol : h.symbol l = .ok symbol) :
    ∃ pc, img.label? symbol = some pc ∧ Lands img h annotate flat s pc := by
  obtain ⟨before, b, after, hblocks, rfl, rfl⟩ := exists_block_of_start? hs
  obtain ⟨pc, code, hcode, hat⟩ := hres
  rw [hblocks] at hcode
  obtain ⟨pc', code', hcode', hat'⟩ := blocksCode_skip before hcode hat
  obtain ⟨symbol', here, later, hsymbol', hhere, hlater, rfl⟩ := blocksCode_cons hcode'
  cases hsymbol.symm.trans hsymbol'
  exact ⟨pc', label?_of_at hnodup hat', pc' + 1, fun _ => reaches_label hat',
    before, b, after, [], b.lines, here, later, hblocks, rfl, rfl, hhere, hlater, hat'.tail⟩

/-- A line that leaves its block is followed by the first line of the next
block. -/
theorem Compiled.start_next (F : Compiled) {before after : List FlatBlock} {b : FlatBlock}
    {done rest : List Line} (hblocks : F.flat.blocks = before ++ b :: after)
    (hlines : b.lines = done ++ line :: rest) (hterm : line.isTerminator = true)
    (hnext : after.head?.map (·.label) = some l) (hs : F.flat.start? l = some s) :
    s = countLines before + done.length + 1 := by
  obtain ⟨b', hhead, rfl⟩ := Option.map_eq_some_iff.1 hnext
  obtain ⟨after', rfl⟩ := head?_eq_some_iff.1 hhead
  have hrest : rest = [] := by
    obtain ⟨init, last, hlast, hinit⟩ := F.ends (b := b) (by simp [hblocks])
    by_contra hne
    have hmem : line ∈ init := by
      have hdrop := congrArg List.dropLast (hlines.symm.trans hlast)
      rw [dropLast_concat, dropLast_append_of_ne_nil (cons_ne_nil _ _),
        dropLast_cons_of_ne_nil hne] at hdrop
      simp [← hdrop]
    rw [hinit line hmem] at hterm
    cases hterm
  obtain ⟨before', b'', after'', hblocks', hlabel, rfl⟩ := exists_block_of_start? hs
  have hhere : F.flat.blocks[(before ++ [b]).length]? = some b' := by
    simp [hblocks]
  have hthere : F.flat.blocks[before'.length]? = some b'' := by
    simp [hblocks']
  have hnodup : (F.flat.blocks.filterMap fun b => some b.label).Nodup := by
    rw [filterMap_eq_map']
    exact F.labels
  have hlen := eq_of_filterMap_nodup hnodup hthere hhere (congrArg some hlabel) rfl
  have hbefore : before' = before ++ [b] := by
    rw [append_cons] at hblocks
    have htake := congrArg (List.take before'.length) (hblocks'.symm.trans hblocks)
    rwa [take_left, hlen, take_left] at htake
  rw [hbefore, countLines_append, countLines_cons, hlines, hrest]
  simp [countLines, Nat.add_assoc]

/-! ## Jumps -/

theorem Lands.reaches_of_step {pc' : Nat} (hlands : Lands img h annotate flat s pc')
    (hstep : img.step ⟨pc, c⟩ = some ⟨pc', c⟩) :
    ∃ pc'', img.Reaches ⟨pc, c⟩ ⟨pc'', c⟩ ∧ AtLine img h annotate flat s pc'' := by
  obtain ⟨pc'', hreach, hline⟩ := hlands
  exact ⟨pc'', .head hstep (hreach c), hline⟩

/-- **A jump** leads to the first line of its target. -/
theorem jump_lands (hres : Resident img h annotate flat) (hnodup : (labels img.lines).Nodup)
    (hs : flat.start? l = some s) {next : Option Label} {code : List Instr} {lines : List AsmLine}
    (hcode : h.jump next l = .ok code) (hat : img.At pc (code.map .instr ++ lines))
    (hnext : next = some l → AtLine img h annotate flat s (pc + code.length)) (c : Cpu) :
    ∃ pc', img.Reaches ⟨pc, c⟩ ⟨pc', c⟩ ∧ AtLine img h annotate flat s pc' := by
  unfold Home.jump at hcode
  split at hcode
  next heq =>
    cases hcode
    exact ⟨pc, .refl _, hnext heq⟩
  next =>
    obtain ⟨symbol, hsymbol, hcode⟩ := except_bind_ok.1 hcode
    cases hcode
    obtain ⟨pc', hlabel, hlands⟩ := hres.lands hnodup hs hsymbol
    refine hlands.reaches_of_step ((step_instr hat).trans ?_)
    simp [Image.perform, Image.goto, hlabel]

/-- **A branch** leads to the first line of the block that the condition
selects. -/
theorem branch_lands {lines' : List Line} {sp : Nat} (hstands : h.Stands lines' sp)
    (hsp : c.get .sp = Int32.ofNat sp) {cond : Value} {x : Int32}
    (hword : Home.Word img h sp c cond x) (hres : Resident img h annotate flat)
    (hnodup : (labels img.lines).Nodup) {yes no : Label}
    (hs : flat.start? (if x = 0 then no else yes) = some s) {next : Option Label}
    {code : List Instr} {lines : List AsmLine} (hcode : h.branch next cond yes no = .ok code)
    (hat : img.At pc (code.map .instr ++ lines))
    (hnext : next = some (if x = 0 then no else yes) →
      AtLine img h annotate flat s (pc + code.length)) :
    ∃ pc' c', img.Reaches ⟨pc, c⟩ ⟨pc', c'⟩ ∧ c.Like c' ∧ AtLine img h annotate flat s pc' := by
  obtain ⟨⟨code1, r⟩, hread, hcode⟩ := except_bind_ok.1 hcode
  obtain ⟨yesSymbol, hyes, hcode⟩ := except_bind_ok.1 hcode
  obtain ⟨noSymbol, hno, hcode⟩ := except_bind_ok.1 hcode
  obtain ⟨c', hexec, hr⟩ := Home.read_exec hstands hsp hword hread (by decide) (by decide)
  have hlike := hr.like rfl
  -- what is left are one or two jumps, from a state where the condition is in a register
  have hjumps : ∀ {jumps : List Instr}, code = code1 ++ jumps →
      img.At (pc + code1.length) (jumps.map .instr ++ lines) ∧
        ∀ {pc'}, img.Reaches ⟨pc + code1.length, c'⟩ ⟨pc', c'⟩ → img.Reaches ⟨pc, c⟩ ⟨pc', c'⟩ := by
    rintro jumps rfl
    rw [map_append, append_assoc] at hat
    have hrest := hat.append_right
    rw [length_map] at hrest
    exact ⟨hrest, (reaches_of_execAll hat hexec).trans⟩
  have htarget : ∀ {l symbol}, h.symbol l = .ok symbol → flat.start? l = some s → ∀ {pc'},
      img.step ⟨pc', c'⟩ = img.goto symbol c' →
      ∃ pc'', img.Reaches ⟨pc', c'⟩ ⟨pc'', c'⟩ ∧ AtLine img h annotate flat s pc'' := by
    intro l symbol hsymbol hs pc' hstep
    obtain ⟨pc1, hlabel, hlands⟩ := hres.lands hnodup hs hsymbol
    exact hlands.reaches_of_step (hstep.trans (by rw [Image.goto, hlabel]; rfl))
  split at hcode
  next heq =>
    cases hcode
    obtain ⟨hat', hreach⟩ := hjumps rfl
    by_cases hx : x = 0
    · rw [if_pos hx] at hs
      obtain ⟨pc', hreach', hline⟩ := htarget hno hs
        ((step_instr hat').trans (if_pos (hr.word.trans hx)))
      exact ⟨pc', c', hreach hreach', hlike, hline⟩
    · rw [if_neg hx] at hnext
      refine ⟨_, c', hreach (.single ((step_instr hat').trans ?_)), hlike, hnext heq⟩
      refine (if_neg (hr.word ▸ hx)).trans ?_
      rw [length_append, length_singleton, Nat.add_assoc]
  next =>
    split at hcode
    next heq =>
      cases hcode
      obtain ⟨hat', hreach⟩ := hjumps rfl
      by_cases hx : x = 0
      · rw [if_pos hx] at hnext
        refine ⟨_, c', hreach (.single ((step_instr hat').trans ?_)), hlike, hnext heq⟩
        refine (if_pos (hr.word.trans hx)).trans ?_
        rw [length_append, length_singleton, Nat.add_assoc]
      · rw [if_neg hx] at hs
        obtain ⟨pc', hreach', hline⟩ := htarget hyes hs
          ((step_instr hat').trans (if_neg (hr.word ▸ hx)))
        exact ⟨pc', c', hreach hreach', hlike, hline⟩
    next =>
      cases hcode
      obtain ⟨hat', hreach⟩ := hjumps rfl
      by_cases hx : x = 0
      · rw [if_pos hx] at hs
        obtain ⟨pc', hreach', hline⟩ := htarget hno hs (step_instr hat'.tail)
        refine ⟨pc', c', hreach (.head ((step_instr hat').trans ?_) hreach'), hlike, hline⟩
        exact if_pos (hr.word.trans hx)
      · rw [if_neg hx] at hs
        obtain ⟨pc', hreach', hline⟩ := htarget hyes hs
          ((step_instr hat').trans (if_neg (hr.word ▸ hx)))
        exact ⟨pc', c', hreach hreach', hlike, hline⟩

end SysY.Rv32
