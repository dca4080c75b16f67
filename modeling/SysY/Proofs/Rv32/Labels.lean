import SysY.Proofs.Lower.Program
import SysY.Proofs.Rv32.Link

/-!
# Labels

The labels of an emitted module (`labels_emit`) are that of the entry point, if
there is one, the names of its global variables and functions, and for each
block of a function a *symbol*, made of the name of the function, the name of
the block and its number. Names are told from symbols by their first character.
Of a symbol the digits at the end are the number of the block; and no block has
a name that ends like that of another after an underscore, so that what is
before the name of the block is the name of the function, whatever underscores
that has. So no label is defined twice, unless a variable or a function has the
name of the entry point (`labels_nodup_iff`).
-/

namespace SysY

open IR Lower List

variable {fs : List IR.Function}

namespace Rv32

/-! ## Symbols -/

/-- The symbol of a block of a function. -/
def blockSymbol (function block : String) (l : Label) : String :=
  ".L" ++ function ++ "_" ++ (block ++ Nat.repr l)

variable {s : String} {code lines : List AsmLine}

theorem Home.symbol_ok {h : Home} {l : Label} (hs : h.symbol l = .ok s) :
    ∃ b, h.function.blocks[l]? = some b ∧ s = blockSymbol h.function.name b.name l := by
  obtain ⟨_, hname, hs⟩ := except_bind_ok.1 hs
  obtain ⟨b, hb, hname⟩ := except_bind_ok.1 hname
  cases hs
  cases hname
  unfold Function.block at hb
  split at hb
  next heq =>
    cases hb
    exact ⟨b, heq, rfl⟩
  next => cases hb

/-- Nothing but digits after a text that does not end in one is no part of it. -/
theorem eq_nil_of_digits {as bs cs : List Char} (hbs : ∀ c ∈ bs ++ cs, c.isDigit = true)
    (has : ∀ c ∈ (as ++ bs).getLast?, c.isDigit = false) : bs = [] := by
  cases hlast : bs.getLast? with
  | none => exact getLast?_eq_none_iff.1 hlast
  | some c =>
    have hdigit := hbs c (mem_append_left _ (mem_of_getLast? hlast))
    have hnone := has c (by rw [getLast?_append, hlast]; rfl)
    rw [hdigit] at hnone
    cases hnone

/-- The digits at the end of a text are told from what is before. -/
theorem append_digits_inj {as bs ds es : List Char} (hds : ∀ c ∈ ds, c.isDigit = true)
    (hes : ∀ c ∈ es, c.isDigit = true) (has : ∀ c ∈ as.getLast?, c.isDigit = false)
    (hbs : ∀ c ∈ bs.getLast?, c.isDigit = false) (h : as ++ ds = bs ++ es) : as = bs ∧ ds = es := by
  rcases append_eq_append_iff.1 h with ⟨more, rfl, rfl⟩ | ⟨more, rfl, rfl⟩
  · obtain rfl := eq_nil_of_digits hds hbs
    exact ⟨(append_nil _).symm, rfl⟩
  · obtain rfl := eq_nil_of_digits hes has
    exact ⟨append_nil _, rfl⟩

/-- Blocks of different names differ in the last three characters of these. -/
theorem blockNames_take : ∀ b ∈ blockNames, ∀ b' ∈ blockNames,
    b.toList.reverse.take 3 = b'.toList.reverse.take 3 → b = b' := by
  decide +kernel

theorem blockNames_length : ∀ b ∈ blockNames, 3 ≤ b.toList.length := by
  decide +kernel

theorem blockNames_getLast : ∀ b ∈ blockNames, b.toList.getLast?.map Char.isDigit = some false := by
  decide +kernel

theorem toList_blockSymbol (f b : String) (l : Label) :
    (blockSymbol f b l).toList =
      ('.' :: 'L' :: (f.toList ++ '_' :: b.toList)) ++ Nat.toDigits 10 l := by
  simp [blockSymbol, String.toList_append]

/-- **Symbols of different blocks are different.** -/
theorem blockSymbol_inj {f f' b b' : String} {l l' : Label} (hb : b ∈ blockNames)
    (hb' : b' ∈ blockNames) (h : blockSymbol f b l = blockSymbol f' b' l') : f = f' ∧ l = l' := by
  have hlast : ∀ {f b : String}, b ∈ blockNames →
      ∀ c ∈ ('.' :: 'L' :: (f.toList ++ '_' :: b.toList)).getLast?, c.isDigit = false := by
    intro f b hb c hc
    obtain ⟨x, hx, hdigit⟩ := Option.map_eq_some_iff.1 (blockNames_getLast b hb)
    have hpre : ('.' :: 'L' :: (f.toList ++ '_' :: b.toList))
        = ('.' :: 'L' :: (f.toList ++ ['_'])) ++ b.toList := by simp
    rw [hpre, getLast?_append, hx] at hc
    cases hc
    exact hdigit
  have hdigits : ∀ l, ∀ c ∈ Nat.toDigits 10 l, c.isDigit = true := fun l c hc =>
    Nat.isDigit_of_mem_toDigits (by decide) (by decide) hc
  have htake : ∀ {f b : String}, b ∈ blockNames →
      (f.toList ++ '_' :: b.toList).reverse.take 3 = b.toList.reverse.take 3 := by
    intro f b hb
    have hlength := blockNames_length b hb
    rw [reverse_append, reverse_cons, append_assoc,
      take_append_of_le_length (by rwa [length_reverse])]
  have hlists := congrArg String.toList h
  rw [toList_blockSymbol, toList_blockSymbol] at hlists
  obtain ⟨hnames, hnumbers⟩ :=
    append_digits_inj (hdigits l) (hdigits l') (hlast hb) (hlast hb') hlists
  have hnames : f.toList ++ '_' :: b.toList = f'.toList ++ '_' :: b'.toList := by simpa using hnames
  have hblock : b = b' := blockNames_take b hb b' hb' (by rw [← htake hb, hnames, htake hb'])
  subst hblock
  refine ⟨String.toList_inj.1 (append_cancel_right hnames), ?_⟩
  rw [← Nat.ofDigitChars_ten_toDigits (n := l), hnumbers, Nat.ofDigitChars_ten_toDigits]

/-! ## Labels of functions -/

variable {h : Home} {annotate : Bool} {o : Options} {f : IR.Function} {m : Module}

theorem labels_append (as bs : List AsmLine) : labels (as ++ bs) = labels as ++ labels bs :=
  filterMap_append

theorem labels_instrs (is : List Instr) : labels (is.map .instr) = [] := by
  rw [labels, filterMap_map]
  exact filterMap_eq_nil_iff.2 fun _ _ => rfl

/-- Inside of a block there are no labels. -/
theorem labels_linesCode {next : Option Label} {lines : List Line}
    (hcode : h.linesCode annotate next lines = .ok code) : labels code = [] := by
  induction lines generalizing code with
  | nil =>
    cases hcode
    rfl
  | cons line lines ih =>
    obtain ⟨here, hhere, hcode⟩ := except_bind_ok.1 hcode
    obtain ⟨later, hlater, hcode⟩ := except_bind_ok.1 hcode
    cases hcode
    obtain ⟨remark, is, -, rfl, hremark⟩ := lineCode_ok hhere
    rw [labels_append, labels_append, ih hlater, labels_instrs]
    rcases hremark with rfl | ⟨text, rfl⟩ <;> rfl

/-- The labels of blocks are their symbols. -/
theorem labels_blocksCode {blocks : List FlatBlock}
    (hcode : h.blocksCode annotate blocks = .ok code) :
    Forall₂ (fun b s => h.symbol b.label = .ok s) blocks (labels code) := by
  induction blocks generalizing code with
  | nil =>
    cases hcode
    exact .nil
  | cons b bs ih =>
    obtain ⟨symbol, here, later, hsymbol, hhere, hlater, rfl⟩ := blocksCode_cons hcode
    have hcons : labels (.label symbol :: (here ++ later)) = symbol :: labels later := by
      show symbol :: labels (here ++ later) = _
      rw [labels_append, labels_linesCode hhere, nil_append]
    rw [hcons]
    exact .cons hsymbol (ih hlater)

def blockSymbols (f : IR.Function) : List String :=
  f.blocks.mapIdx fun l b => blockSymbol f.name b.name l

theorem mem_blockSymbols :
    s ∈ blockSymbols f ↔ ∃ l b, f.blocks[l]? = some b ∧ s = blockSymbol f.name b.name l := by
  unfold blockSymbols
  rw [mem_mapIdx]
  constructor
  · rintro ⟨l, hl, rfl⟩
    exact ⟨l, _, getElem?_eq_getElem hl, rfl⟩
  · rintro ⟨l, b, hb, rfl⟩
    obtain ⟨hl, rfl⟩ := List.getElem?_eq_some_iff.1 hb
    exact ⟨l, hl, rfl⟩

/-- Symbols begin with a dot. -/
theorem head_blockSymbols (hs : s ∈ blockSymbols f) : s.toList.head? = some '.' := by
  obtain ⟨l, b, -, rfl⟩ := mem_blockSymbols.1 hs
  rw [toList_blockSymbol]
  rfl

/-- Blocks of a function have different symbols. -/
theorem nodup_blockSymbols (hnamed : ∀ b ∈ f.blocks, b.name ∈ blockNames) :
    (blockSymbols f).Nodup := by
  refine nodup_iff_injective_getElem.2 fun l l' heq => Fin.ext ?_
  simp only [blockSymbols, getElem_mapIdx] at heq
  exact (blockSymbol_inj (hnamed _ (getElem_mem _)) (hnamed _ (getElem_mem _)) heq).2

/-- Functions of different names have no symbol in common. -/
theorem nodup_flatMap_blockSymbols (hnamed : ∀ f ∈ fs, ∀ b ∈ f.blocks, b.name ∈ blockNames)
    (hnames : (fs.map (·.name)).Nodup) : (fs.flatMap blockSymbols).Nodup := by
  refine nodup_flatMap.2 ⟨fun f hf => nodup_blockSymbols (hnamed f hf), ?_⟩
  refine (pairwise_map.1 hnames).imp_of_mem fun {f g} hf hg hne s hs hs' => hne ?_
  obtain ⟨l, b, hb, rfl⟩ := mem_blockSymbols.1 hs
  obtain ⟨l', b', hb', heq⟩ := mem_blockSymbols.1 hs'
  exact (blockSymbol_inj (hnamed f hf b (mem_of_getElem? hb))
    (hnamed g hg b' (mem_of_getElem? hb')) heq).1

/-- The labels of a function are its name and the symbols of its blocks. -/
theorem labels_emitFunction {sig : Signatures} {ps : List Part}
    (h : (emitFunction o f).result = .ok lines) (htyped : f.Typed sig ps) :
    ∃ symbols, labels lines = f.name :: symbols ∧ symbols.Perm (blockSymbols f) := by
  obtain ⟨flat, live, frame, prologue, code, hanalyzed, -, -, hcode, rfl⟩ := emitFunction_ok h
  obtain ⟨_, hflatten, hanalyzed⟩ := except_bind_ok.1 hanalyzed
  obtain ⟨_, -, heq⟩ := except_bind_ok.1 hanalyzed
  cases heq
  cases hflatten.symm.trans htyped.flatten
  refine ⟨labels code, ?_, ?_⟩
  · rw [labels_append, labels_append, labels_instrs]
    rfl
  -- each block is laid out once
  let symbolAt (l : Label) : String := (f.blocks[l]?).elim "" fun b => blockSymbol f.name b.name l
  have hlabels : labels code = f.layout.map symbolAt := by
    have hall := labels_blocksCode hcode
    rw [forall₂_map_left_iff] at hall
    rw [htyped.layout, map_map]
    refine (forall₂_eq_eq_eq ▸ forall₂_map_right_iff.2 (hall.flip.imp ?_))
    intro s p hs
    obtain ⟨b, hb, rfl⟩ := Home.symbol_ok hs
    exact congrArg (fun b? => Option.elim b? "" fun b => blockSymbol f.name b.name p.label) hb.symm
  have hsymbols : blockSymbols f = (List.range f.blocks.length).map symbolAt := by
    refine ext_getElem (by simp [blockSymbols]) fun l hl _ => ?_
    have hl : l < f.blocks.length := by simpa [blockSymbols] using hl
    simp [blockSymbols, symbolAt, hl]
  rw [hlabels, hsymbols]
  exact htyped.perm.map symbolAt

/-! ## Labels of modules -/

/-- The labels of functions are their names and symbols. -/
theorem labels_emitFunctions (h : (emitFunctions o fs).result = .ok code)
    (htyped : ∀ f ∈ fs, ∃ sig ps, f.Typed sig ps) :
    (labels code).Perm (fs.map (·.name) ++ fs.flatMap blockSymbols) := by
  induction fs generalizing code with
  | nil =>
    cases h
    exact .refl _
  | cons f fs ih =>
    obtain ⟨lines, rest, hlines, hrest, rfl⟩ := emitFunctions_cons h
    obtain ⟨sig, ps, hps⟩ := htyped f mem_cons_self
    obtain ⟨here, hhere, hperm⟩ := labels_emitFunction hlines hps
    have hlater := ih hrest fun g hg => htyped g (mem_cons_of_mem _ hg)
    rw [labels_append, hhere]
    refine Perm.cons _ ((hperm.append hlater).trans ?_)
    rw [← append_assoc]
    refine (perm_append_comm.append_right _).trans ?_
    rw [append_assoc]
    exact .refl _

theorem labels_globals (gs : List Global) : labels (gs.flatMap globalLines) = gs.map (·.name) := by
  induction gs with
  | nil => rfl
  | cons g gs ih =>
    have hwords : labels (g.init.map .word) = [] := by
      rw [labels, filterMap_map]
      exact filterMap_eq_nil_iff.2 fun _ _ => rfl
    have hg : labels (globalLines g) = [g.name] := by
      rw [globalLines, labels_append, hwords]
      rfl
    rw [flatMap_cons, labels_append, hg, ih]
    rfl

theorem labels_dataSection (gs : List Global) : labels (dataSection gs) = gs.map (·.name) := by
  unfold dataSection
  split
  next hempty =>
    rw [isEmpty_iff.1 hempty]
    rfl
  next =>
    show labels (gs.flatMap globalLines ++ [.blank]) = _
    rw [labels_append, labels_globals]
    exact append_nil _

/-- The labels of the entry point. -/
def stubLabels (o : Options) : List String := if o.startStub then ["_start"] else []

/-- **The labels of an emitted module.** -/
theorem labels_emit (h : (emit o m).result = .ok lines)
    (htyped : ∀ f ∈ m.functions, ∃ sig ps, f.Typed sig ps) :
    (labels lines).Perm (stubLabels o ++ (m.globals.map (·.name) ++ m.functions.map (·.name))
      ++ m.functions.flatMap blockSymbols) := by
  obtain ⟨code, hcode, rfl⟩ := except_map_ok.1 h
  have hstub : labels (if o.startStub then startStub else []) = stubLabels o := by
    unfold stubLabels
    split <;> rfl
  have hcodeLine : labels [.code] = [] := rfl
  rw [labels_append, labels_append, labels_append, labels_dataSection, hstub, hcodeLine,
    append_nil]
  refine (perm_append_comm.append (labels_emitFunctions hcode htyped)).trans ?_
  rw [append_assoc, append_assoc, append_assoc]

section

variable (hlines : (emit o m).result = .ok lines)
  (htyped : ∀ f ∈ m.functions, ∃ sig ps, f.Typed sig ps)
  (hnamed : ∀ f ∈ m.functions, ∀ b ∈ f.blocks, b.name ∈ blockNames)
  (hnames : (m.globals.map (·.name) ++ m.functions.map (·.name)).Nodup)
  (hplain : ∀ name ∈ m.globals.map (·.name) ++ m.functions.map (·.name), name.toList.head? ≠ some '.')

include hlines htyped hnamed hnames hplain

/-- **A label of an emitted module is defined twice only if the entry point and
a global variable or a function have the same name**, where global variables and
functions have different names that do not begin with a dot. -/
theorem labels_nodup_iff :
    (labels lines).Nodup ↔
      (o.startStub = true → "_start" ∉ m.globals.map (·.name) ++ m.functions.map (·.name)) := by
  have hsymbols := nodup_flatMap_blockSymbols hnamed (nodup_append.1 hnames).2.1
  have hdot : ∀ s ∈ m.functions.flatMap blockSymbols, s.toList.head? = some '.' := by
    intro s hs
    obtain ⟨f, -, hs⟩ := mem_flatMap.1 hs
    exact head_blockSymbols hs
  have hplace : (m.globals.map (·.name) ++ m.functions.map (·.name)
      ++ m.functions.flatMap blockSymbols).Nodup :=
    hnames.append hsymbols fun s hs hs' => hplain s hs (hdot s hs')
  rw [(labels_emit hlines htyped).nodup_iff]
  unfold stubLabels
  split
  next hstub =>
    have hstart : "_start" ∉ m.functions.flatMap blockSymbols := fun hs => by
      cases (hdot _ hs : some '_' = some '.')
    rw [append_assoc, singleton_append, nodup_cons]
    refine ⟨fun hall _ hs => hall.1 (mem_append_left _ hs), fun hall => ⟨fun hs => ?_, hplace⟩⟩
    exact (mem_append.1 hs).elim (hall hstub) hstart
  next hstub => exact iff_of_true hplace fun heq => absurd heq hstub

/-- Without an entry point no label is defined twice. -/
theorem labels_nodup (hstub : o.startStub = false) : (labels lines).Nodup := by
  refine (labels_nodup_iff hlines htyped hnamed hnames hplain).2 fun heq => ?_
  rw [hstub] at heq
  cases heq

end

end Rv32

/-! ## Labels of programs -/

variable {us : List TopLevel}

namespace Lower

variable {m : Module} {symbols : Symbols} {functions : Frame Signature}

/-- The blocks of a module have known names. -/
theorem lowerUnits_named (h : (lowerUnits symbols functions us).result = .ok m) :
    ∀ f ∈ m.functions, ∀ b ∈ f.blocks, b.name ∈ blockNames := by
  induction us generalizing symbols functions m with
  | nil =>
    cases h
    exact fun f hf => absurd hf not_mem_nil
  | cons u us ih =>
    cases u with
    | decl d =>
      obtain ⟨gs, _, rest, -, hrest, rfl⟩ := lowerUnits_decl h
      exact fun f hf => ih hrest f hf
    | function d =>
      obtain ⟨g, rest, hg, hrest, rfl⟩ := lowerUnits_function h
      intro f hf b hb
      rcases mem_cons.1 hf with rfl | hf
      · obtain ⟨code, σ', hcode, rfl⟩ := lowerFunction_ok hg
        obtain ⟨l, hl, rfl⟩ := mem_mapIdx.1 hb
        exact functionCode_named hcode _ (Array.mem_toList_iff.1 (getElem_mem hl))
      · exact ih hrest f hf b hb

end Lower

end SysY
