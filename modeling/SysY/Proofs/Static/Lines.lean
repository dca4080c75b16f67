import SysY.Proofs.Static.Parts

/-!
# What is known at each line

The parts of a typed function say what is known inside of a block. Here this
is turned into a table with one entry for each line of the flattened function
(`Flat.Typed`): a line that stays in its block leads from its own entry to
that of the next line, and one that leaves it to entries that promise no more.
What is known has been assigned by an earlier line.
-/

namespace SysY.IR

open List

/-! ## Lines -/

/-- Whether control leaves the block at a line. -/
def Line.isTerminator : Line → Bool
  | instr i => i.op.isTerminator
  | copy .. => false

/-- The temporary to which a line gives a value. A phi gives none: the copies
have done so. -/
def Line.assigned? : Line → Option Temp
  | instr i => if i.op.isPhi then none else i.output
  | copy t _ => some t

theorem Line.output?_of_assigned? {line : Line} {t : Temp} (h : line.assigned? = some t) :
    line.output? = some t := by
  cases line with
  | instr i =>
    simp only [Line.assigned?] at h
    split at h
    · cases h
    · exact h
  | copy => exact h

/-- **What a line does to what is known** that stays in its block. -/
inductive LineStep (sig : Signatures) : Known → Line → Known → Prop
  | instr {S i S'} : Step sig S i S' → LineStep sig S (.instr i) S'
  | phi {S} {φ : Phi} : S.kinds φ.output = some .data → LineStep sig S (.instr φ.instr) S
  | copy {S t v} : v.Held S → S.kinds t = none → LineStep sig S (.copy t v) (S.busy.add t .data)

namespace LineStep

variable {sig : Signatures} {S S' : Known} {line : Line} {t : Temp} {k : Kind}

/-- What is known after a line was known before, or is assigned by it. -/
theorem kinds_of (h : LineStep sig S line S') (ht : S'.kinds t = some k) :
    line.assigned? = some t ∨ S.kinds t = some k := by
  cases h with
  | instr hstep =>
    refine (hstep.kinds_of ht).imp_left fun hout => ?_
    rw [Line.assigned?, hstep.not_isPhi]
    exact hout
  | phi => exact .inr ht
  | copy =>
    rcases Known.eq_or_of_kinds_add ht with ⟨rfl, -⟩ | ⟨-, ht⟩
    · exact .inl rfl
    · exact .inr ht

/-- A line reads what is known. -/
theorem known_of_operand (h : LineStep sig S line S') (ht : .temp t ∈ line.operands) :
    ∃ k, S.kinds t = some k := by
  cases h with
  | @instr i _ hstep =>
    refine hstep.known_of_operand ?_
    obtain ⟨out, op⟩ := i
    cases op with
    | phi => cases hstep.not_isPhi
    | _ => exact ht
  | phi => cases ht
  | copy hv =>
    cases mem_singleton.1 ht
    obtain ⟨-, k, hk, -⟩ := hv
    exact ⟨k, hk⟩

theorem not_isTerminator (h : LineStep sig S line S') : line.isTerminator = false := by
  cases h with
  | instr hstep => exact hstep.not_isTerminator
  | phi => rfl
  | copy => rfl

/-- A phi changes nothing. -/
theorem eq_of_phi {φ : Phi} (h : LineStep sig S (.instr φ.instr) S') : S' = S := by
  generalize hline : Line.instr φ.instr = line at h
  cases h with
  | phi => rfl
  | instr hstep =>
    cases hline
    cases hstep.not_isPhi
  | copy => cases hline

end LineStep

/-- Lines that stay in a block, one after the other. -/
inductive LineSteps (sig : Signatures) : Known → List Line → Known → Prop
  | nil {S} : LineSteps sig S [] S
  | cons {S line S1 lines S'} : LineStep sig S line S1 → LineSteps sig S1 lines S' →
    LineSteps sig S (line :: lines) S'

namespace LineSteps

variable {sig : Signatures} {S S1 S' : Known} {lines lines' : List Line}

theorem append (h : LineSteps sig S lines S1) (h' : LineSteps sig S1 lines' S') :
    LineSteps sig S (lines ++ lines') S' := by
  induction h with
  | nil => exact h'
  | cons hstep _ ih => exact .cons hstep (ih h')

theorem of_straight {n n' : Nat} {is : List Instr} (h : Straight sig S n is S' n') :
    LineSteps sig S (is.map .instr) S' := by
  induction h with
  | nil => exact .nil
  | define hstep _ ih | perform hstep _ ih => exact .cons (.instr hstep) ih

theorem not_isTerminator (h : LineSteps sig S lines S') {line : Line} (hline : line ∈ lines) :
    line.isTerminator = false := by
  induction h with
  | nil => cases hline
  | cons hstep _ ih =>
    rcases mem_cons.1 hline with rfl | hline
    · exact hstep.not_isTerminator
    · exact ih hline

/-- A table of what is known before each line. -/
theorem table (h : LineSteps sig S lines S') :
    ∃ known : Nat → Known, known 0 = S ∧ known lines.length = S' ∧
      ∀ n line, lines[n]? = some line → LineStep sig (known n) line (known (n + 1)) := by
  induction h with
  | @nil S => exact ⟨fun _ => S, rfl, rfl, fun n line h => by cases h⟩
  | @cons S line S1 lines S' hstep _ ih =>
    obtain ⟨known, hstart, hend, hsteps⟩ := ih
    refine ⟨fun n => n.casesOn S known, rfl, hend, fun n line' h => ?_⟩
    cases n with
    | zero =>
      cases h
      show LineStep sig S line (known 0)
      exact hstart ▸ hstep
    | succ n => exact hsteps n line' h

end LineSteps

/-! ## Parts -/

namespace Part

/-- The lines but the last. -/
def initLines (p : Part) : List Line := p.init.map .instr ++ p.copyLines

/-- What is known at the last line. -/
def leaving (p : Part) : Known :=
  match p.copy with
  | none => p.known
  | some (t, _) => p.known.busy.add t .data

theorem lines_eq (p : Part) : p.lines = p.initLines ++ [.instr ⟨none, p.last⟩] := rfl

/-- A table has the right entries for a part whose lines begin at `s`. -/
structure TypedAt (sig : Signatures) (known : Nat → Known) (s : Nat) (p : Part) : Prop where
  /-- Its entry is that of the first line. -/
  entry : known s = p.entry
  /-- Each line leads to the next one. -/
  step : ∀ i line, p.initLines[i]? = some line →
    LineStep sig (known (s + i)) line (known (s + i + 1))
  /-- The last entry. -/
  leaving : known (s + p.initLines.length) = p.leaving

variable {sig : Signatures} {p q : Part} {n n' : Nat}

theorem Permitted.known_below (h : p.Permitted sig n n') : p.known.Below n' :=
  h.body.known_below h.below

theorem Permitted.lineSteps (h : p.Permitted sig n n') :
    LineSteps sig p.entry p.initLines p.leaving := by
  have hbody := LineSteps.of_straight h.body
  have hphi : LineSteps sig p.entry (p.phi.toList.map fun φ => .instr φ.instr) p.entry := by
    cases hφ : p.phi with
    | none => exact .nil
    | some φ =>
      obtain ⟨rfl, -, hknown⟩ := h.phi φ hφ
      exact .cons (.phi hknown) .nil
  have hcopy : LineSteps sig p.known p.copyLines p.leaving := by
    unfold copyLines leaving
    cases hc : p.copy with
    | none => exact .nil
    | some c =>
      obtain ⟨t, v⟩ := c
      obtain ⟨hv, hle⟩ := h.copy t v hc
      refine .cons (.copy hv ?_) .nil
      cases hk : p.known.kinds t with
      | none => rfl
      | some k => exact absurd (h.known_below hk) (Nat.not_lt.2 hle)
  have hall := hphi.append (hbody.append hcopy)
  simpa only [initLines, init, map_append, map_map, append_assoc,
    Function.comp_def] using hall

theorem Permitted.known_sub (h : p.Permitted sig n n') : Known.Sub p.known p.leaving := by
  unfold leaving
  cases hc : p.copy with
  | none => exact .refl _
  | some c => exact Known.Sub.add_of_below (S := p.known.busy) h.known_below (h.copy _ _ hc).2 _

/-- What is known where a part ends is enough for where it leads. -/
theorem Leads.sub (h : p.Leads q) (hp : p.Permitted sig n n') : Known.Sub q.entry p.leaving := by
  obtain ⟨-, h⟩ := h
  cases hφ : q.phi with
  | none =>
    rw [hφ] at h
    exact h.trans hp.known_sub
  | some φ =>
    rw [hφ] at h
    obtain ⟨v, hc, hsub⟩ := h
    unfold leaving
    rw [hc]
    exact hsub

end Part

/-! ## Lines of parts -/

/-- The number of lines of parts. -/
def lineCount (ps : List Part) : Nat := (ps.flatMap (·.lines)).length

@[simp] theorem lineCount_nil : lineCount [] = 0 := rfl

@[simp] theorem lineCount_cons (p : Part) (ps : List Part) :
    lineCount (p :: ps) = p.lines.length + lineCount ps := by
  simp [lineCount]

@[simp] theorem lineCount_append (ps qs : List Part) :
    lineCount (ps ++ qs) = lineCount ps + lineCount qs := by
  simp [lineCount]

theorem Part.length_lines (p : Part) : p.lines.length = p.initLines.length + 1 := by
  rw [Part.lines_eq, length_append, length_singleton]

variable {sig : Signatures} {S S' : Known} {ps : List Part} {is : List Instr} {n n' : Nat} {i : Nat}
  {v : Value}

/-- **A table of what is known** before each line of parts. -/
theorem Parts.table (h : ∀ p ∈ ps, ∃ k k', p.Permitted sig k k') :
    ∃ known : Nat → Known, ∀ pre p post, ps = pre ++ p :: post →
      p.TypedAt sig known (lineCount pre) := by
  induction ps with
  | nil => exact ⟨fun _ => .start, fun pre p post h => by simp at h⟩
  | cons p ps ih =>
    obtain ⟨later, hlater⟩ := ih fun q hq => h q (mem_cons_of_mem _ hq)
    obtain ⟨_, _, hp⟩ := h p mem_cons_self
    obtain ⟨here, hstart, hend, hsteps⟩ := hp.lineSteps.table
    have hlen := p.length_lines
    refine ⟨fun n => if n < p.lines.length then here n else later (n - p.lines.length), ?_⟩
    intro pre q post heq
    cases pre with
    | nil =>
      cases heq
      constructor
      · simpa [hlen] using hstart
      · intro i line hi
        obtain ⟨hlt, -⟩ := List.getElem?_eq_some_iff.1 hi
        have hstep := hsteps i line hi
        rw [lineCount_nil, Nat.zero_add, if_pos (by omega), if_pos (by omega)]
        exact hstep
      · rw [lineCount_nil, Nat.zero_add, if_pos (by omega)]
        exact hend
    | cons p' pre =>
      cases heq
      have hq := hlater pre q post rfl
      have hshift : ∀ k, (if lineCount (p :: pre) + k < p.lines.length
          then here (lineCount (p :: pre) + k)
          else later (lineCount (p :: pre) + k - p.lines.length)) = later (lineCount pre + k) := by
        intro k
        rw [lineCount_cons, if_neg (by omega)]
        congr 1
        omega
      constructor
      · have hentry := hshift 0
        rw [Nat.add_zero, Nat.add_zero] at hentry
        exact hentry.trans hq.entry
      · intro i line hi
        show LineStep sig (if _ then _ else _) line (if _ then _ else _)
        rw [hshift i, Nat.add_assoc, hshift (i + 1)]
        exact hq.step i line hi
      · exact (hshift _).trans hq.leaving

/-- A line is a line of some part. -/
theorem exists_part_of_line {line : Line} (h : (ps.flatMap (·.lines))[n]? = some line) :
    ∃ pre p post i, ps = pre ++ p :: post ∧ n = lineCount pre + i ∧ p.lines[i]? = some line := by
  induction ps generalizing n with
  | nil => simp at h
  | cons p ps ih =>
    rw [flatMap_cons] at h
    by_cases hn : n < p.lines.length
    · rw [getElem?_append_left hn] at h
      exact ⟨[], p, ps, n, rfl, by simp, h⟩
    · rw [getElem?_append_right (Nat.not_lt.1 hn)] at h
      obtain ⟨pre, q, post, i, rfl, hi, hline⟩ := ih h
      refine ⟨p :: pre, q, post, i, rfl, ?_, hline⟩
      rw [lineCount_cons]
      omega

theorem lines_getElem?_part {pre post : List Part} {p : Part} {line : Line}
    (h : p.lines[i]? = some line) :
    ((pre ++ p :: post).flatMap (·.lines))[lineCount pre + i]? = some line := by
  have hlt := (List.getElem?_eq_some_iff.1 h).1
  unfold lineCount
  rw [flatMap_append, flatMap_cons, getElem?_append_right (Nat.le_add_right _ _),
    Nat.add_sub_cancel_left, getElem?_append_left hlt, h]

/-- A line of a part is one before the last, or the last. -/
theorem Part.lines_getElem? {p : Part} {line : Line} (h : p.lines[i]? = some line) :
    p.initLines[i]? = some line ∨ i = p.initLines.length ∧ line = .instr ⟨none, p.last⟩ := by
  rw [Part.lines_eq] at h
  rcases Nat.lt_or_ge i p.initLines.length with hi | hi
  · exact .inl (getElem?_append_left hi ▸ h)
  · rw [getElem?_append_right hi] at h
    obtain ⟨hlt, heq⟩ := List.getElem?_eq_some_iff.1 h
    have hzero : i - p.initLines.length = 0 := by simpa using hlt
    simp only [hzero, getElem_cons_zero] at heq
    exact .inr ⟨by omega, heq.symm⟩

/-! ## Starts of blocks -/

theorem find?_of_nodup {α β : Type} [DecidableEq α] {l : List (α × β)} (hnodup : (l.map (·.1)).Nodup)
    {a : α} {b : β} (h : (a, b) ∈ l) : l.find? (·.1 = a) = some (a, b) := by
  induction l with
  | nil => cases h
  | cons c l ih =>
    rw [map_cons, nodup_cons] at hnodup
    rcases mem_cons.1 h with rfl | h
    · simp
    · have hne : c.1 ≠ a := fun heq => hnodup.1 (heq ▸ mem_map_of_mem h)
      rw [find?_cons_of_neg (by simpa using hne), ih hnodup.2 h]

theorem Flat.map_rangesFrom (s : Nat) (bs : List FlatBlock) :
    (Flat.rangesFrom s bs).map (·.1) = bs.map (·.label) := by
  induction bs generalizing s with
  | nil => rfl
  | cons b bs ih => exact congrArg (b.label :: ·) (ih _)

theorem Flat.mem_rangesFrom (s : Nat) (pre : List Part) (p : Part) (post : List Part) :
    (p.label, s + lineCount pre, s + lineCount pre + p.lines.length)
      ∈ Flat.rangesFrom s ((pre ++ p :: post).map (·.flat)) := by
  induction pre generalizing s with
  | nil => exact mem_cons_self
  | cons q pre ih =>
    rw [lineCount_cons, ← Nat.add_assoc]
    exact mem_cons_of_mem _ (ih _)

/-- A block starts after the lines of the blocks before it. -/
theorem Flat.start?_part {pre post : List Part} {p : Part}
    (hnodup : ((pre ++ p :: post).map (·.label)).Nodup) :
    Flat.start? ⟨(pre ++ p :: post).map (·.flat)⟩ p.label = some (lineCount pre) := by
  have hmem := Flat.mem_rangesFrom 0 pre p post
  rw [Nat.zero_add] at hmem
  have hkeys : ((Flat.rangesFrom 0 ((pre ++ p :: post).map (·.flat))).reverse.map (·.1)).Nodup := by
    rw [map_reverse, Flat.map_rangesFrom, nodup_reverse, map_map]
    exact hnodup
  unfold Flat.start? Flat.ranges
  rw [find?_of_nodup hkeys (mem_reverse.2 hmem)]
  rfl

/-! ## Assignments -/

/-- Some line assigns a temporary. -/
def Assigns (lines : List Line) (t : Temp) : Prop := ∃ line ∈ lines, line.output? = some t

theorem Assigns.mono {lines lines' : List Line} {t : Temp} (h : Assigns lines t)
    (hsub : lines ⊆ lines') : Assigns lines' t :=
  h.imp fun _ hline => ⟨hsub hline.1, hline.2⟩

/-- A part assigns the temporaries that are handed out in its body. -/
theorem Part.Permitted.assigns {p : Part} (h : p.Permitted sig n n') {t : Temp}
    (hn : n + p.phi.toList.length ≤ t) (ht : t < n') : Assigns p.lines t := by
  obtain ⟨i, hi, hout⟩ := h.body.output_iff.2 ⟨hn, ht⟩
  refine ⟨.instr i, ?_, hout⟩
  simp [Part.lines, Part.init, hi]

theorem Part.assigns_copy {p : Part} {t : Temp} (h : p.copy = some (t, v)) : Assigns p.lines t :=
  ⟨.copy t v, by simp [Part.lines, Part.copyLines, h], rfl⟩

/-- **What a part may know has been assigned before it.** -/
theorem Parts.assigned (h : Parts sig n ps n') (before : List Line)
    (hbefore : ∀ t < n, Assigns before t)
    (hhead : ∀ p φ, ps.head? = some p → p.phi = some φ → Assigns before φ.output)
    {pre post : List Part} {p : Part} (heq : ps = pre ++ p :: post) :
    ∃ k k', p.Permitted sig k k' ∧ k' ≤ n' ∧
      ∀ t < k + p.phi.toList.length, Assigns (before ++ pre.flatMap (·.lines)) t := by
  have hentry : ∀ {n n' : Nat} {before : List Line} {p : Part}, p.Permitted sig n n' →
      (∀ t < n, Assigns before t) → (∀ φ, p.phi = some φ → Assigns before φ.output) →
      ∀ t < n + p.phi.toList.length, Assigns before t := by
    intro n n' before p hp hbefore hφ t ht
    rcases Nat.lt_or_ge t n with hlt | hge
    · exact hbefore t hlt
    · cases hphi : p.phi with
      | none =>
        rw [hphi] at ht
        exact absurd ht (Nat.not_lt.2 hge)
      | some φ =>
        rw [hphi] at ht
        have heq : φ.output = t := by
          rw [(hp.phi φ hphi).1]
          exact Nat.le_antisymm hge (Nat.le_of_lt_succ ht)
        exact heq ▸ hφ φ hphi
  induction h generalizing before pre with
  | @last n q n' hq =>
    obtain ⟨rfl, rfl, rfl⟩ : pre = [] ∧ q = p ∧ post = [] := by
      cases pre with
      | nil => simpa [eq_comm] using heq
      | cons => simp at heq
    refine ⟨n, n', hq, Nat.le_refl _, ?_⟩
    rw [flatMap_nil, append_nil]
    exact hentry hq hbefore fun φ => hhead q φ rfl
  | @cons n q n1 r ps n' hq hjoin hrest ih =>
    have hfirst := hentry hq hbefore fun φ => hhead q φ rfl
    cases pre with
    | nil =>
      obtain ⟨rfl, -⟩ := List.cons.inj heq
      refine ⟨n, n1, hq, hrest.le, ?_⟩
      rw [flatMap_nil, append_nil]
      exact hfirst
    | cons q' pre =>
      obtain ⟨rfl, htail⟩ := List.cons.inj heq
      have hafter : ∀ t < n1, Assigns (before ++ q.lines) t := by
        intro t ht
        rcases Nat.lt_or_ge t (n + q.phi.toList.length) with hlt | hge
        · exact (hfirst t hlt).mono (subset_append_left _ _)
        · exact (hq.assigns hge ht).mono (subset_append_right _ _)
      have hnext : ∀ p φ, (r :: ps).head? = some p → p.phi = some φ →
          Assigns (before ++ q.lines) φ.output := by
        rintro _ φ ⟨⟩ hφ
        obtain ⟨v, hcopy⟩ := hjoin φ hφ
        exact (Part.assigns_copy hcopy).mono (subset_append_right _ _)
      rw [flatMap_cons, ← append_assoc]
      exact ih (before ++ q.lines) hafter hnext htail

/-- The temporary that is the result of an instruction; a copy has none of its
own. -/
def Line.result? : Line → Option Temp
  | instr i => i.output
  | copy .. => none

theorem Part.results_lines (p : Part) :
    p.lines.filterMap (·.result?) = p.code.filterMap (·.output) := by
  have hinstrs : ∀ is : List Instr,
      (is.map Line.instr).filterMap (·.result?) = is.filterMap (·.output) := by
    intro is
    rw [filterMap_map]
    rfl
  have hcopies : p.copyLines.filterMap (·.result?) = [] := by
    unfold Part.copyLines
    cases p.copy <;> rfl
  rw [Part.lines, filterMap_append, filterMap_append, hinstrs, hcopies, append_nil,
    Part.code, filterMap_append]
  rfl

theorem Part.TypedAt.assigned {known : Nat → Known} {s : Nat} {p : Part} {lines : List Line}
    (h : p.TypedAt sig known s)
    (hentry : ∀ t k, p.entry.kinds t = some k → Assigns (lines.take s) t)
    (hlines : ∀ j line, p.lines[j]? = some line → lines[s + j]? = some line)
    (hi : i ≤ p.initLines.length) {t : Temp} {k : Kind} (ht : (known (s + i)).kinds t = some k) :
    Assigns (lines.take (s + i)) t := by
  induction i with
  | zero => exact hentry t k (h.entry ▸ ht)
  | succ i ih =>
    have hline : p.initLines[i]? = some (p.initLines.get ⟨i, hi⟩) := getElem?_eq_getElem hi
    rcases (h.step i _ hline).kinds_of ht with hout | hold
    · refine ⟨_, mem_of_getElem? (i := s + i) ?_, Line.output?_of_assigned? hout⟩
      rw [getElem?_take_of_lt (by omega)]
      refine hlines i _ ?_
      rw [p.lines_eq, getElem?_append_left hi, hline]
    · exact (ih (Nat.le_of_lt hi) hold).mono (take_subset_take_left _ (by omega))

/-! ## Typed flattened functions -/

/-- **A typed flattened function** with a number of temporaries, and a table of
what is known before each line. -/
structure Flat.Typed (sig : Signatures) (temps : Nat) (flat : Flat) (known : Nat → Known) : Prop where
  /-- Nothing is known at the start but the arguments. -/
  start : known 0 = .start
  /-- There is a first line. -/
  nonempty : 0 < flat.lines.length
  /-- A line that stays in its block leads to the next one. -/
  step : ∀ ⦃n line⦄, flat.lines[n]? = some line → line.isTerminator = false →
    LineStep sig (known n) line (known (n + 1)) ∧ n + 1 < flat.lines.length
  /-- A line that leaves its block leads to lines where no more is known. -/
  leave : ∀ ⦃n line⦄, flat.lines[n]? = some line → line.isTerminator = true →
    ∃ op, line = .instr ⟨none, op⟩ ∧ op.Ends (known n) ∧
      ∀ l ∈ op.successors, ∃ s, flat.start? l = some s ∧ s < flat.lines.length ∧
        (known s).args = false ∧ Known.Sub (known s) (known n)
  /-- What is known has been assigned by an earlier line. -/
  assigned : ∀ ⦃n t k⦄, n < flat.lines.length → (known n).kinds t = some k →
    Assigns (flat.lines.take n) t
  /-- The results of instructions are numbered in order. -/
  results : flat.lines.filterMap (·.result?) = List.range temps
  /-- What is copied into is the result of a phi. -/
  copied : ∀ ⦃t v⦄, .copy t v ∈ flat.lines → ∃ φ : Phi, φ.output = t ∧ .instr φ.instr ∈ flat.lines

namespace Function.Typed

variable {f : Function}

theorem lines_eq (ps : List Part) : Flat.lines ⟨ps.map (·.flat)⟩ = ps.flatMap (·.lines) :=
  flatMap_map ..

/-- A copy is made for a phi. -/
theorem exists_phi (h : f.Typed sig ps) {p : Part} (hp : p ∈ ps) {t : Temp}
    (hcopy : p.copy = some (t, v)) :
    ∃ q ∈ ps, ∃ φ, q.phi = some φ ∧ φ.output = t ∧
      (p.label = φ.fromA ∧ v = φ.a ∨ p.label = φ.fromB ∧ v = φ.b) := by
  have hmade : (p.label, Line.copy t v) ∈ partCopies ps := by
    refine mem_flatMap.2 ⟨p, hp, mem_map_of_mem ?_⟩
    simp [Part.copyLines, hcopy]
  obtain ⟨q, hq, hmem⟩ := mem_flatMap.1 (h.copies.mem_iff.2 hmade)
  obtain ⟨i, hi, hasked⟩ := mem_flatMap.1 hmem
  obtain ⟨_, _, hpart⟩ := h.parts.permitted hq
  have hphi : ∃ φ, q.phi = some φ ∧ i = φ.instr := by
    simp only [Part.code, Part.init, mem_append, mem_map, Option.mem_toList,
      mem_singleton] at hi
    obtain (⟨φ, hφ, rfl⟩ | hi) | rfl := hi
    · exact ⟨φ, hφ, rfl⟩
    · rw [hpart.body.copies hi] at hasked
      cases hasked
    · cases hasked
  obtain ⟨φ, hφ, rfl⟩ := hphi
  refine ⟨q, hq, φ, hφ, ?_⟩
  simp only [Phi.instr, Instr.copies, mem_cons, Prod.mk.injEq, Line.copy.injEq,
    not_mem_nil, or_false] at hasked
  rcases hasked with ⟨hl, rfl, rfl⟩ | ⟨hl, rfl, rfl⟩
  · exact ⟨rfl, .inl ⟨hl, rfl⟩⟩
  · exact ⟨rfl, .inr ⟨hl, rfl⟩⟩

/-- **A typed function is typed line by line.** -/
theorem exists_table (h : f.Typed sig ps) :
    ∃ known, Flat.Typed sig f.temps ⟨ps.map (·.flat)⟩ known ∧
      ∀ pre p post, ps = pre ++ p :: post → p.TypedAt sig known (lineCount pre) := by
  obtain ⟨known, hknown⟩ := Parts.table fun p hp => h.parts.permitted hp
  have hnodup := h.nodup
  refine ⟨known, ?_, hknown⟩
  constructor
  case start =>
    obtain ⟨p, hhead, -, hentry, -⟩ := h.first
    obtain ⟨post, rfl⟩ := head?_eq_some_iff.1 hhead
    exact (hknown [] p post rfl).entry.trans hentry
  case nonempty =>
    obtain ⟨p, hhead, -⟩ := h.first
    obtain ⟨post, rfl⟩ := head?_eq_some_iff.1 hhead
    rw [lines_eq, flatMap_cons, length_append, p.length_lines]
    omega
  case step =>
    intro n line hline hterm
    rw [lines_eq] at hline ⊢
    obtain ⟨pre, p, post, i, rfl, rfl, hi⟩ := exists_part_of_line hline
    rcases Part.lines_getElem? hi with hinit | ⟨-, rfl⟩
    · refine ⟨(hknown pre p post rfl).step i line hinit, ?_⟩
      have hlt := (List.getElem?_eq_some_iff.1 hinit).1
      have hlen := p.length_lines
      rw [← lineCount, lineCount_append, lineCount_cons]
      omega
    · obtain ⟨_, _, hp⟩ := h.parts.permitted (p := p) (by simp)
      rw [Line.isTerminator, hp.last.isTerminator] at hterm
      cases hterm
  case leave =>
    intro n line hline hterm
    rw [lines_eq] at hline ⊢
    obtain ⟨pre, p, post, i, hps, rfl, hi⟩ := exists_part_of_line hline
    have hmem : p ∈ ps := by simp [hps]
    obtain ⟨_, _, hp⟩ := h.parts.permitted hmem
    have hat := hknown pre p post hps
    rcases Part.lines_getElem? hi with hinit | ⟨rfl, rfl⟩
    · rw [(hat.step i line hinit).not_isTerminator] at hterm
      cases hterm
    · refine ⟨p.last, rfl, ?_, fun l hl => ?_⟩
      · rw [hat.leaving]
        exact hp.last.mono hp.known_sub
      · obtain ⟨q, hq, rfl, hleads⟩ := h.leads p hmem l hl
        obtain ⟨pre', post', hps'⟩ := append_of_mem hq
        have hentry := (hknown pre' q post' hps').entry
        have hstart : Flat.start? ⟨ps.map (·.flat)⟩ q.label = some (lineCount pre') := by
          rw [hps']
          exact Flat.start?_part (hps' ▸ hnodup)
        refine ⟨lineCount pre', hstart, ?_, ?_, ?_⟩
        · have hlen := q.length_lines
          rw [← lineCount, hps', lineCount_append, lineCount_cons]
          omega
        · rw [hentry]
          exact hleads.1
        · rw [hentry, hat.leaving]
          exact hleads.sub hp
  case assigned =>
    intro n t k hn ht
    rw [lines_eq] at hn ⊢
    obtain ⟨line, hline⟩ : ∃ line, (ps.flatMap (·.lines))[n]? = some line :=
      ⟨_, getElem?_eq_getElem hn⟩
    obtain ⟨pre, p, post, i, hps, rfl, hi⟩ := exists_part_of_line hline
    obtain ⟨_, _, hp, -, hbefore⟩ := h.parts.assigned [] nofun
      (fun p φ hhead hφ => by
        obtain ⟨q, hq, -, -, hnone⟩ := h.first
        cases hq.symm.trans hhead
        rw [hnone] at hφ
        cases hφ) hps
    have htake : (ps.flatMap (·.lines)).take (lineCount pre) = pre.flatMap (·.lines) := by
      rw [hps, flatMap_append]
      exact take_left
    have hi' : i ≤ p.initLines.length := by
      have hlt := (List.getElem?_eq_some_iff.1 hi).1
      rw [p.length_lines] at hlt
      omega
    refine (hknown pre p post hps).assigned (fun t k ht => ?_) (fun j line hj => ?_) hi' ht
    · rw [htake]
      exact hbefore t (hp.below ht)
    · rw [hps]
      exact lines_getElem?_part hj
  case results =>
    rw [lines_eq, filterMap_flatMap, flatMap_congr fun p _ => p.results_lines,
      ← filterMap_flatMap, h.outputs]
  case copied =>
    intro t v hmem
    rw [lines_eq] at hmem ⊢
    obtain ⟨p, hp, hline⟩ := mem_flatMap.1 hmem
    have hcopy : p.copy = some (t, v) := by
      simpa [Part.lines, Part.copyLines] using hline
    obtain ⟨q, hq, φ, hφ, hout, -⟩ := h.exists_phi hp hcopy
    refine ⟨φ, hout, mem_flatMap.2 ⟨q, hq, ?_⟩⟩
    simp [Part.lines, Part.init, hφ]

end Function.Typed

end SysY.IR
