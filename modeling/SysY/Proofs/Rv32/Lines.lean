import SysY.Proofs.FlatRun
import SysY.Proofs.Rv32.Change

/-!
# Lines keep the relation

The code of each line that stays in its block, except calls, takes a state
that is related to a run to one that is related to the run after the line
(`Related.step`, `Related.copy`). What the line reads has its word in a place
or is the address of an array or a global variable (`Standing.word`); what it
writes goes to the place of a temporary or through an address, and everything
else stays where it is.
-/

namespace SysY

open IR List Option

namespace Rv32

namespace Activation

variable {img : Image} {m : Module} {A : Activation img m} {g g' : Ghost} {mem mem' : Memory}
  {temps temps' : Temps} {c c' : Cpu} {o : Object} {t u : Temp} {k : Kind} {n n' a b x : Nat}
  {v : Value} {y : Val} {w : Int32} {pl : Place Reg} {p : Pointer} {line : Line}

/-! ## Operands -/

/-- Temporaries that the line has among its operands are touched by it. -/
theorem touched (hline : A.code.flat.lines[n]? = some line) (hv : v ∈ line.operands) :
    ∀ t, v = .temp t → (t, n) ∈ Liveness.touches A.code.flat.lines := by
  rintro t rfl
  exact Liveness.mem_touches_of_operand hline hv

variable {kind : TempKind} {code : List Instr}

/-- What is in place at a line that touches the temporary. -/
theorem InPlace.word (h : A.InPlace g n mem c t y)
    (hkind : A.code.home.kinds[t]? = some kind) (hne : ∀ first, kind ≠ .array first)
    (ht : (t, n) ∈ Liveness.touches A.code.flat.lines) :
    ∃ w, Home.Word img A.code.home A.sp c (.temp t) w ∧ IsWord g.loc mem.length y w := by
  obtain ⟨i, pl, hi, hsound, hpl⟩ := A.code.exists_place hkind hne ht
  exact ⟨_, .place hkind hne hpl, h hpl hi (hsound.touch ht).2⟩

section

variable (h : A.Standing g n temps mem c) (hv : v.Usable (A.code.known n))
  (ht : ∀ t, v = .temp t → (t, n) ∈ Liveness.touches A.code.flat.lines)

include h hv ht

/-- **The word of an operand** stands for its value. -/
theorem Standing.word (heval : v.eval m A.args temps = some y) :
    ∃ w, Home.Word img A.code.home A.sp c v w ∧ IsWord g.loc mem.length y w := by
  cases v with
  | const n =>
    cases heval
    exact ⟨n, .const n, rfl⟩
  | arg i => cases hv
  | global name =>
    obtain ⟨p, hp, rfl⟩ := map_eq_some_iff.1 heval
    obtain ⟨hext, hloc, hsymbol⟩ := A.globals hp
    have hbase : p.base < A.start.length := ext_base_lt hext
    refine ⟨_, .global hsymbol, Nat.lt_of_lt_of_le hbase h.laid.grown, ?_⟩
    rw [h.laid.agrees _ hbase, hloc, globalFrom_offset hp, ← Int32.ofInt_eq_ofNat]
    simp
  | temp t =>
    cases heval
    obtain ⟨k, hk, hcell⟩ := hv
    have hsits := h.sits hk
    cases k with
    | cell | pointerCell => cases hcell
    | pointer | data => exact hsits.place.word hsits.kind nofun (ht t rfl)
    | object words =>
      obtain ⟨o, ho, hsize, haddr⟩ := hsits
      have hmade := h.laid.made ho
      obtain ⟨j, hj, hloc⟩ := hmade.line
      refine ⟨_, .array (A.code.kind_array hj), ?_⟩
      rw [haddr, ← hloc, ← Int32.ofInt_eq_ofNat]
      refine ⟨h.laid.live_base_lt (.inr ⟨t, ho⟩), ?_⟩
      simp [Pointer.first]

/-- An operand that is an integer is its own word. -/
theorem Standing.int {i : Int32}
    (heval : v.int? m A.args temps = some i) : Home.Word img A.code.home A.sp c v i := by
  obtain ⟨w, hw, hword⟩ := h.word hv ht (Value.eval_of_int? heval)
  cases hword
  exact hw

end

/-- An operand that is known to be an address points into an object in use. -/
theorem Standing.live (h : A.Standing g n temps mem c) (hv : v.Points (A.code.known n))
    (heval : v.addr? m A.args temps = some p) : A.Live g (pointee p) := by
  have hval := Value.eval_of_addr? heval
  cases v with
  | const | arg => cases hv
  | global name =>
    obtain ⟨q, hq, heq⟩ := map_eq_some_iff.1 hval
    cases heq
    exact .inl (A.globals hq).1
  | temp t =>
    have htemp : temps t = .addr p := Option.some.inj hval
    rcases hv with hk | ⟨words, hk⟩
    · exact (h.sits hk).points rfl p htemp
    · obtain ⟨o, ho, rfl, haddr⟩ := h.sits hk
      cases htemp.symm.trans haddr
      exact .inr ⟨t, ho⟩

/-- An address is not that of a scalar variable. -/
theorem Standing.not_scalar (h : A.Standing g n temps mem c) (hv : v.Points (A.code.known n))
    (s : Temp) (heq : v = .temp s) : A.code.home.kinds[s]? ≠ some .scalar := by
  subst heq
  intro hscalar
  rcases hv with hk | ⟨words, hk⟩
  · cases hscalar.symm.trans (h.sits hk).kind
  · obtain ⟨o, ho, -⟩ := h.sits hk
    obtain ⟨j, hj, -⟩ := (h.laid.made ho).line
    cases hscalar.symm.trans (A.code.kind_array hj)

/-! ## Results -/

/-- **A place that a line writes is not that of another temporary** which is
still in use after it. -/
theorem placeAt_ne (hline : A.code.flat.lines[n]? = some line)
    (ht : (t, n) ∈ Liveness.touches A.code.flat.lines)
    (hkind : A.code.home.kinds[t]? = some kind) (hne : ∀ first, kind ≠ .array first)
    (hu : (A.code.known n).kinds u = some k) (hut : u ≠ t) {kind' : TempKind}
    (hkind' : A.code.home.kinds[u]? = some kind') (hne' : ∀ first, kind' ≠ .array first)
    {j : Interval} (hj : intervalAt A.code.intervals u = some j) (hstop : n ≤ j.stop) :
    placeAt A.code.home.plan.places u ≠ placeAt A.code.home.plan.places t := by
  have hn := (List.getElem?_eq_some_iff.1 hline).1
  obtain ⟨i, -, hi, hsound, -⟩ := A.code.exists_place hkind hne ht
  obtain ⟨l, -, hl⟩ := A.code.typed.exists_touch hn ⟨k, hu⟩
  obtain ⟨j', -, hj', hsound', -⟩ := A.code.exists_place hkind' hne' hl
  cases hj.symm.trans hj'
  have hstart := A.code.typed.start_lt hsound' hn ⟨k, hu⟩
  have htouch := hsound.touch ht
  have hcovers : j.covers n = true := by simp [Interval.covers, Nat.le_of_lt hstart, hstop]
  exact A.code.apart hut hj hi hcovers (by simp [Interval.covers, htouch])

section

variable (hpl : placeAt A.code.home.plan.places t = some pl)
  (hlike : (A.code.home.put A.sp c w pl).Like c')

include hpl hlike

/-- A temporary stays where it is when a word is put into the place of another
one. -/
theorem Sits.put (h : A.Sits g n temps mem c u k) (hu : (A.code.known n).kinds u = some k)
    (hline : A.code.flat.lines[n]? = some line) (ht : (t, n) ∈ Liveness.touches A.code.flat.lines)
    (hkind : A.code.home.kinds[t]? = some kind) (hne : ∀ first, kind ≠ .array first)
    (hut : u ≠ t) (htemps : temps' u = temps u) (hlen : mem'.length = mem.length)
    (hcell : A.code.home.kinds[u]? = some .scalar → ∀ b, g.owner b = u → mem'[b]? = mem[b]?) :
    A.Sits g (n + 1) temps' mem' c' u k := by
  refine h.keep htemps (Nat.le_of_eq hlen.symm) (fun _ _ => rfl) (fun _ _ => rfl) rfl
    (fun _ _ ho => ho) (fun hk b _ _ _ hb => hcell hk b hb) fun kind' hkind' hne' pl' j hpl' hj hstop => ?_
  refine ⟨Nat.le_of_succ_le hstop, ?_⟩
  rw [Home.placeWord_like A.stands hpl' hlike, Home.placeWord_put_of_ne]
  intro heq
  refine placeAt_ne hline ht hkind hne hu hut hkind' hne' hj (Nat.le_of_succ_le hstop) ?_
  rw [hpl', hpl, heq]

/-- What is put into a place is there. -/
theorem InPlace.of_put (hw : IsWord g.loc mem.length y w) : A.InPlace g n mem c' t y := by
  intro pl' i hpl' _ _
  cases hpl.symm.trans hpl'
  rw [Home.placeWord_like A.stands hpl hlike, Home.placeWord_put_self A.stands hpl]
  exact hw

/-- **A line that computes a value** leads to the next one, once the word of the
value is in its place. -/
theorem Standing.define (h : A.Standing g n temps mem c)
    (hline : A.code.flat.lines[n]? = some line) (ht : line.output? = some t)
    (hkind : A.code.home.kinds[t]? = some .value)
    (hknown : A.code.known (n + 1) = (A.code.known n).busy.add t k)
    (hk : k = .data ∨ k = .pointer ∧ ∀ p, y = .addr p → A.Live g (pointee p))
    (hw : IsWord g.loc mem.length y w) : A.Related g (n + 1) (temps.assign (some t) y) mem c' := by
  have htouch := Liveness.mem_touches_of_output hline ht
  refine ⟨⟨(h.kept.put hpl w).like hlike, (h.laid.put hpl w).like hlike, fun u k' hu => ?_⟩, ?_⟩
  · rw [hknown] at hu
    obtain ⟨rfl, rfl⟩ | ⟨hut, hu⟩ := Known.eq_or_of_kinds_add hu
    · have hplace : A.InPlace g (n + 1) mem c' u (temps.assign (some u) y u) := by
        rw [Temps.assign_self]
        exact .of_put hpl hlike hw
      rcases hk with rfl | ⟨rfl, hlive⟩
      · exact ⟨hkind, hplace, nofun⟩
      · refine ⟨hkind, hplace, fun _ p hp => hlive p ?_⟩
        rwa [Temps.assign_self] at hp
    · exact (h.sits hu).put hpl hlike hu hline htouch hkind nofun hut (Temps.assign_of_ne hut) rfl
        fun _ _ _ => rfl
  · rw [hknown]
    nofun

/-! ## Stores -/

/-- Arguments are still there when a word is put into a place. -/
theorem Passed.put (h : A.Passed g mem c) (hlen : mem'.length = mem.length) :
    A.Passed g mem' c' := by
  intro i y hi
  obtain ⟨hpoints, w', hword, hisWord⟩ := h hi
  refine ⟨hpoints, w', ?_, hlen ▸ hisWord⟩
  refine Home.Word.like A.stands ?_ hlike
  cases hword with
  | registerArg i =>
    have hget : (A.code.home.put A.sp c w pl).get (.a i) = c.get (.a i) := by
      cases pl with
      | register r =>
        obtain ⟨j, rfl⟩ := A.stands.place_register hpl
        exact Cpu.get_set_of_ne (q := .a i) (r := .s j) nofun
      | slot slot => rfl
    exact hget ▸ .registerArg i
  | stackArg hi hlt =>
    have hmem : (A.code.home.put A.sp c w pl).mem (A.sp + A.code.home.frame.size + 4 * (i - 8))
        = c.mem (A.sp + A.code.home.frame.size + 4 * (i - 8)) := by
      cases pl with
      | register r => rfl
      | slot slot =>
        have hslot := A.code.frame.slot (A.code.slot hpl)
        have hareas := A.code.frame.areas
        exact Cpu.mem_poke_of_ne (by omega)
    exact hmem ▸ .stackArg hi hlt

end

theorem sits_iff_isCell (hk : k.isCell = true) : A.Sits g n temps mem c t k ↔ A.IsCell g n temps mem c t k := by
  cases k with
  | cell | pointerCell => exact .rfl
  | object | pointer | data => cases hk

/-- **A store to a scalar variable** puts the word into its place. -/
theorem Related.assign (h : A.Related g n temps mem c)
    (hline : A.code.flat.lines[n]? = some line) (ht : .temp t ∈ line.operands)
    (hk : (A.code.known n).kinds t = some k) (hisCell : k.isCell = true)
    (hkinds : (A.code.known (n + 1)).kinds = (A.code.known n).kinds)
    (hargs : (A.code.known (n + 1)).args = true → (A.code.known n).args = true)
    (hpoints : k = .pointerCell → ∀ p, y = .addr p → A.ext (pointee p))
    (hb : temps t = .addr (.first b 1)) (hpl : placeAt A.code.home.plan.places t = some pl)
    (hw : IsWord g.loc mem.length y w) (hlike : (A.code.home.put A.sp c w pl).Like c') :
    A.Related g (n + 1) temps (mem.set b (some y)) c' := by
  have htouch := Liveness.mem_touches_of_operand hline ht
  obtain ⟨hkind, b', haddr, hnew, hlt, howner, -⟩ := (sits_iff_isCell hisCell).1 (h.sits hk)
  cases hb.symm.trans haddr
  have hlaid := h.laid.setCell hnew (fun o ho => h.laid.cell_not_has hkind hnew howner ho) y
  refine ⟨⟨(h.kept.put hpl w).like hlike, (hlaid.put hpl w).like hlike, fun u k' hu => ?_⟩,
    fun ha => (h.passed (hargs ha)).put hpl hlike length_set⟩
  rw [hkinds] at hu
  by_cases hut : u = t
  · subst hut
    cases hk.symm.trans hu
    refine (sits_iff_isCell hisCell).2 ⟨hkind, b, haddr, hnew, by rwa [length_set], howner, fun v hv => ?_⟩
    rw [getElem?_set_self hlt] at hv
    cases hv
    refine ⟨.of_put hpl hlike ?_, hpoints⟩
    rwa [length_set]
  · refine (h.sits hu).put hpl hlike hu hline htouch hkind nofun hut rfl length_set ?_
    intro _ b' hb'
    refine getElem?_set_ne ?_
    rintro rfl
    exact hut (hb'.symm.trans howner)

/-- **A store into an object** leaves temporaries alone. -/
theorem Standing.store (h : A.Standing g n temps mem c)
    (hknown : A.code.known (n + 1) = (A.code.known n).busy) (ho : A.Live g o) (ha : o.Has a)
    (hw : IsWord g.loc mem.length y w)
    (hlike : (c.poke (g.loc o.base + 4 * (a - o.base)) w).Like c') :
    A.Related g (n + 1) temps (mem.set a (some y)) c' := by
  refine ⟨⟨(h.kept.poke h.laid ho (ha.spans g.loc) w).like hlike, (h.laid.store ho ha hw).like hlike,
    fun u k hu => ?_⟩, ?_⟩
  · rw [hknown, Known.kinds_busy] at hu
    refine (h.sits hu).keep rfl (Nat.le_of_eq length_set.symm) (fun _ _ => rfl) (fun _ _ => rfl)
      rfl (fun _ _ ho => ho) (fun hk b _ hb _ howner => ?_) fun kind _ _ pl j hpl hj hstop => ?_
    · refine getElem?_set_ne ?_
      rintro rfl
      exact h.laid.cell_not_has hk hb howner ho ha
    · refine ⟨Nat.le_of_succ_le hstop, ?_⟩
      rw [Home.placeWord_like A.stands hpl hlike]
      cases pl with
      | register r => rfl
      | slot slot =>
        refine Cpu.mem_poke_of_ne ?_
        intro heq
        exact h.laid.slot_not_spanned hpl ho (heq ▸ ha.spans g.loc)
  · rw [hknown]
    nofun

/-! ## Room -/

theorem Passed.grow (h : A.Passed g mem c) (hlen : mem.length ≤ mem'.length)
    (hloc : ∀ a < mem.length, g'.loc a = g.loc a) : A.Passed g' mem' c := by
  intro i y hi
  obtain ⟨hpoints, w, hword, hisWord⟩ := h hi
  exact ⟨hpoints, w, hword, hisWord.mono hlen hloc⟩

/-- A new scalar variable: there is nothing in its place yet. -/
theorem Related.alloca (h : A.Related g n temps mem c)
    (hline : A.code.flat.lines[n]? = some (.instr ⟨some t, .alloca⟩)) (hk : k.isCell = true)
    (hknown : A.code.known (n + 1) = (A.code.known n).add t k) :
    A.Related (g.take t mem.length) (n + 1) (temps.assign (some t) (.addr (.first mem.length 1)))
      (mem.grow 1) c := by
  have hlen : mem.length ≤ (mem.grow 1).length := by
    rw [length_grow]
    exact Nat.le_succ _
  refine ⟨⟨h.kept, h.laid.alloca t, fun u k' hu => ?_⟩, fun ha => ?_⟩
  · rw [hknown] at hu
    obtain ⟨rfl, rfl⟩ | ⟨hut, hu⟩ := Known.eq_or_of_kinds_add hu
    · refine (sits_iff_isCell hk).2 ⟨A.code.kind_alloca hline, _, Temps.assign_self, h.laid.grown, ?_,
        if_neg (Nat.lt_irrefl _), fun v hv => absurd hv (getElem?_grow_ne (Nat.le_refl _))⟩
      rw [length_grow]
      exact Nat.lt_succ_self _
    · exact (h.sits hu).keep (Temps.assign_of_ne hut) hlen (fun _ _ => rfl) (fun a ha => if_pos ha)
        rfl (fun _ _ ho => ho) (fun _ b _ _ hb _ => getElem?_grow_of_lt hb)
        fun _ _ _ _ _ _ _ hstop => ⟨Nat.le_of_succ_le hstop, rfl⟩
  · rw [hknown] at ha
    exact (h.passed ha).grow hlen fun _ _ => rfl

/-- A new array. Addresses into the one that the line has made before are not
known any more. -/
theorem Standing.array (h : A.Standing g n temps mem c) {words : Nat}
    (hline : A.code.flat.lines[n]? = some (.instr ⟨some t, .array words⟩)) (hpos : 0 < words)
    (hknown : A.code.known (n + 1) = (A.code.known n).settled.add t (.object words)) :
    ∃ g', A.Related g' (n + 1) (temps.assign (some t) (.addr (.first mem.length words)))
      (mem.grow words) c := by
  have hlen : mem.length ≤ (mem.grow words).length := by
    rw [length_grow]
    exact Nat.le_add_right _ _
  refine ⟨_, ⟨h.kept, h.laid.array hline hpos, fun u k hu => ?_⟩, ?_⟩
  · rw [hknown] at hu
    obtain ⟨rfl, rfl⟩ | ⟨hut, hu⟩ := Known.eq_or_of_kinds_add hu
    · exact ⟨_, Ghost.made_make_self, rfl, Temps.assign_self⟩
    · obtain ⟨hu, hvariable⟩ := Known.kinds_settled.1 hu
      exact (h.sits hu).keep (Temps.assign_of_ne hut) hlen
        (fun a ha => Ghost.loc_make_of_lt (o := ⟨mem.length, words⟩) ha)
        (fun a ha => Ghost.owner_make_of_lt (o := ⟨mem.length, words⟩) ha)
        (Ghost.made_make_of_ne hut) (fun hk => by rw [hk] at hvariable; cases hvariable)
        (fun _ b _ _ hb _ => getElem?_grow_of_lt hb)
        fun _ _ _ _ _ _ _ hstop => ⟨Nat.le_of_succ_le hstop, rfl⟩
  · rw [hknown]
    nofun

/-! ## Control -/

/-- **Going on at another line** where no more is known, if what is live there
is live here. -/
theorem Standing.move (h : A.Standing g n temps mem c)
    (hsub : Known.Sub (A.code.known n') (A.code.known n))
    (hstop : ∀ ⦃u k kind⦄, (A.code.known n').kinds u = some k →
      A.code.home.kinds[u]? = some kind → (∀ first, kind ≠ .array first) →
      ∀ j, intervalAt A.code.intervals u = some j → n' ≤ j.stop → n ≤ j.stop) :
    A.Standing g n' temps mem c :=
  ⟨h.kept, h.laid, fun _ _ hu => (h.sits (hsub hu)).keep rfl (Nat.le_refl _) (fun _ _ => rfl)
    (fun _ _ => rfl) rfl (fun _ _ ho => ho) (fun _ _ _ _ _ _ => rfl)
    fun _ hkind hne _ j _ hj hn => ⟨hstop hu hkind hne j hj hn, rfl⟩⟩

/-- A phi does nothing. -/
theorem Related.phi (h : A.Related g n temps mem c) (hknown : A.code.known (n + 1) = A.code.known n) :
    A.Related g (n + 1) temps mem c :=
  ⟨h.move (hknown ▸ .refl _) fun _ _ _ _ _ _ _ _ hn => Nat.le_of_succ_le hn,
    fun ha => h.passed (hknown ▸ ha)⟩

/-- **A jump**, also one that goes back: what is live where it leads to has an
interval that reaches to the jump. -/
theorem Standing.goto (h : A.Standing g n temps mem c) {l : Label}
    (hline : A.code.flat.lines[n]? = some line) (hl : l ∈ line.successors)
    (hs : A.code.flat.start? l = some n') : A.Related g n' temps mem c := by
  obtain ⟨op, rfl, -, hleads⟩ := A.code.typed.leave hline (Line.isTerminator_of_successors hl)
  obtain ⟨s, hs', hlen, hargs, hsub⟩ := hleads l hl
  cases hs.symm.trans hs'
  refine ⟨h.move hsub fun u k kind hu hkind hne j hj hstop => ?_, fun ha => by rw [hargs] at ha; cases ha⟩
  obtain ⟨i, -, hi⟩ := A.code.typed.exists_touch hlen ⟨k, hu⟩
  obtain ⟨j', -, hj', hsound, -⟩ := A.code.exists_place hkind hne hi
  cases hj.symm.trans hj'
  rcases Nat.lt_or_ge n n' with hlt | hge
  · omega
  · exact hsound.back ⟨_, hline, l, hl, hs⟩ hge (A.code.typed.start_lt hsound hlen ⟨k, hu⟩) hstop

/-- A call leaves temporaries where they are. -/
theorem Standing.call (h : A.Standing g n temps mem c) {loc : Nat → Nat}
    (hcall : A.Called g mem c loc mem' c') : A.Standing { g with loc } n temps mem' c' := by
  refine ⟨h.kept.call h.laid hcall, h.laid.call hcall, fun u k hu => ?_⟩
  refine (h.sits hu).keep rfl hcall.grown hcall.agrees (fun _ _ => rfl) rfl (fun _ _ ho => ho)
    (fun hk b _ hnew hb howner => hcall.words b hb fun o ho => h.laid.cell_not_has hk hnew howner ho)
    fun _ _ _ pl j hpl _ hstop => ⟨hstop, ?_⟩
  cases pl with
  | register r =>
    obtain ⟨i, rfl⟩ := A.stands.place_register hpl
    exact hcall.saved i
  | slot slot =>
    have hslot := A.code.frame.slot (A.code.slot hpl)
    exact hcall.outside _ (.inr (by omega)) fun o ho => h.laid.slot_not_spanned hpl ho

/-! ## Instructions -/

/-- **A line whose result is a value** is simulated by code that puts the word
of the value into the place of the result, wherever that is. -/
theorem Standing.compute (h : A.Standing g n temps mem c)
    (hline : A.code.flat.lines[n]? = some line) (ht : line.output? = some t)
    (hkind : A.code.home.kinds[t]? = some .value)
    (hknown : A.code.known (n + 1) = (A.code.known n).busy.add t k)
    (hk : k = .data ∨ k = .pointer ∧ ∀ p, y = .addr p → A.Live g (pointee p))
    (hw : IsWord g.loc mem.length y w) (hexec : ∀ pl, placeAt A.code.home.plan.places t = some pl →
      Runs img code c (A.code.home.put A.sp c w pl).Like) :
    Runs img code c (A.Related g (n + 1) (temps.assign (some t) y) mem) := by
  obtain ⟨-, pl, -, -, hpl⟩ :=
    A.code.exists_place hkind nofun (Liveness.mem_touches_of_output hline ht)
  obtain ⟨c', hexec, hlike⟩ := hexec pl hpl
  exact ⟨c', hexec, h.define hpl hlike hline ht hkind hknown hk hw⟩

/-- What is loaded from a scalar variable is in its place. -/
theorem IsCell.load (h : A.IsCell g n temps mem c t k) {args : List Val}
    (haddr : (Value.temp t).addr? m args temps = some p) (hload : mem.load p = some y) :
    A.InPlace g n mem c t y ∧ (k = .pointerCell → ∀ q, y = .addr q → A.ext (pointee q)) := by
  obtain ⟨-, b, hb, -, -, -, hcontents⟩ := h
  have htemp : temps t = .addr p := Option.some.inj (Value.eval_of_addr? haddr)
  cases hb.symm.trans htemp
  exact hcontents y (join_eq_some_iff.1 hload)

/-- **A load through an address** finds the word of the value. -/
theorem Standing.load_word (h : A.Standing g n temps mem c) (hv : v.Points (A.code.known n))
    (ht : ∀ t, v = .temp t → (t, n) ∈ Liveness.touches A.code.flat.lines)
    (haddr : v.addr? m A.args temps = some p) (ha : p.word? = some a) :
    A.Live g (pointee p) ∧ (pointee p).Has a ∧
      (g.loc p.base + 4 * (a - p.base)) % 4 = 0 ∧ g.loc p.base + 4 * (a - p.base) < 0x100000000 ∧
      Home.Word img A.code.home A.sp c v (Int32.ofNat (g.loc p.base + 4 * (a - p.base))) := by
  have hlive := h.live hv haddr
  obtain ⟨hhas, -⟩ := word?_eq_some ha
  obtain ⟨hmod, hlt⟩ := h.laid.placed.address hlive hhas
  obtain ⟨w, hword, hisWord⟩ := h.word hv.usable ht (Value.eval_of_addr? haddr)
  exact ⟨hlive, hhas, hmod, hlt, hisWord.inside ha ▸ hword⟩

/-- **A store to a scalar variable** is simulated by its code. -/
theorem Related.storeCell (h : A.Related g n temps mem c)
    (hline : A.code.flat.lines[n]? = some (.instr ⟨none, .store v (.temp t)⟩))
    (hk : (A.code.known n).kinds t = some k) (hisCell : k.isCell = true)
    (hkinds : (A.code.known (n + 1)).kinds = (A.code.known n).kinds)
    (hargs : (A.code.known (n + 1)).args = true → (A.code.known n).args = true)
    (hpoints : k = .pointerCell → ∀ p, y = .addr p → A.ext (pointee p))
    (haddr : (Value.temp t).addr? m A.args temps = some p) (hstore : mem.store p y = some mem')
    (hword : Home.Word img A.code.home A.sp c v w) (hisWord : IsWord g.loc mem.length y w)
    (hcode : A.code.home.store v (.temp t) = .ok code) :
    Runs img code c (A.Related g (n + 1) temps mem') := by
  have hmem : .temp t ∈ Line.operands (.instr ⟨none, .store v (.temp t)⟩) :=
    mem_cons_of_mem _ mem_cons_self
  obtain ⟨hkind, b, hb, -⟩ := (sits_iff_isCell hisCell).1 (h.sits hk)
  obtain ⟨-, pl, -, -, hpl⟩ := A.code.exists_place hkind nofun (touched hline hmem t rfl)
  obtain ⟨c', hexec, hlike⟩ := Home.assign_exec A.stands h.kept.stack hpl hword
    (Home.store_scalar_ok hkind hcode)
  cases hb.symm.trans (Option.some.inj (Value.eval_of_addr? haddr))
  obtain ⟨_, ha, -, rfl⟩ := Memory.store_eq_some hstore
  cases ha
  exact ⟨c', hexec, h.assign hline hmem hk hisCell hkinds hargs hpoints hb hpl hisWord hlike⟩

/-- A load from the place of a scalar variable; what the place of an address
holds is an address. -/
theorem Related.loadCell {s : Temp} {k' : Kind} (h : A.Related g n temps mem c)
    (hline : A.code.flat.lines[n]? = some (.instr ⟨some t, .load (.temp s)⟩))
    (hcell : A.IsCell g n temps mem c s k)
    (hknown : A.code.known (n + 1) = (A.code.known n).busy.add t k')
    (hk : k' = .data ∨ k' = .pointer ∧ k = .pointerCell)
    (haddr : (Value.temp s).addr? m A.args temps = some p) (hload : mem.load p = some y)
    (hcode : A.code.home.load t (.temp s) = .ok code) :
    Runs img code c (A.Related g (n + 1) (temps.assign (some t) y) mem) := by
  obtain ⟨hplace, hpoints⟩ := hcell.load haddr hload
  obtain ⟨w, hword, hisWord⟩ :=
    hplace.word hcell.kind nofun (touched hline mem_cons_self s rfl)
  refine h.compute hline rfl (A.code.kind_value hline rfl rfl) hknown
    (hk.imp id fun hk => ⟨hk.1, fun q hq => .inl (hpoints hk.2 q hq)⟩) hisWord fun pl hpl => ?_
  exact Home.copy_exec A.stands h.kept.stack hpl hword (Home.load_scalar_ok hcell.kind hcode)

/-- **An instruction that stays in its block**, and is neither a phi nor a call,
is simulated by its code. -/
theorem Related.step (h : A.Related g n temps mem c) {i : IR.Instr}
    (hline : A.code.flat.lines[n]? = some (.instr i))
    (hstep : Step A.code.sig (A.code.known n) i (A.code.known (n + 1)))
    (heval : i.op.eval m A.args none temps mem = some (y, mem')) {next : Option Label}
    (hcode : A.code.home.line next (.instr i) = .ok code) : ∃ g' c', execAll img code c = some c' ∧
      A.Related g' (n + 1) (temps.assign i.output y) mem' c' := by
  have hsp := h.kept.stack
  have hstands := A.stands
  have hvalue {t : Temp} := A.code.kind_value (t := t) hline
  generalize hS' : A.code.known (n + 1) = S' at hstep
  -- only an array, which gets room of its own, moves any object
  cases hstep with
  | alloca hk =>
    cases heval
    cases hcode
    exact ⟨_, c, rfl, h.alloca hline hk hS'⟩
  | array hpos =>
    cases heval
    cases hcode
    obtain ⟨g', hrelated⟩ := h.array hline hpos hS'
    exact ⟨g', c, rfl, hrelated⟩
  | @loadCell t s hs =>
    obtain ⟨rfl, p, haddr, hload⟩ := Op.exists_load heval
    exact ⟨g, h.loadCell hline (h.sits hs) hS' (.inl rfl) haddr hload hcode⟩
  | @loadPointer t s hs =>
    obtain ⟨rfl, p, haddr, hload⟩ := Op.exists_load heval
    exact ⟨g, h.loadCell hline (h.sits hs) hS' (.inr ⟨rfl, rfl⟩) haddr hload hcode⟩
  | @load t v hv =>
    obtain ⟨rfl, p, haddr, hload⟩ := Op.exists_load heval
    obtain ⟨a, ha, hload⟩ := bind_eq_some_iff.1 hload
    obtain ⟨hlive, hhas, hmod, hlt, hword⟩ :=
      h.load_word hv (touched hline mem_cons_self) haddr ha
    have hisWord := h.laid.holds hlive hhas y (join_eq_some_iff.1 hload)
    refine ⟨g, h.compute hline rfl (hvalue rfl rfl) hS' (.inl rfl) hisWord fun pl hpl => ?_⟩
    exact Home.load_through_exec hstands hsp hpl (h.not_scalar hv) hmod hlt hword hcode
  | @storeCell v s hs hv =>
    obtain ⟨-, y', p, hy, haddr, hstore⟩ := Op.exists_store heval
    obtain ⟨w, hword, hisWord⟩ := h.word hv (touched hline mem_cons_self) hy
    exact ⟨g, h.storeCell hline hs rfl (by rw [hS']; rfl) (by rw [hS']; nofun) nofun haddr hstore
      hword hisWord hcode⟩
  | @storeArg i s isArray ha hown hs =>
    obtain ⟨-, y', p, hy, haddr, hstore⟩ := Op.exists_store heval
    -- arguments are where they were passed until something else is computed
    obtain ⟨hpoints, w, hword, hisWord⟩ := h.passed ha hy
    have hisCell : (Kind.ofParameter isArray).isCell = true := by cases isArray <;> rfl
    have harray : Kind.ofParameter isArray = .pointerCell → A.code.sig.own[i]? = some true := by
      cases isArray <;> simp [Kind.ofParameter, hown]
    exact ⟨g, h.storeCell hline hs hisCell (by rw [hS']) (fun _ => ha)
      (fun hk => hpoints (harray hk)) haddr hstore hword hisWord hcode⟩
  | @store v target ht hv =>
    obtain ⟨-, y', p, hy, haddr, hstore⟩ := Op.exists_store heval
    obtain ⟨a, ha, -, rfl⟩ := Memory.store_eq_some hstore
    obtain ⟨w, hword, hisWord⟩ := h.word hv (touched hline mem_cons_self) hy
    obtain ⟨hlive, hhas, hmod, hlt, htarget⟩ :=
      h.load_word ht (touched hline (mem_cons_of_mem _ mem_cons_self)) haddr ha
    obtain ⟨c', hexec, hlike⟩ :=
      Home.store_through_exec hstands hsp (h.not_scalar ht) hmod hlt hword htarget hcode
    exact ⟨g, c', hexec, Standing.store h.toStanding hS' hlive hhas hisWord hlike⟩
  | @binary t op a b ha hb =>
    obtain ⟨x1, hx1, heval⟩ := bind_eq_some_iff.1 heval
    obtain ⟨x2, hx2, heval⟩ := bind_eq_some_iff.1 heval
    obtain ⟨r, hr, heval⟩ := bind_eq_some_iff.1 heval
    cases heval
    have hw1 := h.int ha (touched hline mem_cons_self) hx1
    have hw2 := h.int hb (touched hline (mem_cons_of_mem _ mem_cons_self)) hx2
    refine ⟨g, h.compute hline rfl (hvalue rfl rfl) hS' (.inl rfl) rfl fun pl hpl => ?_⟩
    exact Home.combine_exec hstands hsp hpl hw1 hw2
      (fun hrd _ hget1 hget2 => Home.binary_exec hrd hget1 hget2 hr) hcode
  | @compare t op a b ha hb =>
    obtain ⟨x1, hx1, heval⟩ := bind_eq_some_iff.1 heval
    obtain ⟨x2, hx2, heval⟩ := bind_eq_some_iff.1 heval
    cases heval
    have hw1 := h.int ha (touched hline mem_cons_self) hx1
    have hw2 := h.int hb (touched hline (mem_cons_of_mem _ mem_cons_self)) hx2
    refine ⟨g, h.compute hline rfl (hvalue rfl rfl) hS' (.inl rfl) rfl fun pl hpl => ?_⟩
    exact Home.combine_exec hstands hsp hpl hw1 hw2
      (fun hrd _ hget1 hget2 => Home.compare_exec hrd hget1 hget2) hcode
  | @zext t v hv =>
    obtain ⟨y', hy, heval⟩ := bind_eq_some_iff.1 heval
    cases heval
    obtain ⟨w, hword, hisWord⟩ := h.word hv (touched hline mem_cons_self) hy
    exact ⟨g, h.compute hline rfl (hvalue rfl rfl) hS' (.inl rfl) hisWord fun pl hpl =>
      Home.copy_exec hstands hsp hpl hword hcode⟩
  | @element t b o hb ho =>
    obtain ⟨p, haddr, heval⟩ := bind_eq_some_iff.1 heval
    obtain ⟨x, hx, heval⟩ := bind_eq_some_iff.1 heval
    cases heval
    obtain ⟨w1, hw1, hisWord⟩ :=
      h.word hb.usable (touched hline mem_cons_self) (Value.eval_of_addr? haddr)
    have hw2 := h.int ho (touched hline (mem_cons_of_mem _ mem_cons_self)) hx
    have hlive : ∀ q, Val.addr (p.shift x) = .addr q → A.Live g (pointee q) := by
      rintro _ ⟨⟩
      show A.Live g (pointee p)
      exact h.live hb haddr
    refine ⟨g, h.compute hline rfl (hvalue rfl rfl) hS' (.inr ⟨rfl, hlive⟩) (hisWord.shift x)
      fun pl hpl => ?_⟩
    exact Home.combine_exec hstands hsp hpl hw1 hw2
      (fun hrd hne hget1 hget2 => Home.elementAddress_exec hrd hne hget1 hget2) hcode
  | call => cases heval
  | callVoid => cases heval

/-- **A copy** is simulated by its code. -/
theorem Standing.copy (h : A.Standing g n temps mem c)
    (hline : A.code.flat.lines[n]? = some (.copy t v)) (hv : v.Usable (A.code.known n))
    (hknown : A.code.known (n + 1) = (A.code.known n).busy.add t .data)
    (heval : v.eval m A.args temps = some y) (hcode : A.code.home.copy t v = .ok code) :
    Runs img code c (A.Related g (n + 1) (temps.assign (some t) y) mem) := by
  obtain ⟨w, hword, hisWord⟩ := h.word hv (touched hline mem_cons_self) heval
  exact h.compute hline rfl (A.code.kind_copy hline) hknown (.inl rfl) hisWord fun pl hpl =>
    Home.copy_exec A.stands h.kept.stack hpl hword hcode

end Activation

end Rv32

end SysY
