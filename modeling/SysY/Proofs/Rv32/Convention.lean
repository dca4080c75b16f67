import SysY.Proofs.Rv32.Lines

/-!
# The calling convention

What a call means for the relation, on both sides. A function that is entered
with its arguments where the convention has them is related to a run of it
that begins (`Activation.enter`), and one that is about to return has restored
what its caller relies on (`Returned`). A caller passes the words of its
arguments (`Standing.pass`); everything that it has in use, its own arrays
included, is what the callee was given from outside (`Activation.callee`), so
that what the callee leaves alone is what the caller needs (`Returned.called`).
-/

namespace SysY

open IR List

namespace Rv32

/-- The word of an argument by the convention: the first eight are in
registers, the others on the stack from `top` on. -/
def argWord (c : Cpu) (top i : Nat) : Int32 :=
  if h : i < 8 then c.get (.a ⟨i, h⟩) else c.mem (top + 4 * (i - 8))

theorem Home.Word.arg {img : Image} {h : Home} {sp : Nat} {c : Cpu} {i : Nat}
    (hi : 8 ≤ i → sp + h.frame.size + 4 * (i - 8) < 0x100000000) :
    Home.Word img h sp c (.arg i) (argWord c (sp + h.frame.size) i) := by
  unfold argWord
  split
  next hlt => exact .registerArg ⟨i, hlt⟩
  next hge => exact .stackArg (Nat.not_lt.1 hge) (hi (Nat.not_lt.1 hge))

namespace Activation

variable {img : Image} {m : Module} {A : Activation img m} {g : Ghost} {mem mem' final : Memory}
  {temps : Temps} {c c' : Cpu} {o : Object} {t : Temp} {n x : Nat} {v : Value} {y : Val} {w : Int32}
  {r : Option Val}

/-! ## Entry -/

/-- What is known of objects when a function begins: it has made none. -/
def ghost (A : Activation img m) : Ghost := ⟨A.loc, fun _ => none, fun _ => 0⟩

theorem ext_of_live_ghost (ho : A.Live A.ghost o) : A.ext o := by
  rcases ho with ho | ⟨t, ht⟩
  · exact ho
  · cases ht

/-- **A function that is entered** with its objects and arguments in place is
related to the beginning of its run. -/
theorem enter (A : Activation img m)
    (hsp : A.entry.get .sp = Int32.ofNat (A.sp + A.code.home.frame.size))
    (hplaced : Placed A.loc A.ext) (hholds : Holds A.loc A.ext A.start A.entry.mem)
    (hpassed : A.Passed A.ghost A.start A.entry) {code : List Instr}
    (hcode : A.code.home.prologue = .ok code) (temps : Temps) :
    Runs img code A.entry (A.Related A.ghost 0 temps A.start) := by
  obtain ⟨c, hexec, hstack, hregs, hcells, hmem⟩ := Home.prologue_exec A.stands hsp hcode
  have hareas := A.code.frame.areas
  have hlow := A.low_le
  refine ⟨c, hexec, ⟨⟨hstack, hcells, fun i _ => hregs rfl nofun, fun x hx _ => hmem x (by omega)⟩,
    ⟨Nat.le_refl _, fun _ _ => rfl, hplaced.mono fun o ho => ext_of_live_ghost ho,
      fun o ho a ha v hv => ?_, nofun, fun _ _ _ => rfl⟩, fun t k ht => ?_⟩, fun _ i y hi => ?_⟩
  · have hext := ext_of_live_ghost ho
    have haway := A.away hext
    obtain ⟨h1, h2⟩ := ha.spans A.loc
    show IsWord A.loc _ v (c.mem (A.loc o.base + 4 * (a - o.base)))
    rw [hmem _ (by omega)]
    exact hholds hext ha v hv
  · rw [A.code.typed.start] at ht
    cases ht
  · obtain ⟨hpoints, w, hword, hisWord⟩ := hpassed hi
    refine ⟨hpoints, w, ?_, hisWord⟩
    cases hword with
    | registerArg i => exact hregs (r := .a i) rfl nofun ▸ .registerArg i
    | stackArg hi hlt =>
      have hsame := hmem (A.sp + A.code.home.frame.size + 4 * (i - 8)) (by omega)
      exact hsame ▸ .stackArg hi hlt

/-! ## Exit -/

/-- **What holds when a function is about to return.** -/
structure Returned (A : Activation img m) (r : Option Val) (final : Memory) (c : Cpu) : Prop where
  /-- Memory only grows. -/
  grown : A.start.length ≤ final.length
  /-- The stack is given back. -/
  stack : c.get .sp = Int32.ofNat (A.sp + A.code.home.frame.size)
  /-- The return address is that of the caller. -/
  address : c.get .ra = A.entry.get .ra
  /-- Saved registers are the same. -/
  saved : ∀ i, c.get (.s i) = A.entry.get (.s i)
  /-- Memory does not change outside of the stack and of objects. -/
  outside : ∀ x, x < A.low ∨ A.sp + A.code.home.frame.size ≤ x →
    (∀ o, A.ext o → ¬ o.Spans A.loc x) → c.mem x = A.entry.mem x
  words : ∀ a < A.start.length, (∀ o, A.ext o → ¬ o.Has a) → final[a]? = A.start[a]?
  /-- Objects have stayed where they were and hold what they should, and so does
  the register for the result. -/
  holds : ∃ loc, (∀ a < A.start.length, loc a = A.loc a) ∧ Holds loc A.ext final c.mem ∧
    ∀ v, r = some v → IsWord loc final.length v (c.get returnReg)

theorem Kept.likeBut (h : A.Kept c) {i : Fin 8} (hbut : Cpu.LikeBut (.a i) c c') : A.Kept c' where
  stack := (hbut.get (r := .sp) rfl nofun).trans h.stack
  cells := fun x hx => (congrFun hbut.mem _).trans (h.cells x hx)
  unused := fun j hj => (hbut.get (r := .s j) rfl nofun).trans (h.unused j hj)
  outside := fun x hx ho => (congrFun hbut.mem _).trans (h.outside x hx ho)

/-- **A function restores what it has to preserve** before it returns. -/
theorem Kept.restore (h : A.Kept c) (hlaid : A.Laid g mem c)
    (hr : ∀ v, r = some v → IsWord g.loc mem.length v (c.get returnReg)) :
    Runs img A.code.home.restore c (A.Returned r mem) := by
  obtain ⟨c', hexec, hstack, hcells, hmem, hother⟩ := Home.restore_exec A.stands h.stack h.cells
  have hsaved : ∀ i, c'.get (.s i) = A.entry.get (.s i) := by
    intro i
    by_cases hi : .s i ∈ A.code.home.plan.used
    · rw [← A.code.frame.preserved, ← Home.map_savedCells] at hi
      obtain ⟨x, hx, hxi⟩ := mem_map.1 hi
      exact hxi ▸ hcells x (mem_cons_of_mem _ hx)
    · rw [hother (r := .s i) rfl nofun fun x hx heq => hi ?_, h.unused i hi]
      rcases mem_cons.1 hx with rfl | hx
      · cases heq
      · rw [heq, ← A.code.frame.preserved, ← Home.map_savedCells]
        exact mem_map_of_mem hx
  have hreturn : c'.get returnReg = c.get returnReg := by
    refine hother rfl nofun fun x hx heq => ?_
    rcases mem_cons.1 hx with rfl | hx
    · cases heq
    · have hused : x.1 ∈ A.code.home.plan.used := by
        rw [← A.code.frame.preserved, ← Home.map_savedCells]
        exact mem_map_of_mem hx
      obtain ⟨i, hi⟩ := A.code.saved hused
      cases heq.trans hi
  refine ⟨c', hexec, hlaid.grown, hstack, hcells _ mem_cons_self, hsaved,
    fun x hx ho => (congrFun hmem x).trans (h.outside x hx ho), hlaid.words, g.loc, hlaid.agrees,
    fun o ho a ha v hv => ?_, fun v hv => ?_⟩
  · rw [hmem]
    exact hlaid.holds (.inl ho) ha v hv
  · rw [hreturn]
    exact hr v hv

/-! ## Arguments -/

/-- The words of arguments. -/
theorem Standing.words (h : A.Standing g n temps mem c) {vs : List Value} {ys : List Val}
    (hvs : ∀ v ∈ vs, v.Usable (A.code.known n))
    (ht : ∀ v ∈ vs, ∀ t, v = .temp t → (t, n) ∈ Liveness.touches A.code.flat.lines)
    (heval : evalArgs m A.args temps vs = some ys) :
    ∃ ws, Forall₂ (Home.Word img A.code.home A.sp c) vs ws ∧
      Forall₂ (IsWord g.loc mem.length) ys ws := by
  induction vs generalizing ys with
  | nil =>
    cases heval
    exact ⟨[], .nil, .nil⟩
  | cons v vs ih =>
    obtain ⟨y, hy, heval⟩ := Option.bind_eq_some_iff.1 heval
    obtain ⟨ys', hys, heval⟩ := Option.bind_eq_some_iff.1 heval
    cases heval
    rw [forall_mem_cons] at hvs ht
    obtain ⟨w, hword, hisWord⟩ := h.word hvs.1 ht.1 hy
    obtain ⟨ws, hwords, hisWords⟩ := ih hvs.2 ht.2 hys
    exact ⟨w :: ws, .cons hword hwords, .cons hisWord hisWords⟩

end Activation

theorem forall₂_zip_take {α β γ : Type} {R : α → β → Prop} {l : List α} {l' : List β}
    (h : Forall₂ R l l') (regs : List γ) :
    Forall₂ (fun x => R x.1) (l.zip regs) (l'.take regs.length) := by
  induction h generalizing regs with
  | nil => simp
  | cons hr _ ih =>
    cases regs with
    | nil => simp
    | cons r regs => exact .cons hr (ih regs)

theorem forall₂_getElem? {α β : Type} {R : α → β → Prop} {l : List α} {l' : List β}
    (h : Forall₂ R l l') {i : Nat} {a : α} (ha : l[i]? = some a) : ∃ b, l'[i]? = some b ∧ R a b := by
  induction h generalizing i with
  | nil => cases ha
  | @cons a' b' _ _ hr _ ih =>
    cases i with
    | zero =>
      cases ha
      exact ⟨b', rfl, hr⟩
    | succ i => exact ih ha

/-- **Arguments are passed** by the convention: those beyond the eighth in the
outgoing area, the others in registers. -/
theorem Home.pass_exec {img : Image} {h : Home} {lines : List Line} {sp : Nat} {c : Cpu}
    (hs : h.Stands lines sp) (hsp : c.get .sp = Int32.ofNat sp) {vs : List Value} {ws : List Int32}
    (hws : Forall₂ (Home.Word img h sp c) vs ws) (hvs : ∀ v ∈ vs, ∀ i, v ≠ .arg i)
    (hroom : 4 * (vs.length - 8) ≤ h.frame.spills) {code1 code2 : List Instr}
    (hcode1 : h.stackArgs 0 (vs.drop registerArgs) = .ok code1)
    (hcode2 : h.registerArgCode (vs.zip [0, 1, 2, 3, 4, 5, 6, 7]) = .ok code2) :
    Runs img (code1 ++ code2) c fun c' => c'.get .sp = c.get .sp ∧
      (∀ i, c'.get (.s i) = c.get (.s i)) ∧
      (∀ x, x < sp ∨ sp + h.frame.spills ≤ x → c'.mem x = c.mem x) ∧
      ∀ i w, ws[i]? = some w → argWord c' sp i = w := by
  obtain ⟨c1, hexec1, hget1, hmem1, hwords1⟩ := Home.stackArgs_exec hs hsp
    (forall₂_drop registerArgs hws) (fun v hv => hvs v (mem_of_mem_drop hv)) (k := 0)
    (by rw [length_drop]; simp only [registerArgs]; omega) hcode1
  rw [length_drop] at hmem1
  simp only [registerArgs, Nat.zero_add, Nat.mul_zero, Nat.add_zero] at hmem1 hwords1
  have hws1 : Forall₂ (Home.Word img h sp c1) vs ws := by
    refine forall₂_iff_zip.2 ⟨hws.length_eq, fun {v w} hvw => ?_⟩
    exact Home.Word.stable hs (forall₂_zip hws hvw) (hvs v (of_mem_zip hvw).1)
      (fun i => hget1 rfl) fun x hx => hmem1 x (by omega)
  have hnodup : ((vs.zip ([0, 1, 2, 3, 4, 5, 6, 7] : List (Fin 8))).map Prod.snd).Nodup := by
    rw [zip_eq_zip_take_min, map_snd_zip (by simp)]
    exact Nodup.sublist (take_sublist _ _) (by decide)
  obtain ⟨c2, hexec2, hmem2, hget2, hwords2⟩ := Home.registerArgCode_exec hs
    ((hget1 rfl).trans hsp) (forall₂_zip_take hws1 [0, 1, 2, 3, 4, 5, 6, 7])
    (fun x hx => hvs x.1 (of_mem_zip hx).1) hnodup hcode2
  refine ⟨c2, execAll_trans hexec1 hexec2, (hget2 (r := .sp) rfl fun _ _ => Reg.noConfusion).trans (hget1 rfl),
    fun i => (hget2 (r := .s i) rfl fun _ _ => Reg.noConfusion).trans (hget1 rfl), fun x hx => ?_, fun i w hi => ?_⟩
  · rw [hmem2, hmem1 x (by omega)]
  · unfold argWord
    split
    next hlt =>
      obtain ⟨v, hv⟩ : ∃ v, vs[i]? = some v := by
        have hlen := (List.getElem?_eq_some_iff.1 hi).1
        exact ⟨_, List.getElem?_eq_getElem (hws.length_eq ▸ hlen)⟩
      have hreg : ∀ j : Fin 8, ([0, 1, 2, 3, 4, 5, 6, 7] : List (Fin 8))[j.val]? = some j := by decide
      have hzip : (vs.zip [0, 1, 2, 3, 4, 5, 6, 7])[i]? = some (v, (⟨i, hlt⟩ : Fin 8)) :=
        getElem?_zip_eq_some.2 ⟨hv, hreg ⟨i, hlt⟩⟩
      obtain ⟨w', hw', hget⟩ := forall₂_getElem? hwords2 hzip
      rw [getElem?_take_of_lt (by simpa using hlt), hi] at hw'
      cases hw'
      exact hget
    next hge =>
      rw [hmem2]
      refine hwords1 (i - 8) w ?_
      rw [getElem?_drop, Nat.add_sub_cancel' (Nat.not_lt.1 hge)]
      exact hi

namespace Activation

variable {img : Image} {m : Module} {A : Activation img m} {g : Ghost} {mem mem' final : Memory}
  {temps : Temps} {c c' : Cpu} {n : Nat} {r : Option Val}

/-! ## Callers and callees -/

/-- **The activation of a function that is called**: the objects that its caller
has in use are given, and its frame is below that of its caller. -/
def callee (hlaid : A.Laid g mem c) (F : Compiled) (args : List Val) (entry : Cpu)
    (hroom : A.low + F.home.frame.size ≤ A.sp) : Activation img m where
  code := F
  args := args
  sp := A.sp - F.home.frame.size
  low := A.low
  ext := A.Live g
  loc := g.loc
  start := mem
  entry := entry
  aligned := by
    have haligned := A.aligned
    have hsize := F.frame.aligned
    omega
  top := by
    have htop := A.top
    omega
  low_le := by omega
  inside := fun _ ho => hlaid.live_inside ho
  away := by
    intro o ho
    rcases hlaid.region ho with ⟨-, -, haway⟩ | ⟨-, hin, -⟩ <;> omega
  globals := by
    intro name p hp
    obtain ⟨hext, hloc, hsymbol⟩ := A.globals hp
    exact ⟨.inl hext, (hlaid.agrees _ (ext_base_lt hext)).trans hloc, hsymbol⟩

/-- **What a callee preserves is what its caller needs.** -/
theorem Returned.called (hlaid : A.Laid g mem c) {F : Compiled} {args : List Val} {entry : Cpu}
    {hroom : A.low + F.home.frame.size ≤ A.sp}
    (h : (A.callee hlaid F args entry hroom).Returned r mem' c')
    (hsp : c.get .sp = Int32.ofNat A.sp) (hsaved : ∀ i, entry.get (.s i) = c.get (.s i))
    (hmem : ∀ x, x < A.sp ∨ A.sp + A.code.home.frame.spills ≤ x → entry.mem x = c.mem x) :
    ∃ loc, A.Called g mem c loc mem' c' ∧
      ∀ v, r = some v → IsWord loc mem'.length v (c'.get returnReg) := by
  obtain ⟨loc, hagrees, hholds, hresult⟩ := h.holds
  have htop : A.sp - F.home.frame.size + F.home.frame.size = A.sp := by omega
  refine ⟨loc, ⟨h.grown, hagrees, hholds, ?_, fun i => (h.saved i).trans (hsaved i),
    fun x hx ho => ?_, h.words⟩, hresult⟩
  · have hstack := h.stack
    rw [show (A.callee hlaid F args entry hroom).sp + (A.callee hlaid F args entry hroom).code.home.frame.size
      = A.sp from htop] at hstack
    rw [hstack, hsp]
  · have hlow := A.low_le
    refine (h.outside x ?_ ho).trans (hmem x (by omega))
    show x < A.low ∨ A.sp - F.home.frame.size + F.home.frame.size ≤ x
    omega

end Activation

end Rv32

end SysY
