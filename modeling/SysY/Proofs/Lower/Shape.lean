import Mathlib.Data.List.Nodup
import Mathlib.Data.List.Perm.Subperm
import SysY.Proofs.Lower.Gen

/-!
# The shape of lowered code

What the supply has to do with the code that is written while it is drawn
on. Temporaries and labels only ever grow; the labels that code positions are
labels that were handed out while it was written, each is positioned once,
and the last of them is the block in which the code ends.

Expressions position no label. Conditions and statements reserve labels
before they write the code that comes first, so their labels are not in
order; that they differ follows from the ranges that they come from.
-/

namespace SysY

open List

/-- Induction over expressions, with the arguments and the subscripts that are
lists of expressions. -/
theorem Expr.induction {P : Expr → Prop} (number : ∀ span text, P (.number span text))
    (lval : ∀ span name indices, (∀ e ∈ indices, P e) → P (.lval span name indices))
    (call : ∀ span callee args, (∀ e ∈ args, P e) → P (.call span callee args))
    (unary : ∀ span op e, P e → P (.unary span op e))
    (binary : ∀ span op a b, P a → P b → P (.binary span op a b))
    (paren : ∀ span e, P e → P (.paren span e)) (e : Expr) : P e :=
  @Expr.rec P (fun es => ∀ e ∈ es, P e) number lval call unary binary paren
    (fun _ h => absurd h not_mem_nil)
    (fun _ _ hhead htail => forall_mem_cons.2 ⟨hhead, htail⟩) e

variable {scalar constant : Bool} {offset : IR.Value} {indices es : List Expr}

namespace Lower

open IR (Value Op Instr Label Temp)

variable {σ σ' σ1 σ2 : Supply} {ctx : Context}

/-! ## Straight code -/

/-- The supply after straight code: temporaries may have been handed out, and
nothing else changed. -/
structure Supply.Extends (σ σ' : Supply) : Prop where
  temps : σ.temps ≤ σ'.temps
  /-- No block is handed out. -/
  names : σ'.names = σ.names
  current : σ'.current = σ.current

namespace Supply.Extends

protected theorem refl (σ : Supply) : σ.Extends σ := ⟨Nat.le_refl _, rfl, rfl⟩

protected theorem trans (h : σ.Extends σ1) (h' : σ1.Extends σ2) : σ.Extends σ2 :=
  ⟨Nat.le_trans h.temps h'.temps, h'.names.trans h.names, h'.current.trans h.current⟩

theorem bump (h : σ.Extends σ1) : σ.Extends σ1.bump :=
  ⟨Nat.le_trans h.temps (Nat.le_succ _), h.names, h.current⟩

end Supply.Extends

/-- What is written goes into the current block. -/
def GenExtends {α : Type} (g : Gen α) : Prop :=
  ∀ ⦃σ σ' : Supply⦄ ⦃a : α⦄, g σ = .ok (a, σ') → σ.Extends σ'

section

variable {α β : Type}

theorem GenExtends.pure (a : α) : GenExtends (Pure.pure a) := by
  intro σ σ' b h
  rw [(pure_ok.1 h).2]
  exact .refl σ

theorem GenExtends.bind {g : Gen α} {f : α → Gen β} (hg : GenExtends g)
    (hf : ∀ a, GenExtends (f a)) : GenExtends (g >>= f) := by
  intro σ σ' b h
  obtain ⟨a, σ1, h1, h2⟩ := bind_ok.1 h
  exact (hg h1).trans (hf a h2)

theorem GenExtends.lift (r : Except Stop α) : GenExtends (liftM r) := by
  intro σ σ' a h
  rw [(lift_ok.1 h).2]
  exact .refl σ

end

theorem define_extends {op : Op} : GenExtends (define op) := by
  rintro σ _ _ ⟨⟩
  exact (Supply.Extends.refl σ).bump

variable {is : List Instr} {v : Value} {symbols : Symbols} {f : FunctionDef}
  {functions : Frame Signature}

theorem unaryCode_extends (op : UnaryOp) (x : Value) : GenExtends (unaryCode op x) := by
  cases op with
  | plus => exact .pure _
  | minus => exact define_extends
  | not => exact define_extends.bind fun _ => define_extends.bind fun _ => .pure _

theorem baseAddress_extends (base : Base) : GenExtends (baseAddress base) := by
  cases base with
  | address v => exact .pure _
  | pointer slot => exact define_extends

theorem scaleByRow_extends (offset : Value) (rest : List Nat) : GenExtends (scaleByRow offset rest) := by
  unfold scaleByRow
  split
  · exact .pure _
  · exact (GenExtends.lift _).bind fun _ => define_extends

theorem lowerArgs_extends (hes : ∀ e ∈ es, GenExtends (lowerExpr ctx e)) :
    GenExtends (lowerArgs ctx es) := by
  induction es with
  | nil => exact .pure _
  | cons e es ih =>
    rw [forall_mem_cons] at hes
    rw [lowerArgs]
    exact hes.1.bind fun _ => (ih hes.2).bind fun _ => .pure _

theorem lowerOffset_extends (hes : ∀ e ∈ es, GenExtends (lowerExpr ctx e)) (offset : Value)
    (sizes : List Nat) : GenExtends (lowerOffset ctx offset es sizes) := by
  induction es generalizing offset sizes with
  | nil => exact .pure _
  | cons e es ih =>
    rw [forall_mem_cons] at hes
    cases sizes with
    | nil => exact .pure _
    | cons size sizes =>
      rw [lowerOffset]
      exact define_extends.bind fun _ => hes.1.bind fun _ => define_extends.bind fun _ =>
        (ih hes.2 _ _).bind fun _ => .pure _

theorem lowerAddress_extends' {name : Ident} (hes : ∀ e ∈ indices, GenExtends (lowerExpr ctx e)) :
    GenExtends (lowerAddress ctx name indices) := by
  rw [lowerAddress]
  refine (GenExtends.lift _).bind fun s => ?_
  split
  · exact .pure _
  · refine (baseAddress_extends _).bind fun _ => ?_
    cases indices with
    | nil => exact .pure _
    | cons e es =>
      rw [forall_mem_cons] at hes
      exact hes.1.bind fun _ => (lowerOffset_extends hes.2 _ _).bind fun _ =>
        (scaleByRow_extends _ _).bind fun _ => define_extends.bind fun _ => .pure _

theorem lowerExpr_extends (e : Expr) : GenExtends (lowerExpr ctx e) := by
  induction e using Expr.induction with
  | number span text =>
    rw [lowerExpr]
    exact (GenExtends.lift _).bind fun _ => .pure _
  | lval span name indices ih =>
    rw [lowerExpr]
    refine (lowerAddress_extends' ih).bind fun _ => ?_
    dsimp only
    split
    · exact define_extends.bind fun _ => .pure _
    · exact .pure _
  | call span callee args ih =>
    rw [lowerExpr]
    refine (GenExtends.lift _).bind fun _ => (lowerArgs_extends ih).bind fun _ => ?_
    dsimp only
    split
    · exact .pure _
    · exact define_extends.bind fun _ => .pure _
  | unary span op e ih =>
    rw [lowerExpr]
    exact ih.bind fun _ => (unaryCode_extends _ _).bind fun _ => .pure _
  | binary span op a b iha ihb =>
    rw [lowerExpr]
    exact iha.bind fun _ => ihb.bind fun _ => define_extends.bind fun _ => .pure _
  | paren span e ih =>
    rw [lowerExpr]
    exact ih

theorem lowerAddress_extends {name : Ident} : GenExtends (lowerAddress ctx name indices) :=
  lowerAddress_extends' fun e _ => lowerExpr_extends e

theorem initialValue_extends {k : Option Int32} {item : Option Expr} :
    GenExtends (initialValue ctx k item) := by
  unfold initialValue
  split
  · exact .pure _
  · exact lowerExpr_extends _
  · exact .pure _

theorem storeItems_extends {base : Value} {ks : Option (List Int32)} {i : Nat}
    {items : List (Option Expr)} : GenExtends (storeItems ctx base ks i items) := by
  induction items generalizing ks i with
  | nil => exact .pure _
  | cons item items ih =>
    rw [storeItems]
    exact initialValue_extends.bind fun _ => define_extends.bind fun _ => ih.bind fun _ => .pure _

theorem lowerDefinition_extends {d : Definition} : GenExtends (lowerDefinition constant ctx d) := by
  refine (GenExtends.lift _).bind fun dims => (GenExtends.lift _).bind fun _ =>
    (GenExtends.lift _).bind fun _ => ?_
  split
  · exact define_extends.bind fun _ => initialValue_extends.bind fun _ => .pure _
  · exact (GenExtends.lift _).bind fun _ => define_extends.bind fun _ =>
      storeItems_extends.bind fun _ => .pure _

theorem lowerDefinitions_extends {ds : List Definition} :
    GenExtends (lowerDefinitions constant ctx ds) := by
  induction ds generalizing ctx with
  | nil => exact .pure _
  | cons d ds ih =>
    rw [lowerDefinitions]
    exact lowerDefinition_extends.bind fun _ => ih.bind fun _ => .pure _

theorem lowerParameters_extends {ps : List Parameter} {i : Nat} :
    GenExtends (lowerParameters symbols i ps) := by
  induction ps generalizing symbols i with
  | nil => exact .pure _
  | cons p ps ih =>
    rw [lowerParameters]
    refine GenExtends.bind ?_ fun _ => ih.bind fun _ => .pure _
    exact define_extends.bind fun _ => (GenExtends.lift _).bind fun _ => .pure _

/-! ## Labels -/

theorem Supply.current_lt_name (h : σ.names.size > σ.current) (name : String) :
    (σ.name name).names.size > (σ.name name).current := by
  rw [Supply.name_names, Array.size_push, Supply.name_current]
  exact Nat.lt_succ_of_lt h

@[simp, grind =] theorem Code.layout_nil : Code.layout [] = [] := rfl

@[simp, grind =] theorem Code.layout_append (c1 c2 : Code) :
    Code.layout (c1 ++ c2) = Code.layout c1 ++ Code.layout c2 :=
  filterMap_append

@[simp, grind =] theorem Code.layout_label (l : Label) (c : Code) :
    Code.layout (.label l :: c) = l :: Code.layout c := rfl

@[simp, grind =] theorem Code.layout_straight (is : List Instr) : Code.layout (straight is) = [] := by
  induction is with
  | nil => rfl
  | cons i is ih => exact ih

@[simp, grind =] theorem Code.layout_perform (op : Op) : Code.layout (perform op) = [] := rfl

/-- The names of blocks. -/
def blockNames : List String :=
  ["entry", "cond_rhs", "cond_phi", "if_true", "if_false", "if_end", "while_cond", "while_body",
    "while_next", "dead"]

/-- Blocks that one supply has and the other does not have known names. -/
def Supply.Named (σ σ' : Supply) : Prop := ∀ name ∈ σ'.names, name ∈ σ.names ∨ name ∈ blockNames

protected theorem Supply.Named.refl (σ : Supply) : σ.Named σ := fun _ => .inl

protected theorem Supply.Named.trans (h1 : σ.Named σ1) (h2 : σ1.Named σ2) : σ.Named σ2 :=
  fun name hname => (h2 name hname).elim (h1 name) .inr

theorem Supply.Named.name (h : σ.Named σ1) {name : String} (hname : name ∈ blockNames) :
    σ.Named (σ1.name name) := by
  intro other hother
  rw [Supply.name_names, Array.mem_push] at hother
  rcases hother with hother | rfl
  · exact h other hother
  · exact .inr hname

/-- **What code does to the supply** that it is written with, when the blocks
`R` were handed out before it and are started in it. -/
structure Emits (σ : Supply) (R : List Label) (c : Code) (σ' : Supply) : Prop where
  temps : σ.temps ≤ σ'.temps
  names : σ.names.size ≤ σ'.names.size
  /-- The reserved blocks were handed out before. -/
  reserved : ∀ l : Nat, l ∈ R → l < σ.names.size
  /-- The other blocks were handed out while the code was written. -/
  fresh : ∀ l : Nat, l ∈ c.layout → l ∈ R ∨ σ.names.size ≤ l ∧ l < σ'.names.size
  nodup : c.layout.Nodup
  /-- As many blocks are started as are reserved or handed out. -/
  count : c.layout.length + σ.names.size = σ'.names.size + R.length
  /-- The last block that is started is the current one. -/
  current : σ'.current = c.layout.getLast?.getD σ.current
  /-- New blocks have known names. -/
  named : σ.Named σ'

namespace Emits

variable {R R' : List Label} {c c1 c2 : Code}

theorem of_extends (h : σ.Extends σ') (is : List Instr) : Emits σ [] (straight is) σ' where
  temps := h.temps
  names := Nat.le_of_eq (by rw [h.names])
  reserved := by simp
  fresh := by simp
  nodup := by simp
  count := by simp [h.names]
  current := by simpa using h.current
  named := fun _ hname => .inl (h.names ▸ hname)

protected theorem refl (σ : Supply) : Emits σ [] [] σ := of_extends (.refl σ) []

protected theorem trans (h1 : Emits σ R c1 σ1) (h2 : Emits σ1 [] c2 σ2) :
    Emits σ R (c1 ++ c2) σ2 where
  temps := Nat.le_trans h1.temps h2.temps
  names := Nat.le_trans h1.names h2.names
  reserved := h1.reserved
  fresh := by
    intro l hl
    have hn1 := h1.names
    have hn2 := h2.names
    rcases mem_append.1 (Code.layout_append c1 c2 ▸ hl) with hl | hl
    · exact (h1.fresh l hl).imp_right fun h => ⟨h.1, Nat.lt_of_lt_of_le h.2 hn2⟩
    · have := (h2.fresh l hl).resolve_left not_mem_nil
      exact .inr ⟨Nat.le_trans hn1 this.1, this.2⟩
  nodup := by
    rw [Code.layout_append, nodup_append']
    refine ⟨h1.nodup, h2.nodup, fun l hl hl' => ?_⟩
    have hafter : σ1.names.size ≤ l := ((h2.fresh l hl').resolve_left not_mem_nil).1
    have hn1 := h1.names
    rcases h1.fresh l hl with hR | hlt
    · have := h1.reserved l hR
      omega
    · omega
  count := by
    have hc1 := h1.count
    have hc2 := h2.count
    rw [Code.layout_append, length_append]
    rw [length_nil] at hc2
    omega
  current := by
    rw [h2.current, h1.current, Code.layout_append, getLast?_append]
    cases (Code.layout c2).getLast? <;> rfl
  named := h1.named.trans h2.named

theorem perform (h : Emits σ R c σ1) (op : Op) : Emits σ R (c ++ Lower.perform op) σ1 :=
  h.trans (of_extends (.refl σ1) [⟨none, op⟩])

/-- A block that was reserved is started. -/
theorem start (h : Emits σ R c σ1) {l : Nat} (hl : l < σ.names.size) (hR : l ∉ R) :
    Emits σ (l :: R) (c ++ [.label l]) (σ1.enter l) where
  temps := h.temps
  names := h.names
  reserved := by
    intro k hk
    rcases mem_cons.1 hk with rfl | hk
    · exact hl
    · exact h.reserved k hk
  fresh := by
    intro k hk
    rw [Code.layout_append, mem_append, Code.layout_label, Code.layout_nil,
      mem_singleton] at hk
    rcases hk with hk | rfl
    · exact (h.fresh k hk).imp_left (mem_cons_of_mem l)
    · exact .inl mem_cons_self
  nodup := by
    rw [Code.layout_append, nodup_append']
    refine ⟨h.nodup, nodup_singleton l, fun k hk hk' => ?_⟩
    cases mem_singleton.1 hk'
    rcases h.fresh l hk with hin | hge
    · exact hR hin
    · omega
  count := by
    have hcount := h.count
    simp only [Code.layout_append, Code.layout_label, Code.layout_nil, length_append,
      length_cons, length_nil, Supply.enter_names]
    omega
  current := by simp
  named := h.named

/-- Blocks that are handed out first, and reserved, are blocks of the code. -/
theorem close {τ : Supply} (h : Emits τ R c σ') (htemps : τ.temps = σ.temps)
    (hcurrent : τ.current = σ.current) (hnames : σ.names.size + R.length = τ.names.size)
    (hR : ∀ l ∈ R, σ.names.size ≤ l) (hnamed : σ.Named τ) : Emits σ [] c σ' where
  temps := htemps ▸ h.temps
  names := by
    have := h.names
    omega
  reserved := fun _ hl => absurd hl not_mem_nil
  fresh := by
    intro l hl
    rcases h.fresh l hl with hin | hge
    · exact .inr ⟨hR l hin, Nat.lt_of_lt_of_le (h.reserved l hin) h.names⟩
    · exact .inr ⟨by omega, hge.2⟩
  nodup := h.nodup
  count := by
    have hcount := h.count
    rw [length_nil]
    omega
  current := hcurrent ▸ h.current
  named := hnamed.trans h.named

/-- The block in which code ends is the one in which it begins, or one that was
handed out for it. -/
theorem current_cases (h : Emits σ [] c σ') :
    σ'.current = σ.current ∨ σ.names.size ≤ σ'.current ∧ σ'.names.size > σ'.current := by
  rw [h.current]
  cases hlast : c.layout.getLast? with
  | none => exact .inl rfl
  | some l =>
    exact .inr ((h.fresh l (mem_of_getLast? hlast)).resolve_left not_mem_nil)

theorem current_lt (h : Emits σ [] c σ') (hσ : σ.names.size > σ.current) :
    σ'.names.size > σ'.current := by
  have := h.names
  rcases h.current_cases with heq | hlt
  · rw [heq]
    omega
  · exact hlt.2

end Emits

/-! ## Conditions and statements -/

/-- The code that is written for a condition, or for a statement, takes all its
blocks from the supply. -/
abbrev CondEmits (g : Gen (Code × Value)) : Prop :=
  ∀ {σ σ' : Supply} {c : Code} {v : Value}, g σ = .ok ((c, v), σ') → Emits σ [] c σ'

@[inherit_doc CondEmits]
abbrev StmtEmits (g : Gen Code) : Prop :=
  ∀ {σ σ' : Supply} {c : Code}, g σ = .ok (c, σ') → Emits σ [] c σ'

theorem truth_emits {g : Gen (Code × Value)} (hg : CondEmits g) : CondEmits (truth g) := by
  intro σ σ' c v h
  obtain ⟨c1, x, σ1, h1, rfl, -, rfl⟩ := truth_ok h
  exact (hg h1).trans (.of_extends (Supply.Extends.refl _).bump _)

/-- A connective reserves the blocks of its right operand and of its phi
between the code of its operands. -/
theorem connect_emits {op : LogicOp} {lhs rhs : Gen (Code × Value)} (hlhs : CondEmits lhs)
    (hrhs : CondEmits rhs) : CondEmits (connect op lhs rhs) := by
  intro σ σ' c v h
  obtain ⟨c1, left, σ1, c2, right, σ2, h1, h2, rfl, -, rfl⟩ := connect_ok h
  refine (hlhs h1).trans ?_
  have hrhs := ((Emits.refl ((σ1.name "cond_rhs").name "cond_phi")).perform
    (decision op left σ1.names.size (σ1.names.size + 1))).start (l := σ1.names.size)
    (by grind) (by simp) |>.trans (hrhs h2)
  have hphi := (hrhs.perform (.jump (σ1.names.size + 1))).start (l := σ1.names.size + 1)
    (by simp) (by simp)
  exact (hphi.trans (.of_extends (Supply.Extends.refl _).bump.bump _)).close rfl rfl
    (by grind) (by simp) (((Supply.Named.refl _).name (by simp [blockNames])).name (by simp [blockNames]))

theorem lowerCond_emits (cond : Cond) : CondEmits (lowerCond ctx cond) := by
  induction cond with
  | expr e =>
    intro σ σ' c v h
    obtain ⟨is, h1, rfl⟩ := lowerCond_expr h
    exact .of_extends (lowerExpr_extends e h1) is
  | compare span op a b iha ihb =>
    intro σ σ' c v h
    obtain ⟨_, _, _, _, _, _, h1, h2, rfl, -, rfl⟩ := lowerCond_compare h
    exact ((iha h1).trans (ihb h2)).trans (.of_extends (Supply.Extends.refl _).bump.bump _)
  | logic span op a b iha ihb =>
    rw [lowerCond_logic]
    exact connect_emits (truth_emits iha) (truth_emits ihb)

section

variable {cond : Gen (Code × Value)} (hcond : CondEmits cond)

include hcond

theorem branchCode_emits {join : Label} {body : Gen Code} (hbody : StmtEmits body) :
    StmtEmits (branchCode join cond body) := by
  intro σ σ' c h
  obtain ⟨c1, v, σ1, c2, σ2, h1, h2, rfl, rfl⟩ := branchCode_ok h
  have hyes := ((hcond h1).perform (.branch v σ.names.size (σ.names.size + 1))).start
    (l := σ.names.size) (by grind) (by simp) |>.trans (hbody h2)
  have hno := (hyes.perform (.jump join)).start (l := σ.names.size + 1) (by simp) (by simp)
  have hall : Emits σ [] _ _ := hno.close rfl rfl (by grind) (by simp)
    (((Supply.Named.refl _).name (by simp [blockNames])).name (by simp [blockNames]))
  simpa only [append_assoc] using hall

theorem loopCode_emits {body : Loop → Gen Code} (hbody : ∀ loop, StmtEmits (body loop)) :
    StmtEmits (loopCode cond body) := by
  intro σ σ' c h
  obtain ⟨c1, v, σ1, c2, σ2, h1, h2, rfl, rfl⟩ := loopCode_ok h
  have hcond := ((Emits.refl (((σ.name "while_cond").name "while_body").name "while_next")).perform
    (.jump σ.names.size)).start (l := σ.names.size) (by grind) (by simp)
    |>.trans (hcond h1)
  have hbody := (hcond.perform (.branch v (σ.names.size + 1) (σ.names.size + 2))).start
    (l := σ.names.size + 1) (by simp) (by simp) |>.trans (hbody _ h2)
  have hnext := (hbody.perform (.jump σ.names.size)).start (l := σ.names.size + 2) (by simp)
    (by simp)
  have hall : Emits σ [] _ _ := hnext.close rfl rfl (by grind) (by simp)
    ((((Supply.Named.refl _).name (by simp [blockNames])).name (by simp [blockNames])).name
      (by simp [blockNames]))
  simpa only [append_assoc, nil_append] using hall

end

theorem Emits.deadEnd (σ : Supply) (op : Op) :
    Emits σ [] (Lower.perform op ++ [.label σ.names.size])
      ((σ.name "dead").enter σ.names.size) :=
  ((Emits.refl (σ.name "dead")).perform op).start (by simp) (by simp)
    |>.close rfl rfl (by simp) (by simp) ((Supply.Named.refl σ).name (by simp [blockNames]))

theorem leaveTo_emits {target : Option Label} : StmtEmits (leaveTo target) := by
  intro σ σ' c h
  obtain ⟨-, rfl, rfl⟩ | ⟨l, -, rfl, rfl⟩ := leaveTo_ok h
  · exact .refl _
  · exact .deadEnd _ _

mutual

theorem lowerStmt_emits : ∀ (s : Stmt) {ctx : Context}, StmtEmits (lowerStmt ctx s)
  | .assign target mark value, ctx, σ, σ', c, h => by
    obtain ⟨_, _, _, _, _, _, h1, h2, rfl⟩ := lowerStmt_assign h
    exact .of_extends ((lowerExpr_extends _ h1).trans (lowerAddress_extends h2)) _
  | .eval none, ctx, σ, σ', c, h => by
    rw [lowerStmt] at h
    obtain ⟨rfl, rfl⟩ := pure_ok.1 h
    exact .refl _
  | .eval (some e), ctx, σ, σ', c, h => by
    obtain ⟨is, _, h1, rfl⟩ := lowerStmt_eval h
    exact .of_extends (lowerExpr_extends e h1) is
  | .block b, ctx, σ, σ', c, h => by
    rw [lowerStmt] at h
    exact lowerBlock_emits b h
  | .if_ cond body rest, ctx, σ, σ', c, h => by
    obtain ⟨c1, σ1, c2, σ2, h1, h2, rfl, rfl⟩ := lowerStmt_if h
    have hfirst := branchCode_emits (truth_emits (lowerCond_emits cond)) (lowerStmt_emits body) h1
    have hrest := hfirst.trans (lowerOtherwise_emits rest h2)
    have hjoin := (hrest.perform (.jump σ.names.size)).start (l := σ.names.size) (by simp) (by simp)
    have hall : Emits σ [] _ _ := hjoin.close rfl rfl (by simp) (by simp)
      ((Supply.Named.refl σ).name (by simp [blockNames]))
    simpa only [append_assoc] using hall
  | .while_ cond body, ctx, σ, σ', c, h => by
    rw [lowerStmt] at h
    exact loopCode_emits (truth_emits (lowerCond_emits cond)) (fun _ => lowerStmt_emits body) h
  | .break_ _, ctx, σ, σ', c, h | .continue_ _, ctx, σ, σ', c, h => by
    rw [lowerStmt] at h
    exact leaveTo_emits h
  | .return_ _ none, ctx, σ, σ', c, h => by
    rw [lowerStmt] at h
    obtain ⟨rfl, rfl⟩ := deadEnd_ok.1 h
    exact .deadEnd _ _
  | .return_ _ (some e), ctx, σ, σ', c, h => by
    obtain ⟨is, v, σ1, h1, rfl, rfl⟩ := lowerStmt_return h
    have hall := (Emits.of_extends (lowerExpr_extends e h1) is).trans (.deadEnd σ1 (.ret v))
    simpa [straight, perform] using hall

theorem lowerBlock_emits : ∀ (b : Block) {ctx : Context}, StmtEmits (lowerBlock ctx b)
  | .nil, ctx, σ, σ', c, h => by
    rw [lowerBlock] at h
    obtain ⟨rfl, rfl⟩ := pure_ok.1 h
    exact .refl _
  | .decl d rest, ctx, σ, σ', c, h => by
    obtain ⟨is, _, _, _, h1, h2, rfl⟩ := lowerBlock_decl h
    exact (Emits.of_extends (lowerDefinitions_extends h1) is).trans (lowerBlock_emits rest h2)
  | .stmt s rest, ctx, σ, σ', c, h => by
    obtain ⟨_, _, _, h1, h2, rfl⟩ := lowerBlock_stmt h
    exact (lowerStmt_emits s h1).trans (lowerBlock_emits rest h2)

theorem lowerOtherwise_emits : ∀ (o : Otherwise) {ctx : Context} {join : Label},
    StmtEmits (lowerOtherwise ctx join o)
  | .done, ctx, join, σ, σ', c, h => by
    rw [lowerOtherwise] at h
    obtain ⟨rfl, rfl⟩ := pure_ok.1 h
    exact .refl _
  | .else_ s, ctx, join, σ, σ', c, h => by
    rw [lowerOtherwise] at h
    exact lowerStmt_emits s h
  | .elseIf cond body rest, ctx, join, σ, σ', c, h => by
    obtain ⟨_, _, _, h1, h2, rfl⟩ := lowerOtherwise_elseIf h
    have hfirst := branchCode_emits (truth_emits (lowerCond_emits cond)) (lowerStmt_emits body) h1
    exact hfirst.trans (lowerOtherwise_emits rest h2)

end

/-! ## Functions -/

/-- **The blocks of a function**: the first is the entry, no block is started
twice, and every block that is started was handed out. -/
theorem functionCode_layout {c : Code} (h : functionCode symbols functions f {} = .ok (c, σ')) :
    c.layout.Nodup ∧ c.layout.head? = some 0 ∧ ∀ l : Nat, l ∈ c.layout → l < σ'.names.size := by
  obtain ⟨is, inner, σ1, body, hparams, hbody, rfl⟩ := functionCode_ok h
  have hext := lowerParameters_extends hparams
  have hnames : σ1.names.size = 1 := congrArg Array.size hext.names
  have hemits := lowerBlock_emits f.body hbody
  have hfresh := hemits.fresh
  have hle := hemits.names
  rw [hnames] at hle
  have hlayout : Code.layout ([.label 0] ++ straight is ++ body ++ perform (lastOp f.returns))
      = 0 :: body.layout := by simp
  rw [hlayout]
  refine ⟨nodup_cons.2 ⟨fun hmem => ?_, hemits.nodup⟩, rfl, ?_⟩
  · have := (hfresh 0 hmem).resolve_left not_mem_nil
    omega
  · intro l hl
    rcases mem_cons.1 hl with rfl | hl
    · exact hle
    · exact ((hfresh l hl).resolve_left not_mem_nil).2

/-- Blocks of functions have known names. -/
theorem functionCode_named {c : Code} (h : functionCode symbols functions f {} = .ok (c, σ')) :
    ∀ name ∈ σ'.names, name ∈ blockNames := by
  obtain ⟨is, inner, σ1, body, hparams, hbody, rfl⟩ := functionCode_ok h
  intro name hname
  rcases (lowerBlock_emits f.body hbody).named name hname with hfirst | hname
  · rw [(lowerParameters_extends hparams).names] at hfirst
    obtain rfl : name = "entry" := by simpa using hfirst
    simp [blockNames]
  · exact hname

/-- **Every block that is handed out is started**, and once. -/
theorem functionCode_layout_perm
    {c : Code} (h : functionCode symbols functions f {} = .ok (c, σ')) :
    c.layout.Perm (List.range σ'.names.size) := by
  obtain ⟨hnodup, -, hlt⟩ := functionCode_layout h
  obtain ⟨is, inner, σ1, body, hparams, hbody, rfl⟩ := functionCode_ok h
  have hnames : σ1.names.size = 1 := congrArg Array.size (lowerParameters_extends hparams).names
  have hcount := (lowerBlock_emits f.body hbody).count
  rw [hnames, length_nil] at hcount
  refine (subperm_of_subset hnodup fun l hl => mem_range.2 (hlt l hl)).perm_of_length_le ?_
  simp only [length_range, Code.layout_append, Code.layout_label, Code.layout_nil,
    Code.layout_straight, Code.layout_perform, length_append, length_cons, length_nil]
  omega

end Lower

end SysY
