import SysY.Proofs.Rv32.Flows

/-!
# Immediates can be encoded

The assembler takes an immediate of twelve bits for an access to memory, and a
word where one is loaded. Constants are words; what is left are the offsets
from the stack pointer. If all that a function keeps on the stack is below 2^31
bytes from the stack pointer (`Home.Near`), then every instruction of its code
can be encoded as it is written (`Compiled.encodable`).
-/

namespace SysY

open IR

variable {offset : Nat}

namespace Rv32

/-! ## Immediates -/

/-- **The immediates of an instruction can be encoded**: twelve bits, where
memory is accessed upward from a register only, five bits for a shift, and a
word where one is loaded. -/
def Instr.Encodable : Instr → Prop
  | .li _ n => -0x80000000 ≤ n ∧ n < 0x80000000
  | .addi _ _ n | .xori _ _ n => -2048 ≤ n ∧ n < 2048
  | .lw _ n _ | .sw _ n _ => 0 ≤ n ∧ n < 2048
  | .slli _ _ n => n < 32
  | _ => True

instance : DecidablePred Instr.Encodable := fun i => by
  unfold Instr.Encodable
  split <;> infer_instance

/-- All of the code can be encoded. -/
def Encodable (code : List Instr) : Prop := ∀ i ∈ code, i.Encodable

theorem encodable_li (rd : Reg) (w : Int32) : (Instr.li rd w.toInt).Encodable :=
  ⟨w.le_toInt, w.toInt_lt⟩

/-- An offset below 2^31 that fits an immediate as a word fits it. -/
theorem lt_of_fitsImmediate (h : offset < 0x80000000)
    (hfits : fitsImmediate (Int32.ofNat offset) = true) : offset < 2048 := by
  rw [fitsImmediate, Int32.toInt_ofNat_of_lt h, Bool.and_eq_true, decide_eq_true_eq,
    decide_eq_true_eq] at hfits
  omega

/-- Accesses at offsets below 2^31 can be encoded. -/
theorem encodable_atStack {access : Int → Reg → Instr} (h : offset < 0x80000000)
    (haccess : ∀ n base, 0 ≤ n ∧ n < 2048 → (access n base).Encodable) :
    Encodable (atStack access offset) := by
  refine forall_atStack (fun hfits => haccess _ _ ?_) ⟨by omega, by omega⟩ trivial
    (haccess _ _ (by decide))
  have hlt := lt_of_fitsImmediate h hfits
  omega

theorem encodable_loadStack (rd : Reg) (h : offset < 0x80000000) :
    Encodable (loadStack rd offset) := encodable_atStack h fun _ _ hn => hn

theorem encodable_storeStack (rs : Reg) (h : offset < 0x80000000) :
    Encodable (storeStack rs offset) := encodable_atStack h fun _ _ hn => hn

theorem encodable_stackAddress (rd : Reg) (h : offset < 0x80000000) :
    Encodable (stackAddress rd offset) := by
  refine forall_stackAddress (fun hfits => ?_) ⟨by omega, by omega⟩ trivial
  have hlt := lt_of_fitsImmediate h hfits
  exact ⟨by omega, by omega⟩

theorem encodable_moveStack (w : Int32) : Encodable (moveStack w) := by
  refine forall_moveStack (fun hfits => ?_) (encodable_li frameReg w) trivial
  rw [fitsImmediate, Bool.and_eq_true, decide_eq_true_eq, decide_eq_true_eq] at hfits
  exact hfits

/-! ## Functions that keep everything near -/

/-- **Everything that a function reaches from its stack pointer is near.** -/
def Home.Near (h : Home) (lines : List Line) : Prop :=
  ∀ ⦃obj offset n⦄, h.Keeps lines obj offset n → offset < 0x80000000

namespace Home

variable {h : Home} {lines : List Line}

/-- **What lines become can be encoded.** -/
theorem Writes.encodable {i : Instr} (hi : h.Writes lines i) (hnear : h.Near lines) :
    i.Encodable := by
  cases hi with
  | const rd n => exact encodable_li rd n
  | stack hk hi =>
    have hlt := hnear hk
    rcases hi with hi | hi
    · exact encodable_loadStack _ hlt _ hi
    · exact encodable_storeStack _ hlt _ hi
  | address hk hi => exact encodable_stackAddress _ (hnear hk) _ hi
  | leave hi => exact encodable_moveStack _ _ hi
  | branch hname hi => obtain rfl | rfl | rfl := hi <;> trivial
  | negate | scale | load | store => exact of_decide_eq_true rfl
  | global | mv | alu | seqz | snez | call | ret => trivial

end Home

/-! ## Emitted code -/

/-- The instructions among lines can be encoded. -/
def EncodableLines (lines : List AsmLine) : Prop := ∀ i, .instr i ∈ lines → i.Encodable

theorem encodableLines_append {a b : List AsmLine} (ha : EncodableLines a) (hb : EncodableLines b) :
    EncodableLines (a ++ b) := fun i hi => (List.mem_append.1 hi).elim (ha i) (hb i)

/-- **The code of a function can be encoded.** -/
theorem Compiled.encodable (F : Compiled) (hnear : F.home.Near F.flat.lines) {annotate : Bool} {prologue : List Instr}
    {body : List AsmLine} (hprologue : F.home.prologue = .ok prologue)
    (hbody : F.home.blocksCode annotate F.flat.blocks = .ok body) :
    EncodableLines (prologue.map .instr ++ body) := by
  refine encodableLines_append (fun i hi => ?_) fun i hi => ?_
  · obtain ⟨j, hj, heq⟩ := List.mem_map.1 hi
    cases heq
    exact forall_prologue hprologue encodable_moveStack
      (fun x hx => encodable_storeStack x.1 (hnear (.cell hx))) _ hj
  · exact ((F.flows_all hbody).instr hi).1.encodable hnear

end Rv32

end SysY
