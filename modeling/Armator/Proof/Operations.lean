import Armator.Proof.Step
import Armator.Spec.DataProcessing

/-!
# The operations of the dispatch table

`dataProcessing_eq` is what every proof about an operation starts from: an entry of the
dispatch table leaves `aluResult` in `Rd`, the comparisons apart, and what `updateCpsr` makes
of the operation's `FlagInputs`. There the flags are not those of the result: `And` and `Eor`
test the old `Rd`, and the operations with a carry compute the flags from other expressions
than the word they write.
-/

namespace Armator.Sim

open Lib Spec

/-- The arguments an operation hands to `updateCpsr`. -/
structure FlagInputs where
  dest : BitVec 32
  c : BitVec 8
  v : BitVec 8
  deriving DecidableEq

namespace FlagInputs

/-- A logical operation passes the sentinel for V. -/
def logical (dest : BitVec 32) (carryOut : BitVec 8) : FlagInputs := ⟨dest, carryOut, -1⟩

/-- A sum passes its carry for V too. -/
def sum (x y : BitVec 32) : FlagInputs :=
  ⟨x + y, flagBit (addCarry x y false), flagBit (addCarry x y false)⟩

/-- A difference passes its borrow for V; for C it compares with `y'`. -/
def difference (x y y' : BitVec 32) : FlagInputs :=
  ⟨x - y, flagBit (!subBorrow x y' false), flagBit (subBorrow x y false)⟩

end FlagInputs

/-- What the operations compute from the values of `Rn` and of the old `Rd`, the second
operand and the carry flag. -/
def flagInputs (opcode : Nat) (a old b : BitVec 32) (carry : Bool) (carryOut : BitVec 8) :
    FlagInputs :=
  let borrow := BitVec.ofNat 32 (!carry).toNat
  match opcode with
  | 0 | 1 => .logical old carryOut
  | 2 | 10 => .difference a b b
  | 3 => .difference b a a
  | 4 | 11 => .sum a b
  | 5 => .sum a (b + BitVec.ofNat 32 carry.toNat)
  | 6 => .difference a (b - ~~~borrow) (b - borrow)
  | 7 => .difference b (a - ~~~borrow) (a - borrow)
  | _ => .logical (aluResult opcode a b carry) carryOut

section Carry

variable {p : ArmCore}

theorem carryFromAdd_eq (a b : BitVec 32) :
    (carryFromAdd a b).setWidth 8 = flagBit (addCarry a b false) := by
  have ha := a.isLt
  have hb := b.isLt
  have h1 : (1 : BitVec 64).toNat = 2 ^ 1 - 1 := rfl
  apply BitVec.eq_of_toNat_eq
  rw [addCarry, Bool.toNat_false, Nat.add_zero, flagBit_decide, carryFromAdd, BitVec.toNat_setWidth,
    BitVec.toNat_and, BitVec.toNat_ushiftRight, BitVec.toNat_add, BitVec.toNat_setWidth,
    BitVec.toNat_setWidth, h1, Nat.and_two_pow_sub_one_eq_mod, Nat.shiftRight_eq_div_pow]
  split
  · rw [show (1 : BitVec 8).toNat = 1 from rfl]; omega
  · rw [show (0 : BitVec 8).toNat = 0 from rfl]; omega

theorem carry_eq (p : ArmCore) :
    (armReadCpsr p >>> 29) &&& 0x01 = BitVec.ofNat 32 p.flags.c.toNat := by
  have h : p.flags.c = (armReadCpsr p).getLsbD 29 := rfl
  rw [h]
  change (armReadCpsr p >>> 29) &&& 1 = _
  rw [bit_eq]
  cases (armReadCpsr p).getLsbD 29 <;> rfl

theorem notCarry_eq (c : Bool) :
    ~~~BitVec.ofNat 32 c.toNat &&& 0x01 = BitVec.ofNat 32 (!c).toNat := by
  cases c <;> rfl

theorem builtinAddOverflow_eq (a b : BitVec 32) :
    builtinAddOverflow a b = (flagBit (addCarry a b false), a + b) := by
  rw [builtinAddOverflow, addCarry, flagBit_decide, Bool.toNat_false, Nat.add_zero]
  rfl

theorem builtinSubOverflow_eq (a b : BitVec 32) :
    builtinSubOverflow a b = (flagBit (subBorrow a b false), a - b) := by
  rw [builtinSubOverflow, subBorrow, flagBit_decide, Bool.toNat_false, Nat.add_zero]

theorem notBorrow_eq (a b : BitVec 32) :
    (if a.toNat < b.toNat then 0 else 1 : BitVec 8) = flagBit (!subBorrow a b false) := by
  rw [subBorrow, Bool.toNat_false, Nat.add_zero, flagBit_not_decide]

end Carry

/-! ## What an operation leaves -/

/-- `TST`, `TEQ`, `CMP` and `CMN` write no register and always update the flags. -/
def Discards (opcode : Nat) : Prop := 8 ≤ opcode ∧ opcode ≤ 11

instance (opcode : Nat) : Decidable (Discards opcode) := inferInstanceAs (Decidable (_ ∧ _))

/-- The state an operation leaves. -/
def operated (p : ArmCore) (opcode : Nat) (s rd : BitVec 8) (f : FlagInputs)
    (result : BitVec 32) : ArmCore :=
  if Discards opcode then updateCpsr p f.dest 1 0 f.c f.v
  else
    { updateCpsr p f.dest s rd f.c f.v with
      reg := (updateCpsr p f.dest s rd f.c f.v).reg.set rd.toNat result }

section Operation

variable {p : ArmCore} {opcode rn rd : BitVec 8} {a : BitVec 32}

/-- **The operations**: each returns 0 with its result and its flags. -/
theorem dataProcessing_eq (s carryOut : BitVec 8) (b : BitVec 32) (hop : opcode.toNat < 16)
    (ha : armReadRegister p rn = .ok a) (hrd : rd.toNat < 16) :
    dataProcessing p opcode s rn rd b carryOut =
      .ok (0, operated p opcode.toNat s rd
        (flagInputs opcode.toNat a (p.read rd.toNat) b p.flags.c carryOut)
        (aluResult opcode.toNat a b p.flags.c)) := by
  have hold := armReadRegister_of_lt (p := p) hrd
  have hback (q : ArmCore) (v : BitVec 32) : DataProcessing.writeBack rd (v, q) =
      .ok ((0 : Int), { q with reg := q.reg.set rd.toNat v }) := by
    rw [DataProcessing.writeBack, armWriteRegister_of_lt hrd]
    rfl
  unfold dataProcessing operated
  generalize opcode.toNat = n at hop ⊢
  interval_cases n
  all_goals simp only [DataProcessing.and, DataProcessing.eor, DataProcessing.sub,
    DataProcessing.rsb, DataProcessing.add, DataProcessing.adc, DataProcessing.sbc,
    DataProcessing.rsc, DataProcessing.tst, DataProcessing.teq, DataProcessing.cmp,
    DataProcessing.cmn, DataProcessing.orr, DataProcessing.mov, DataProcessing.bic,
    DataProcessing.mvn, ha, hold, ok_bind, hback, carry_eq, notCarry_eq, builtinAddOverflow_eq,
    builtinSubOverflow_eq, notBorrow_eq, carryFromAdd_eq]
  all_goals rfl

end Operation

/-- The operation sets the flags from its result: a comparison, or S = 1 and `Rd` not R15. -/
def SetsFlags (opcode : Nat) (s rd : BitVec 8) : Prop := Discards opcode ∨ s = 1 ∧ rd ≠ 15

section Operated

variable {p : ArmCore} {opcode : Nat} {s rd : BitVec 8} {f : FlagInputs} {result : BitVec 32}

theorem updateCpsr_of_ne {dest : BitVec 32} {c v : BitVec 8} (h : rd ≠ 15) :
    updateCpsr p dest 1 rd c v = updateCpsr p dest 1 0 c v := by
  unfold updateCpsr
  simp only [true_and, h, if_false, show ¬ (0 : BitVec 8) = 15 by decide]

theorem operated_get_rd (hno : ¬ Discards opcode) (hrd : rd.toNat < 16) :
    (operated p opcode s rd f result).reg.get rd.toNat = result := by
  rw [operated, if_neg hno]
  dsimp only
  rw [Registers.get_set (by unfold NB_REGISTER; omega), if_pos rfl]

theorem operated_get {i : Nat} (hrd : rd.toNat < 16) (hi : i ≠ 16)
    (h : Discards opcode ∨ i ≠ rd.toNat) :
    (operated p opcode s rd f result).reg.get i = p.reg.get i := by
  unfold operated
  split
  · exact updateCpsr_get hi
  · rename_i hno
    dsimp only
    rw [Registers.get_set (by unfold NB_REGISTER; omega), if_neg (h.resolve_left hno)]
    exact updateCpsr_get hi

theorem operated_mem : (operated p opcode s rd f result).mem = p.mem := by
  unfold operated
  split
  · exact updateCpsr_mem _ _ _ _ _ _
  · exact updateCpsr_mem _ _ _ _ _ _

theorem armReadCpsr_operated (hno : ¬ Discards opcode) (hrd : rd.toNat < 16) :
    armReadCpsr (operated p opcode s rd f result) =
      armReadCpsr (updateCpsr p f.dest s rd f.c f.v) := by
  rw [operated, if_neg hno]
  exact registersReadCpsr_set hrd

theorem armReadCpsr_operated_of_sets (h : SetsFlags opcode s rd) (hrd : rd.toNat < 16) :
    armReadCpsr (operated p opcode s rd f result) =
      armReadCpsr (updateCpsr p f.dest 1 0 f.c f.v) := by
  by_cases hno : Discards opcode
  · rw [operated, if_pos hno]
  · obtain ⟨hs, hne⟩ := h.resolve_left hno
    rw [armReadCpsr_operated hno hrd, hs, updateCpsr_of_ne hne]

end Operated

end Armator.Sim
