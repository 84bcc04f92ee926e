import Armator.Proof.Wide

/-!
# The flags of the arithmetic operations

`Add`, `Sub` and the other arithmetic operations pass the unsigned carry or borrow to
`updateCpsr` where V, the signed overflow, is asked for; the two agree for some signs and
magnitudes of the operands only. The operations with a carry-in moreover compute N, Z and C
from expressions that are off by one: `Sbc` tests `x - y - d - 1`, where it writes
`x - y - d`.
-/

namespace Armator.Sim

open Lib Spec

/-- The operation returns 0 with the flags `f`, the rest of the CPSR being as it was. -/
def LeavesFlags (p : ArmCore) (opcode s : BitVec 8) (rn rd : BitVec 4) (b : BitVec 32)
    (carryOut : BitVec 8) (f : Flags) : Prop :=
  ∃ p', dataProcessing p opcode s (rn.setWidth 8) (rd.setWidth 8) b carryOut = .ok (0, p') ∧
    armReadCpsr p' = packFlags f (armReadCpsr p)

section Leaves

variable {p : ArmCore} {opcode s carryOut : BitVec 8} {rn rd : BitVec 4} {b dest : BitVec 32}
  {f g : Flags} {c v : Bool}

theorem packFlags_inj {w : BitVec 32} : packFlags f w = packFlags g w ↔ f = g :=
  ⟨fun h => by rw [← flagsOf_packFlags f w, h, flagsOf_packFlags], fun h => by rw [h]⟩

theorem field_lt (r : BitVec 4) : (r.setWidth 8 : BitVec 8).toNat < 16 := by
  rw [toNat_field]
  exact r.isLt

theorem field_ne {r : BitVec 4} (hr : r ≠ 15) : (r.setWidth 8 : BitVec 8) ≠ 15 := fun h => hr (by
  have h := congrArg BitVec.toNat h
  rw [toNat_field] at h
  exact BitVec.eq_of_toNat_eq h)

theorem leavesFlags_iff (hop : opcode.toNat < 16)
    (hset : SetsFlags opcode.toNat s (rd.setWidth 8))
    (h : flagInputs opcode.toNat (p.read rn.toNat) (p.read rd.toNat) b p.flags.c carryOut =
      ⟨dest, flagBit c, flagBit v⟩) :
    LeavesFlags p opcode s rn rd b carryOut f ↔ resultFlags dest c v = f := by
  have hrun := dataProcessing_eq s carryOut b hop (armReadRegister_setWidth p rn) (field_lt rd)
  rw [toNat_field, h] at hrun
  rw [LeavesFlags, exists_snd_iff hrun, armReadCpsr_operated_of_sets hset (field_lt rd),
    armReadCpsr_updateCpsr (by decide), packFlags_inj]

end Leaves

/-! ## Carry and overflow -/

/-- When the carry of `x + y + c` is the signed overflow, by the signs of the summands. -/
def SumExact (x y : BitVec 32) (c : Bool) : Prop :=
  if 0 ≤ x.toInt ∧ 0 ≤ y.toInt then x.toInt + y.toInt + c.toNat < 2 ^ 31
  else if x.toInt < 0 ∧ y.toInt < 0 then x.toInt + y.toInt + c.toNat < -2 ^ 31
  else x.toInt + y.toInt + c.toNat < 0

/-- When the borrow of `x - y` is the signed overflow. -/
def DifferenceExact (x y : BitVec 32) : Prop :=
  if 0 ≤ x.toInt ∧ y.toInt < 0 then 2 ^ 31 ≤ x.toInt - y.toInt
  else if x.toInt < 0 ∧ 0 ≤ y.toInt then -2 ^ 31 ≤ x.toInt - y.toInt
  else y.toInt ≤ x.toInt

section Words

variable {x y : BitVec 32}

theorem addCarry_eq_overflow_iff (c : Bool) :
    addCarry x y c = signedOverflow (x.toInt + y.toInt + c.toNat) ↔ SumExact x y c := by
  have hx := x.isLt
  have hy := y.isLt
  have hc : c.toNat ≤ 1 := Bool.toNat_le c
  unfold addCarry signedOverflow SumExact
  rw [decide_eq_decide, BitVec.toInt_eq_toNat_cond, BitVec.toInt_eq_toNat_cond]
  generalize c.toNat = c at hc ⊢
  split <;> split <;> split <;> try split
  all_goals omega

theorem subBorrow_eq_overflow_iff :
    subBorrow x y false = signedOverflow (x.toInt - y.toInt) ↔ DifferenceExact x y := by
  have hx := x.isLt
  have hy := y.isLt
  unfold subBorrow signedOverflow DifferenceExact
  rw [decide_eq_decide, Bool.toNat_false, Nat.add_zero, BitVec.toInt_eq_toNat_cond,
    BitVec.toInt_eq_toNat_cond]
  split <;> split <;> split <;> try split
  all_goals omega

end Words

/-! ## Operations without a carry-in -/

/-- `ADD`, `SUB`, `RSB`, `CMP` and `CMN`. -/
inductive Arithmetic where
  | sub
  | rsb
  | add
  | cmp
  | cmn
  deriving DecidableEq, Repr

namespace Arithmetic

def opcode : Arithmetic → BitVec 8
  | sub => 0x2
  | rsb => 0x3
  | add => 0x4
  | cmp => 0xA
  | cmn => 0xB

/-- The flags of the exact result. -/
def flags (a b : BitVec 32) : Arithmetic → Flags
  | sub | cmp => differenceFlags a b false
  | rsb => differenceFlags b a false
  | add | cmn => sumFlags a b false

def Exact (a b : BitVec 32) : Arithmetic → Prop
  | sub | cmp => DifferenceExact a b
  | rsb => DifferenceExact b a
  | add | cmn => SumExact a b false

end Arithmetic

section Arithmetic

variable {p : ArmCore} {s carryOut : BitVec 8} {rn rd : BitVec 4} {b : BitVec 32}

/-- Only V may be wrong. -/
theorem sum_flags_iff (x y : BitVec 32) :
    resultFlags (x + y) (addCarry x y false) (addCarry x y false) = sumFlags x y false ↔
      SumExact x y false := by
  rw [← addCarry_eq_overflow_iff, sumFlags, addWord, Bool.toNat_false, BitVec.add_zero, resultFlags]
  simp

theorem difference_flags_iff (x y : BitVec 32) :
    resultFlags (x - y) (!subBorrow x y false) (subBorrow x y false) = differenceFlags x y false ↔
      DifferenceExact x y := by
  rw [← subBorrow_eq_overflow_iff, differenceFlags, subWord, Bool.toNat_false, BitVec.sub_zero,
    resultFlags]
  simp

/-- **Flags without a carry-in**: they are right exactly where the unsigned carry or borrow is
the signed overflow. -/
theorem arithmetic_leavesFlags_iff (op : Arithmetic)
    (hset : SetsFlags op.opcode.toNat s (rd.setWidth 8)) :
    LeavesFlags p op.opcode s rn rd b carryOut (op.flags (p.read rn.toNat) b) ↔
      op.Exact (p.read rn.toNat) b := by
  have hop : op.opcode.toNat < 16 := by cases op <;> decide
  cases op with
  | sub => exact (leavesFlags_iff hop hset rfl).trans (difference_flags_iff _ _)
  | rsb => exact (leavesFlags_iff hop hset rfl).trans (difference_flags_iff _ _)
  | add => exact (leavesFlags_iff hop hset rfl).trans (sum_flags_iff _ _)
  | cmp => exact (leavesFlags_iff hop hset rfl).trans (difference_flags_iff _ _)
  | cmn => exact (leavesFlags_iff hop hset rfl).trans (sum_flags_iff _ _)

/-- `adds r0, r1, r2` of 1 and 2 -/
theorem arithmetic_leavesFlags_iff_add :
    LeavesFlags ⟨0, .ofFn fun _ => 1, .ofBytes [], []⟩ 0x4 1 1 0 2 0
      (Arithmetic.add.flags 1 2) :=
  (arithmetic_leavesFlags_iff .add (.inr ⟨rfl, by decide⟩)).mpr (by
    unfold Arithmetic.Exact SumExact
    decide)

/-- `adds r0, r1, r2` of 1 and -1 sets V. -/
theorem not_leavesFlags_add :
    ¬ LeavesFlags ⟨0, .ofFn fun _ => 1, .ofBytes [], []⟩ 0x4 1 1 0 0xFFFFFFFF 0
      (Arithmetic.add.flags 1 0xFFFFFFFF) := by
  rintro ⟨p', hrun, hcpsr⟩
  cases hrun
  exact absurd hcpsr (by decide)

end Arithmetic

/-! ## Operations with a carry-in -/

/-- `ADC`, `SBC` and `RSC`. -/
inductive WithCarry where
  | adc
  | sbc
  | rsc
  deriving DecidableEq, Repr

/-- When the three flags of `x - y - d` come out right: N and Z are those of `x - y - d - 1`,
C compares `x` with `y - d` and V with `y + 1 + d`, both modulo `2 ^ 32`. -/
def BorrowExact (x y : BitVec 32) (d : Bool) : Prop :=
  (subWord x y d ≠ 0 ∧ subWord x y d ≠ 1 ∧ subWord x y d ≠ 0x80000000) ∧
  (d = true → if y = 0 then x = 0 ∨ x = 0xFFFFFFFF else x ≠ y ∧ x ≠ y - 1) ∧
  -- where `y + 1 + d` wraps around, V is 0 and there is no overflow left
  (y.toInt = -1 ∨ d = true ∧ y.toInt = -2 ∨
    if 0 ≤ x.toInt ∧ y.toInt < 0 then 2 ^ 31 ≤ x.toInt - y.toInt - d.toNat
    else if x.toInt < 0 ∧ 0 ≤ y.toInt then -2 ^ 31 ≤ x.toInt - y.toInt - d.toNat
    else 0 < x.toInt - y.toInt - d.toNat)

namespace WithCarry

def opcode : WithCarry → BitVec 8
  | adc => 0x5
  | sbc => 0x6
  | rsc => 0x7

/-- The flags of the exact result. -/
def flags (a b : BitVec 32) (c : Bool) : WithCarry → Flags
  | adc => sumFlags a b c
  | sbc => differenceFlags a b (!c)
  | rsc => differenceFlags b a (!c)

def Exact (a b : BitVec 32) (c : Bool) : WithCarry → Prop
  -- a carry into all ones is lost
  | adc => ¬ (b = 0xFFFFFFFF ∧ c = true) ∧ SumExact a b c
  | sbc => BorrowExact a b (!c)
  | rsc => BorrowExact b a (!c)

end WithCarry

section WithCarry

variable {p : ArmCore} {carryOut : BitVec 8} {rn rd : BitVec 4} {b : BitVec 32}

theorem adc_flags_iff (x y : BitVec 32) (c : Bool) :
    resultFlags (x + (y + BitVec.ofNat 32 c.toNat)) (adcCarry x y c) (adcCarry x y c) =
      sumFlags x y c ↔ ¬ (y = 0xFFFFFFFF ∧ c = true) ∧ SumExact x y c := by
  have hcarry : adcCarry x y c = addCarry x y c ↔ ¬ (y = 0xFFFFFFFF ∧ c = true) := by
    rw [adcCarry_eq_iff, not_and']
  rw [← hcarry, ← addCarry_eq_overflow_iff, sumFlags, addWord, ← BitVec.add_assoc, resultFlags]
  simp only [Flags.mk.injEq, true_and]
  refine and_congr_right fun h => ?_
  rw [h]

theorem pred_flags_iff (r : BitVec 32) :
    ((r - 1).msb = r.msb ∧ decide (r - 1 = 0) = decide (r = 0)) ↔
      r ≠ 0 ∧ r ≠ 1 ∧ r ≠ 0x80000000 := by
  rw [BitVec.msb_eq_decide, BitVec.msb_eq_decide, decide_eq_decide, decide_eq_decide]
  bv_omega

theorem borrow_carry_iff (x y : BitVec 32) (d : Bool) :
    sbcBorrow x y d = subBorrow x y d ↔
      (d = true → if y = 0 then x = 0 ∨ x = 0xFFFFFFFF else x ≠ y ∧ x ≠ y - 1) := by
  rw [sbcBorrow_eq_iff]
  refine forall_congr' fun _ => ?_
  split <;> bv_omega

theorem borrow_overflow_iff (x y : BitVec 32) (d : Bool)
    (h : subWord x y d ≠ 0 ∧ subWord x y d ≠ 1 ∧ subWord x y d ≠ 0x80000000) :
    subBorrow x (y - ~~~BitVec.ofNat 32 d.toNat) false =
        signedOverflow (x.toInt - y.toInt - d.toNat) ↔
      (y.toInt = -1 ∨ d = true ∧ y.toInt = -2 ∨
        if 0 ≤ x.toInt ∧ y.toInt < 0 then 2 ^ 31 ≤ x.toInt - y.toInt - d.toNat
        else if x.toInt < 0 ∧ 0 ≤ y.toInt then -2 ^ 31 ≤ x.toInt - y.toInt - d.toNat
        else 0 < x.toInt - y.toInt - d.toNat) := by
  have hx := x.isLt
  have hy := y.isLt
  have hd : d.toNat ≤ 1 := Bool.toNat_le d
  have hd1 : d = true ↔ d.toNat = 1 := by cases d <;> decide
  have hr : (subWord x y d).toNat = (x.toNat + 2 ^ 33 - y.toNat - d.toNat) % 2 ^ 32 := by
    rw [subWord, BitVec.toNat_sub, BitVec.toNat_sub, BitVec.toNat_ofNat]
    omega
  have hlimit : (y - ~~~BitVec.ofNat 32 d.toNat).toNat = (y.toNat + 1 + d.toNat) % 2 ^ 32 := by
    rw [BitVec.toNat_sub, BitVec.toNat_not, BitVec.toNat_ofNat]
    omega
  have h0 : (subWord x y d).toNat ≠ 0 := fun h' => h.1 (BitVec.eq_of_toNat_eq h')
  have h31 : (subWord x y d).toNat ≠ 2 ^ 31 := fun h' => h.2.2 (BitVec.eq_of_toNat_eq h')
  unfold subBorrow signedOverflow
  rw [decide_eq_decide, hlimit, hd1, Bool.toNat_false, BitVec.toInt_eq_toNat_cond,
    BitVec.toInt_eq_toNat_cond]
  rw [hr] at h0 h31
  generalize d.toNat = d at hd h0 h31 ⊢
  split <;> split <;> split <;> try split
  all_goals omega

theorem borrow_flags_iff (x y : BitVec 32) (d : Bool) :
    resultFlags (x - (y - ~~~BitVec.ofNat 32 d.toNat)) (!sbcBorrow x y d)
        (subBorrow x (y - ~~~BitVec.ofNat 32 d.toNat) false) = differenceFlags x y d ↔
      BorrowExact x y d := by
  have hdest : x - (y - ~~~BitVec.ofNat 32 d.toNat) = subWord x y d - 1 := by
    rw [subWord]
    bv_omega
  rw [BorrowExact, hdest, differenceFlags, resultFlags, ← borrow_carry_iff]
  simp only [Flags.mk.injEq, Bool.not_inj_iff]
  rw [← and_assoc, pred_flags_iff]
  exact and_congr_right fun hr => and_congr_right fun _ => borrow_overflow_iff x y d hr

/-- The operation with S = 1 returns 0; N and Z are those of the word it has written, C and V
those of the exact result. -/
def FlagsWritten (p : ArmCore) (op : WithCarry) (rn rd : BitVec 4) (b : BitVec 32)
    (carryOut : BitVec 8) : Prop :=
  ∃ p', dataProcessing p op.opcode 1 (rn.setWidth 8) (rd.setWidth 8) b carryOut = .ok (0, p') ∧
    p'.flags = { op.flags (p.read rn.toNat) b p.flags.c with
      n := (p'.reg.get rd.toNat).msb
      z := p'.reg.get rd.toNat = 0 }

/-- **Flags with a carry-in**: they are right exactly where `WithCarry.Exact`. -/
theorem flagsWritten_iff (op : WithCarry) (hrd : rd ≠ 15) :
    FlagsWritten p op rn rd b carryOut ↔ op.Exact (p.read rn.toNat) b p.flags.c := by
  have hop : op.opcode.toNat < 16 := by cases op <;> decide
  have hno : ¬ Discards op.opcode.toNat := by cases op <;> decide
  have key {dest : BitVec 32} {c v : Bool} (h : flagInputs op.opcode.toNat (p.read rn.toNat)
      (p.read rd.toNat) b p.flags.c carryOut = ⟨dest, flagBit c, flagBit v⟩) :
      FlagsWritten p op rn rd b carryOut ↔
        resultFlags dest c v = op.flags (p.read rn.toNat) b p.flags.c := by
    have hrun := dataProcessing_eq 1 carryOut b hop (armReadRegister_setWidth p rn) (field_lt rd)
    rw [toNat_field, h] at hrun
    rw [FlagsWritten, exists_snd_iff hrun, ← toNat_field rd, operated_get_rd hno (field_lt rd),
      ArmCore.flags, armReadCpsr_operated_of_sets (.inr ⟨rfl, field_ne hrd⟩) (field_lt rd),
      armReadCpsr_updateCpsr (by decide), flagsOf_packFlags]
    cases op <;> rfl
  cases op with
  | adc => exact (key rfl).trans (adc_flags_iff _ _ _)
  | sbc => exact (key rfl).trans (borrow_flags_iff _ _ _)
  | rsc => exact (key rfl).trans (borrow_flags_iff _ _ _)

/-- `adcs r0, r1, r2` of 1 and 2 -/
theorem flagsWritten_iff_adc :
    FlagsWritten ⟨0, .ofFn fun _ => 1, .ofBytes [], []⟩ .adc 1 0 2 0 :=
  (flagsWritten_iff .adc (by decide)).mpr (by
    unfold WithCarry.Exact SumExact
    decide)

/-- `adcs r0, r1, r2` of 0 and 0xFFFFFFFF with C set loses the carry. -/
theorem not_flagsWritten_adc :
    ¬ FlagsWritten ⟨0, .ofFn fun i => if i = 16 then 0x20000000 else 0, .ofBytes [], []⟩
      .adc 1 0 0xFFFFFFFF 0 := by
  rintro ⟨p', hrun, hflags⟩
  cases hrun
  exact absurd hflags (by decide)

end WithCarry

end Armator.Sim
