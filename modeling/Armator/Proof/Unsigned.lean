import Armator.Proof.Compare

/-!
# Unsigned comparison

`Cmp` leaves the negated borrow in C and the zero test of the difference in Z, which is
what the unsigned conditions read; the V flag, which it gets wrong, they do not read.
`UnsignedCond.Rel` is what each of them says about the operands.
-/

namespace Armator.Sim

open Lib Spec

/-- The conditions an unsigned comparison is read with, and the two on the sign. -/
inductive UnsignedCond where
  | eq
  | ne
  | cs
  | cc
  | mi
  | pl
  | hi
  | ls
  deriving DecidableEq, Repr

namespace UnsignedCond

def code : UnsignedCond → BitVec 4
  | eq => 0x0
  | ne => 0x1
  | cs => 0x2
  | cc => 0x3
  | mi => 0x4
  | pl => 0x5
  | hi => 0x8
  | ls => 0x9

def Rel (a b : BitVec 32) : UnsignedCond → Prop
  | eq => a.toNat = b.toNat
  | ne => a.toNat ≠ b.toNat
  | cs => b.toNat ≤ a.toNat
  | cc => a.toNat < b.toNat
  | mi => (a - b).getLsbD 31 = true
  | pl => (a - b).getLsbD 31 = false
  | hi => b.toNat < a.toNat
  | ls => a.toNat ≤ b.toNat

end UnsignedCond

/-- After `Cmp` an instruction with the condition `c` is accepted if the value of `rn` and
the operand are so related, and skipped if they are not. -/
def CmpDecidesUnsigned (p : ArmCore) (rn : BitVec 8) (op2 : BitVec 32) (c : UnsignedCond) : Prop :=
  ∃ a p', armReadRegister p rn = .ok a ∧ DataProcessing.cmp p rn op2 = .ok p' ∧
    ∀ ins, condField ins = c.code →
      (c.Rel a op2 → armCheckCond p' ins = 1) ∧ (¬ c.Rel a op2 → armCheckCond p' ins = 0)

section Unsigned

variable {a b : BitVec 32}

theorem accepts_unsigned (c : UnsignedCond) (f : Flags) :
    accepts c.code f = true ↔
      match c with
      | .eq => f.z = true
      | .ne => f.z = false
      | .cs => f.c = true
      | .cc => f.c = false
      | .mi => f.n = true
      | .pl => f.n = false
      | .hi => f.c = true ∧ f.z = false
      | .ls => f.c = false ∨ f.z = true := by
  cases c <;> simp [accepts, UnsignedCond.code, passes]

theorem sub_eq_zero_iff : a - b = 0 ↔ a.toNat = b.toNat := by
  rw [BitVec.toNat_inj, BitVec.ofNat_eq_ofNat, BitVec.sub_eq_iff_eq_add, BitVec.zero_add]

theorem accepts_resultFlags (c : UnsignedCond) (a b : BitVec 32) :
    accepts c.code (resultFlags (a - b) (!decide (a.toNat < b.toNat))
      (decide (a.toNat < b.toNat))) = true ↔ c.Rel a b := by
  rw [accepts_unsigned]
  have hz := sub_eq_zero_iff (a := a) (b := b)
  have hn := BitVec.msb_eq_getLsbD_last (a - b)
  cases c with
  | eq => rw [UnsignedCond.Rel, ← hz]; exact decide_eq_true_iff
  | ne => rw [UnsignedCond.Rel, ne_eq, ← hz]; exact decide_eq_false_iff_not
  | cs =>
    rw [UnsignedCond.Rel, resultFlags]
    simp only [Bool.not_eq_true', decide_eq_false_iff_not, Nat.not_lt]
  | cc =>
    rw [UnsignedCond.Rel, resultFlags]
    simp only [Bool.not_eq_false', decide_eq_true_eq]
  | mi => rw [UnsignedCond.Rel, resultFlags, hn]
  | pl => rw [UnsignedCond.Rel, resultFlags, hn]
  | hi =>
    rw [UnsignedCond.Rel, resultFlags]
    simp only [Bool.not_eq_true', decide_eq_false_iff_not, Nat.not_lt, hz]
    omega
  | ls =>
    rw [UnsignedCond.Rel, resultFlags]
    simp only [Bool.not_eq_false', decide_eq_true_eq, hz]
    omega

/-- **Unsigned comparison**: every condition on the order, equality and sign is decided
right. -/
theorem cmpDecidesUnsigned (p : ArmCore) (rn : BitVec 4) (op2 : BitVec 32) (c : UnsignedCond) :
    CmpDecidesUnsigned p (rn.setWidth 8) op2 c := by
  obtain ⟨p', hcmp, hflags⟩ := flags_cmp p rn op2
  refine ⟨p.read rn.toNat, p', armReadRegister_setWidth p rn, hcmp, fun ins hins => ?_⟩
  have hcond : condField ins ≠ 0xF := by
    rw [hins]
    cases c <;> decide
  have hdecided := accepts_resultFlags c (p.read rn.toNat) op2
  rw [armCheckCond_eq hcond, hins, hflags]
  refine ⟨fun hrel => if_pos (hdecided.mpr hrel), fun hrel => if_neg fun hacc => ?_⟩
  exact hrel (hdecided.mp hacc)

end Unsigned

end Armator.Sim
