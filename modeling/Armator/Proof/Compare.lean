import Armator.Sim.Conditions
import Armator.Sim.DataProcessing
import Armator.Spec.Arm
import Mathlib.Tactic.IntervalCases

/-!
# Flags, conditions and comparisons

`ArmCore.flags` are the flags the CPSR holds. `updateCpsr` packs the flags of a
result into it, and `armCheckCond` reads them back; it decides every condition as
the table does, except that it refuses `LE` unless both of its tests hold. The V flag
of `Cmp` is the unsigned borrow, so the signed conditions after it are right exactly
when the borrow coincides with the signed overflow.
-/

namespace Armator.Sim

open Lib Spec

/-! ## Flags -/

def flagsOf (cpsr : BitVec 32) : Flags where
  n := cpsr.getLsbD 31
  z := cpsr.getLsbD 30
  c := cpsr.getLsbD 29
  v := cpsr.getLsbD 28

def ArmCore.flags (p : ArmCore) : Flags := flagsOf (armReadCpsr p)

/-- The word `cpsr` with the flags `f`. -/
def packFlags (f : Flags) (cpsr : BitVec 32) : BitVec 32 :=
  BitVec.ofBool f.n ++ BitVec.ofBool f.z ++ BitVec.ofBool f.c ++ BitVec.ofBool f.v ++
    cpsr.extractLsb' 0 28

theorem getLsbD_packFlags (f : Flags) (w : BitVec 32) {i : Nat} (hi : i < 32) :
    (packFlags f w).getLsbD i =
      if i < 28 then w.getLsbD i else
      if i = 28 then f.v else if i = 29 then f.c else if i = 30 then f.z else f.n := by
  unfold packFlags
  simp only [BitVec.getLsbD_append, BitVec.getLsbD_extractLsb']
  by_cases h : i < 28
  · simp [h]
  · obtain ⟨j, rfl⟩ := Nat.exists_eq_add_of_le (Nat.not_lt.mp h)
    have hj : j < 4 := by omega
    interval_cases j <;> simp

@[simp] theorem flagsOf_packFlags (f : Flags) (w : BitVec 32) : flagsOf (packFlags f w) = f := by
  simp only [flagsOf, getLsbD_packFlags _ _ (show 28 < 32 by omega),
    getLsbD_packFlags _ _ (show 29 < 32 by omega), getLsbD_packFlags _ _ (show 30 < 32 by omega),
    getLsbD_packFlags _ _ (show 31 < 32 by omega)]
  rfl

theorem packFlags_eq_self_iff (f : Flags) (w : BitVec 32) :
    packFlags f w = w ↔ flagsOf w = f := by
  refine ⟨?_, ?_⟩
  · intro h
    rw [← h, flagsOf_packFlags]
  · rintro rfl
    apply BitVec.eq_of_getLsbD_eq
    intro i hi
    rw [getLsbD_packFlags _ _ hi]
    by_cases h : i < 28
    · rw [if_pos h]
    · obtain ⟨j, rfl⟩ := Nat.exists_eq_add_of_le (Nat.not_lt.mp h)
      have hj : j < 4 := by omega
      interval_cases j <;> simp [flagsOf]

/-- A flag as the functions of the simulator compute it. -/
def flagBit (f : Bool) : BitVec 8 := if f then 1 else 0

theorem flagBit_decide (x : Prop) [Decidable x] :
    flagBit (decide x) = if x then 1 else 0 := by
  by_cases h : x <;> simp [flagBit, h]

theorem flagBit_not_decide (x : Prop) [Decidable x] :
    flagBit (!decide x) = if x then 0 else 1 := by
  by_cases h : x <;> simp [flagBit, h]

/-- The flags of a result with the given carry and overflow. -/
def resultFlags (dest : BitVec 32) (c v : Bool) : Flags := ⟨dest.msb, dest = 0, c, v⟩

section Update

variable {p : ArmCore} {dest w : BitVec 32} {rd : BitVec 8} {c v : Bool}

theorem armReadCpsr_write :
    armReadCpsr (armWriteCpsr p w) = w &&& ~~~CPSR_Reserved_Mask := registersReadCpsr_write

theorem armReadCpsr_reserved (p : ArmCore) :
    armReadCpsr p &&& ~~~CPSR_Reserved_Mask = armReadCpsr p := by
  rw [armReadCpsr, registersReadCpsr, BitVec.and_assoc, BitVec.and_self]

theorem packFlags_and_reserved {f : Flags} (h : w &&& ~~~CPSR_Reserved_Mask = w) :
    packFlags f w &&& ~~~CPSR_Reserved_Mask = packFlags f w := by
  apply BitVec.eq_of_getLsbD_eq
  intro i hi
  rw [BitVec.getLsbD_and, getLsbD_packFlags _ _ hi]
  by_cases h28 : i < 28
  · rw [if_pos h28, ← BitVec.getLsbD_and, h]
  · obtain ⟨j, rfl⟩ := Nat.exists_eq_add_of_le (Nat.not_lt.mp h28)
    have hj : j < 4 := by omega
    interval_cases j <;> simp [CPSR_Reserved_Mask]

theorem getLsbD_flagBit (f : Bool) (k i : Nat) :
    ((flagBit f).setWidth 32 <<< k).getLsbD i = (decide (i < 32) && decide (i = k) && f) := by
  cases f with
  | false => simp [flagBit]
  | true =>
    have h1 : (flagBit true).setWidth 32 = (1 : BitVec 32) := rfl
    rw [h1, BitVec.getLsbD_shiftLeft, BitVec.ofNat_eq_ofNat, BitVec.getLsbD_one]
    by_cases h : i = k
    · subst h; simp
    · by_cases h' : i < k
      · simp [h, h']
      · have : i - k ≠ 0 := by omega
        simp [h, h', this]

theorem shiftRight_31 (dest : BitVec 32) :
    (dest >>> 31) &&& 0x01 = (flagBit dest.msb).setWidth 32 := by
  apply BitVec.eq_of_getLsbD_eq
  intro i hi
  have h := getLsbD_flagBit dest.msb 0 i
  rw [BitVec.shiftLeft_zero] at h
  rw [h, BitVec.getLsbD_and, BitVec.getLsbD_ushiftRight, BitVec.msb_eq_getLsbD_last,
    BitVec.ofNat_eq_ofNat, BitVec.getLsbD_one]
  by_cases h0 : i = 0 <;> simp [h0, hi]

theorem assembled_flags (dest w : BitVec 32) (c v : Bool) :
    (w &&& (0x0FFFFFFF : BitVec 32)) ||| ((flagBit c).setWidth 32 <<< 29) |||
        (((dest >>> 31) &&& 0x01) <<< 31) |||
        ((if dest = 0 then (1 : BitVec 32) else 0) <<< 30) ||| ((flagBit v).setWidth 32 <<< 28) =
      packFlags (resultFlags dest c v) w := by
  have hz : (if dest = 0 then (1 : BitVec 32) else 0) = (flagBit (dest = 0)).setWidth 32 := by
    by_cases h : dest = 0
    · rw [if_pos h, decide_eq_true h]; rfl
    · rw [if_neg h, decide_eq_false h]; rfl
  have hmask (i : Nat) : (0x0FFFFFFF : BitVec 32).getLsbD i = decide (i < 28) := by
    rw [show (0x0FFFFFFF : BitVec 32) = (BitVec.allOnes 28).setWidth 32 from rfl,
      BitVec.getLsbD_setWidth, BitVec.getLsbD_allOnes]
    by_cases h : i < 28
    · simp [h]; omega
    · simp [h]
  rw [hz, shiftRight_31]
  apply BitVec.eq_of_getLsbD_eq
  intro i hi
  simp only [getLsbD_packFlags _ _ hi, BitVec.getLsbD_or, BitVec.getLsbD_and, getLsbD_flagBit,
    hmask, hi, decide_true, Bool.true_and, resultFlags]
  by_cases h : i < 28
  · simp [h, show i ≠ 28 by omega, show i ≠ 29 by omega, show i ≠ 30 by omega,
      show i ≠ 31 by omega]
  · obtain ⟨j, rfl⟩ := Nat.exists_eq_add_of_le (Nat.not_lt.mp h)
    have hj : j < 4 := by omega
    interval_cases j <;> simp

theorem armReadCpsr_updateCpsr (h : rd ≠ 15) :
    armReadCpsr (updateCpsr p dest 1 rd (flagBit c) (flagBit v)) =
      packFlags (resultFlags dest c v) (armReadCpsr p) := by
  have hv : flagBit v ≠ 255 := by cases v <;> decide
  simp only [updateCpsr, true_and, h, if_false, if_true, hv]
  rw [armReadCpsr_write, assembled_flags, packFlags_and_reserved (armReadCpsr_reserved p)]

theorem armReadCpsr_updateCpsr_unaffected (h : rd ≠ 15) :
    armReadCpsr (updateCpsr p dest 1 rd (flagBit c) (-1)) =
      packFlags (resultFlags dest c false) (armReadCpsr p) := by
  have hv : (-1 : BitVec 8) = 255 := rfl
  simp only [updateCpsr, true_and, h, if_false, if_true, hv]
  have hzero : (flagBit false).setWidth 32 <<< 28 = (0#32) := rfl
  have hpack := assembled_flags dest (armReadCpsr p) c false
  rw [hzero, BitVec.or_zero] at hpack
  rw [armReadCpsr_write, hpack, packFlags_and_reserved (armReadCpsr_reserved p)]

theorem updateCpsr_get {s c v : BitVec 8} {i : Nat} (hi : i ≠ 16) :
    (updateCpsr p dest s rd c v).reg.get i = p.reg.get i := by
  have h (w : BitVec 32) : (armWriteCpsr p w).reg.get i = p.reg.get i := registersWriteCpsr_get hi
  unfold updateCpsr
  dsimp only
  split
  · split
    · exact h _
    · rfl
  · split
    · exact h _
    · rfl

theorem updateCpsr_mem (p : ArmCore) (dest : BitVec 32) (s rd c v : BitVec 8) :
    (updateCpsr p dest s rd c v).mem = p.mem := by
  unfold updateCpsr armWriteCpsr
  dsimp only
  split
  · split <;> rfl
  · split <;> rfl

end Update

/-! ## Conditions -/

/-- The condition of `ins` passes by the table. -/
def Passes (p : ArmCore) (ins : BitVec 32) : Prop := passes (condField ins) p.flags = true

/-- The code refuses `LE` unless Z is set and N differs from V. -/
def Refused (p : ArmCore) (ins : BitVec 32) : Prop :=
  condField ins = 0xD ∧ ¬ (p.flags.z = true ∧ p.flags.n ≠ p.flags.v)

instance (p : ArmCore) (ins : BitVec 32) : Decidable (Passes p ins) :=
  inferInstanceAs (Decidable (_ = _))

instance (p : ArmCore) (ins : BitVec 32) : Decidable (Refused p ins) :=
  inferInstanceAs (Decidable (_ ∧ _))

/-- What `armCheckCond` decides. -/
def accepts (c : BitVec 4) (f : Flags) : Bool :=
  if c = 0xD then f.z && f.n != f.v else passes c f

theorem masked_condField (ins : BitVec 32) :
    (ins >>> 28) &&& 0xF = (condField ins).setWidth 32 := by
  apply BitVec.eq_of_getLsbD_eq
  intro i hi
  interval_cases i <;> simp [condField]

theorem armCheckCond_eq {p : ArmCore} {ins : BitVec 32} (h : condField ins ≠ 0xF) :
    armCheckCond p ins = if accepts (condField ins) p.flags then 1 else 0 := by
  have hc := masked_condField ins
  have hf : (armReadCpsr p >>> 28) &&& 0xF = ((armReadCpsr p).extractLsb' 28 4).setWidth 32 := by
    apply BitVec.eq_of_getLsbD_eq
    intro i hi
    interval_cases i <;> simp
  have hflags : p.flags = ⟨((armReadCpsr p).extractLsb' 28 4).getLsbD 3,
      ((armReadCpsr p).extractLsb' 28 4).getLsbD 2, ((armReadCpsr p).extractLsb' 28 4).getLsbD 1,
      ((armReadCpsr p).extractLsb' 28 4).getLsbD 0⟩ := by
    simp [ArmCore.flags, flagsOf]
  simp only [armCheckCond, hc, hf, hflags]
  generalize (armReadCpsr p).extractLsb' 28 4 = f
  generalize condField ins = c at h
  revert h c f
  decide +kernel

/-- A condition that passes is accepted unless it is a refused `LE`. -/
theorem armCheckCond_of_passes {p : ArmCore} {ins : BitVec 32} (h : Passes p ins) :
    armCheckCond p ins = if Refused p ins then 0 else 1 := by
  have h15 : condField ins ≠ 0xF := fun e => by
    rw [Passes, e] at h
    exact absurd h (by simp [passes])
  rw [armCheckCond_eq h15, accepts]
  by_cases h13 : condField ins = 0xD
  · rw [if_pos h13]
    by_cases hz : p.flags.z = true ∧ p.flags.n ≠ p.flags.v
    · rw [if_neg (fun hr : Refused p ins => hr.2 hz), if_pos (by simpa using hz)]
    · rw [if_pos (show Refused p ins from ⟨h13, hz⟩), if_neg (by simpa using hz)]
  · rw [if_neg h13, if_pos (show passes _ _ = true from h),
      if_neg fun hr : Refused p ins => h13 hr.1]

/-! ## Signed comparison -/

/-- The conditions a signed comparison is read with. -/
inductive SignedCond where
  | ge
  | lt
  | gt
  | le
  deriving DecidableEq, Repr

namespace SignedCond

def code : SignedCond → BitVec 4
  | ge => 0xA
  | lt => 0xB
  | gt => 0xC
  | le => 0xD

def Rel : SignedCond → Int → Int → Prop
  | ge, a, b => b ≤ a
  | lt, a, b => a < b
  | gt, a, b => b < a
  | le, a, b => a ≤ b

end SignedCond

/-- After `Cmp` an instruction with the condition `c` is accepted exactly when the
value of `rn` and the operand are so related as signed integers. -/
def CmpDecides (p : ArmCore) (rn : BitVec 8) (op2 : BitVec 32) (c : SignedCond) : Prop :=
  ∃ a p', armReadRegister p rn = .ok a ∧ DataProcessing.cmp p rn op2 = .ok p' ∧
    ∀ ins, condField ins = c.code → (armCheckCond p' ins = 1 ↔ c.Rel a.toInt op2.toInt)

/-- The exact difference does not fit in 32 bits. -/
def SubOverflows (a b : BitVec 32) : Prop :=
  a.toInt - b.toInt < -2 ^ 31 ∨ 2 ^ 31 ≤ a.toInt - b.toInt

/-- When the signed conditions after `Cmp` are decided right: the borrow must be the
signed overflow, and `LE`, which is never accepted, must not hold. -/
def CmpExact (a b : BitVec 32) : SignedCond → Prop
  | .ge | .lt | .gt => a.toNat < b.toNat ↔ SubOverflows a b
  | .le => b.toInt < a.toInt

section Signed

variable {a b : BitVec 32}

/-- The sign of the difference is wrong exactly on overflow. -/
theorem toInt_lt_iff_msb : a.toInt < b.toInt ↔ ((a - b).msb = true ↔ ¬ SubOverflows a b) := by
  have ha := a.isLt
  have hb := b.isLt
  rw [SubOverflows, BitVec.msb_eq_decide, decide_eq_true_iff, BitVec.toInt_eq_toNat_cond,
    BitVec.toInt_eq_toNat_cond, BitVec.toNat_sub]
  split <;> split <;> omega

theorem toInt_eq_iff : a.toInt = b.toInt ↔ a = b := BitVec.toInt_inj

theorem not_subOverflows_self : ¬ SubOverflows a a := by
  unfold SubOverflows; omega

theorem flags_updateCpsr {p : ArmCore} {dest : BitVec 32} {rd : BitVec 8} {c v : Bool}
    (h : rd ≠ 15) :
    (updateCpsr p dest 1 rd (flagBit c) (flagBit v)).flags = resultFlags dest c v := by
  rw [ArmCore.flags, armReadCpsr_updateCpsr h, flagsOf_packFlags]

theorem toNat_field (r : BitVec 4) : (r.setWidth 8 : BitVec 8).toNat = r.toNat := by
  have h := r.isLt
  rw [BitVec.toNat_setWidth, Nat.mod_eq_of_lt (by omega)]

theorem armReadRegister_setWidth (p : ArmCore) (rn : BitVec 4) :
    armReadRegister p (rn.setWidth 8) = .ok (p.read rn.toNat) := by
  have hn := rn.isLt
  rw [armReadRegister_of_lt (by rw [toNat_field]; exact hn), toNat_field]

/-- `Cmp` leaves the sign and the zero of the difference, and the borrow both in V and,
negated, in C. -/
theorem flags_cmp (p : ArmCore) (rn : BitVec 4) (op2 : BitVec 32) :
    ∃ p', DataProcessing.cmp p (rn.setWidth 8) op2 = .ok p' ∧
      p'.flags = resultFlags (p.read rn.toNat - op2) (!decide ((p.read rn.toNat).toNat < op2.toNat))
        (decide ((p.read rn.toNat).toNat < op2.toNat)) := by
  refine ⟨_, ?_, flags_updateCpsr (p := p) (show (0 : BitVec 8) ≠ 15 by decide)⟩
  rw [DataProcessing.cmp, armReadRegister_setWidth, ok_bind]
  simp only [builtinSubOverflow, flagBit_decide, flagBit_not_decide]

theorem accepts_signed (c : SignedCond) (f : Flags) :
    accepts c.code f = true ↔
      match c with
      | .ge => f.n = f.v
      | .lt => f.n ≠ f.v
      | .gt => f.z = false ∧ f.n = f.v
      | .le => f.z = true ∧ f.n ≠ f.v := by
  cases c <;> simp [accepts, SignedCond.code, passes]

/-- With the sign `n` of a difference wrong exactly on overflow, an overflow flag `v`
decides the order right exactly when it is the overflow. -/
theorem sign_eq_iff {n v : Bool} {lt ovf : Prop} (h : lt ↔ (n = true ↔ ¬ ovf)) :
    ((n = v) ↔ ¬ lt) ↔ (v = true ↔ ovf) := by
  rw [h]
  cases n <;> cases v <;> simp

/-- **Signed comparison**: each condition is decided right exactly where `CmpExact`. -/
theorem cmpDecides_iff (p : ArmCore) (rn : BitVec 4) (op2 : BitVec 32) (c : SignedCond) :
    CmpDecides p (rn.setWidth 8) op2 c ↔ CmpExact (p.read rn.toNat) op2 c := by
  obtain ⟨p', hcmp, hflags⟩ := flags_cmp p rn op2
  generalize hab : p.read rn.toNat = a at hflags
  have hdec : CmpDecides p (rn.setWidth 8) op2 c ↔
      (accepts c.code p'.flags = true ↔ c.Rel a.toInt op2.toInt) := by
    have hacc {ins : BitVec 32} (h : condField ins = c.code) :
        armCheckCond p' ins = 1 ↔ accepts c.code p'.flags = true := by
      rw [armCheckCond_eq (by rw [h]; cases c <;> decide), h]
      split <;> simp_all
    refine ⟨?_, ?_⟩
    · rintro ⟨a', p'', hread, hcmp', h⟩
      rw [armReadRegister_setWidth, hab] at hread
      cases hread
      rw [hcmp] at hcmp'
      cases hcmp'
      have hins : condField (c.code.setWidth 32 <<< 28) = c.code := by cases c <;> decide
      rw [← hacc hins]
      exact h _ hins
    · intro h
      refine ⟨a, p', by rw [armReadRegister_setWidth, hab], hcmp, fun ins hins => ?_⟩
      rw [hacc hins, h]
  have hlt := toInt_lt_iff_msb (a := a) (b := op2)
  have hz : a - op2 = 0 ↔ a.toInt = op2.toInt := by
    rw [toInt_eq_iff, BitVec.ofNat_eq_ofNat, BitVec.sub_eq_iff_eq_add, BitVec.zero_add]
  have hle : op2.toInt ≤ a.toInt ↔ ¬ a.toInt < op2.toInt := by omega
  have hsign := sign_eq_iff (v := decide (a.toNat < op2.toNat)) hlt
  rw [decide_eq_true_iff] at hsign
  rw [hdec, hflags, accepts_signed]
  cases c with
  | ge =>
    rw [SignedCond.Rel, CmpExact, hle]
    exact hsign
  | lt =>
    rw [SignedCond.Rel, CmpExact, ← hsign]
    exact not_iff_comm.trans Iff.comm
  | gt =>
    rw [SignedCond.Rel, CmpExact]
    by_cases he : a.toInt = op2.toInt
    · simp [resultFlags, toInt_eq_iff.mp he, not_subOverflows_self]
    · have hgt : op2.toInt < a.toInt ↔ ¬ a.toInt < op2.toInt := by omega
      rw [hgt, ← hsign]
      simp only [resultFlags, hz, he, decide_false, true_and]
  | le =>
    rw [SignedCond.Rel, CmpExact]
    have hnever : ¬ ((resultFlags (a - op2) (!decide (a.toNat < op2.toNat))
        (decide (a.toNat < op2.toNat))).z = true ∧
          (a - op2).msb ≠ decide (a.toNat < op2.toNat)) := by
      rintro ⟨hzero, hne⟩
      have he : a = op2 := toInt_eq_iff.mp (hz.mp (of_decide_eq_true hzero))
      subst he
      simp at hne
    refine ⟨?_, ?_⟩
    · intro h
      by_contra hn
      exact hnever (h.mpr (by omega))
    · exact fun h => ⟨fun hacc => absurd hacc hnever, fun hr => absurd hr (by omega)⟩

/-- `Cmp` of 1 with 0xFFFFFFFF, the signed -1: GE is refused. -/
theorem not_cmpDecides_one_minusOne :
    ¬ CmpDecides ⟨0, .ofFn fun i => if i = 1 then 1 else 0, .ofBytes [], []⟩ 1 0xFFFFFFFF .ge := by
  rintro ⟨a, p', hread, hcmp, h⟩
  cases hread
  cases hcmp
  have hrel : SignedCond.ge.Rel (1 : BitVec 32).toInt (0xFFFFFFFF : BitVec 32).toInt := by
    unfold SignedCond.Rel; decide
  exact absurd ((h (0xA <<< 28) (by decide)).mpr hrel) (by decide)

end Signed

end Armator.Sim
