import Armator.Proof.Step

/-!
# Branches and software interrupts

`armBranch` moves the PC by the negated, unscaled offset and saves the address of the
next instruction but two, so a branch lands where its encoding says exactly when its
offset is zero and it does not link; a refused one does so when it should have gone
to the next instruction. The `switch` on the class has no case for software
interrupts, so none is ever handled.
-/

namespace Armator.Sim

open Lib Spec

/-! ## Branches -/

def bitLink (ins : BitVec 32) : Bool := ins.getLsbD 24

/-- The step takes the branch `ins` fetched at `pc` as its encoding says. -/
def Branches (b : Build) (p : ArmCore) (ins : BitVec 32) : Prop :=
  ∃ p', armStep b p = .ok (0, p') ∧
    p'.reg.get 15 = target ins (p.reg.get 15) ∧
    p'.reg.get 14 = (if bitLink ins then p.reg.get 15 + 4 else p.reg.get 14) ∧
    armReadCpsr p' = armReadCpsr p ∧ p'.mem = p.mem ∧
    ∀ i, i ≠ 14 → i ≠ 15 → p'.reg.get i = p.reg.get i

section Offset

variable {ins pc : BitVec 32}

/-- The offset of the code is the negated field. -/
theorem bOffset_eq (ins : BitVec 32) :
    ((ins &&& 0xFFFFFF#32) ^^^ 0xFFFFFF#32) - 0xFFFFFF#32 = -(imm24 ins).setWidth 32 := by
  have hmask (i : Nat) : (0xFFFFFF#32).getLsbD i = decide (i < 24) := by
    rw [show 0xFFFFFF#32 = (BitVec.allOnes 24).setWidth 32 from rfl, BitVec.getLsbD_setWidth,
      BitVec.getLsbD_allOnes]
    by_cases h : i < 24
    · simp [h]; omega
    · simp [h]
  have hnot : (ins &&& 0xFFFFFF#32) ^^^ 0xFFFFFF#32 = (~~~imm24 ins).setWidth 32 := by
    apply BitVec.eq_of_getLsbD_eq
    intro i hi
    simp only [BitVec.getLsbD_xor, BitVec.getLsbD_and, hmask, BitVec.getLsbD_setWidth,
      BitVec.getLsbD_not, imm24, BitVec.getLsbD_extractLsb', Nat.zero_add]
    by_cases h : i < 24
    · simp [h, hi]
    · simp [h]
  rw [hnot]
  apply BitVec.eq_of_toNat_eq
  have hlt := (imm24 ins).isLt
  rw [BitVec.toNat_sub, BitVec.toNat_neg, BitVec.toNat_setWidth, BitVec.toNat_setWidth,
    BitVec.toNat_not, show (0xFFFFFF#32).toNat = 2 ^ 24 - 1 from rfl]
  omega

theorem toNat_signExtend_imm24 (ins : BitVec 32) :
    ((imm24 ins).signExtend 32).toNat = (imm24 ins).toNat ∧ (imm24 ins).toNat < 2 ^ 23 ∨
      ((imm24 ins).signExtend 32).toNat = (imm24 ins).toNat + (2 ^ 32 - 2 ^ 24) ∧
        2 ^ 23 ≤ (imm24 ins).toNat := by
  have hlt := (imm24 ins).isLt
  rw [BitVec.toNat_signExtend, BitVec.toNat_setWidth, BitVec.msb_eq_decide]
  by_cases h : 2 ^ 23 ≤ (imm24 ins).toNat
  · rw [decide_eq_true h, if_pos rfl]; omega
  · rw [decide_eq_false h, if_neg Bool.false_ne_true]; omega

theorem eq_zero_of_neg_eq_four_mul {n s : Nat} (h : (2 ^ 32 - n) % 2 ^ 32 = 4 * s % 2 ^ 32)
    (hs : s = n ∧ n < 2 ^ 23 ∨ s = n + (2 ^ 32 - 2 ^ 24) ∧ 2 ^ 23 ≤ n) (hn : n < 2 ^ 24) :
    n = 0 := by
  rcases Nat.eq_zero_or_pos n with h0 | h0
  · exact h0
  · rw [Nat.mod_eq_of_lt (Nat.sub_lt (Nat.two_pow_pos 32) h0)] at h
    rcases hs with ⟨rfl, hs⟩ | ⟨rfl, hs⟩
    · rw [Nat.mod_eq_of_lt (by omega)] at h
      omega
    · have hwrap : 4 * (n + (2 ^ 32 - 2 ^ 24)) = 4 * n + (2 ^ 32 - 2 ^ 26) + 3 * 2 ^ 32 := by omega
      rw [hwrap, Nat.add_mul_mod_self_right, Nat.mod_eq_of_lt (by omega)] at h
      omega

/-- The negated field is the scaled signed offset only if both are zero. -/
theorem neg_imm24_eq_iff : pc + 8 + -(imm24 ins).setWidth 32 = target ins pc ↔ imm24 ins = 0 := by
  rw [target, BitVec.add_right_inj]
  refine ⟨?_, ?_⟩
  · intro h
    have hn := (imm24 ins).isLt
    have hs := toNat_signExtend_imm24 ins
    have h := congrArg BitVec.toNat h
    rw [BitVec.toNat_neg, BitVec.toNat_mul, BitVec.toNat_setWidth,
      Nat.mod_eq_of_lt (show (imm24 ins).toNat < 2 ^ 32 by omega)] at h
    exact BitVec.eq_of_toNat_eq (eq_zero_of_neg_eq_four_mul h hs hn)
  · intro h
    rw [h]
    rfl

theorem next_eq_target_iff : pc + 4 = target ins pc ↔ imm24 ins = 0xFFFFFF := by
  have h4 : pc + 4 = pc + 8 + -4 := by rw [BitVec.add_assoc]; rfl
  rw [target, h4, BitVec.add_right_inj]
  refine ⟨?_, ?_⟩
  · intro h
    have hn := (imm24 ins).isLt
    have hs := toNat_signExtend_imm24 ins
    have h := congrArg BitVec.toNat h
    rw [BitVec.toNat_mul, show (4 : BitVec 32).toNat = 4 from rfl,
      show (-4 : BitVec 32).toNat = 2 ^ 32 - 4 from rfl] at h
    apply BitVec.eq_of_toNat_eq
    rw [show (0xFFFFFF : BitVec 24).toNat = 2 ^ 24 - 1 from rfl]
    omega
  · intro h
    rw [h]
    rfl

/-- Reading the PC clears bit 1, which an aligned address does not have. -/
theorem and_mask_of_aligned {x : BitVec 32} (h : x.toNat % 4 = 0) : x &&& 0xFFFFFFFD = x := by
  apply BitVec.eq_of_getLsbD_eq
  intro i hi
  have h1 : x.getLsbD 1 = false := by
    rw [BitVec.getLsbD, Nat.testBit_eq_decide_div_mod_eq]
    simp
    omega
  have hm : (0xFFFFFFFD : BitVec 32).getLsbD i = decide (i ≠ 1) := by
    interval_cases i <;> rfl
  rw [BitVec.getLsbD_and, hm]
  by_cases hi1 : i = 1
  · subst hi1; rw [h1]; rfl
  · simp [hi1]

end Offset

section Branch

variable {b : Build} {p : ArmCore} {ins : BitVec 32}

theorem read_pc_of_aligned (h : (p.reg.get 15).toNat % 4 = 0) :
    p.fetched.read 15 = p.reg.get 15 + 8 := by
  have hadd : p.fetched.reg.get 15 + 4 = p.reg.get 15 + 8 := by
    rw [fetched_get_pc, BitVec.add_assoc]; rfl
  rw [ArmCore.read, if_pos rfl, hadd]
  refine and_mask_of_aligned ?_
  rw [BitVec.toNat_add, show (8 : BitVec 32).toNat = 8 from rfl]
  omega

theorem armBranch_of_accepted (h4 : (p.reg.get 15).toNat % 4 = 0) (hp : Passes p ins)
    (hr : ¬ Refused p ins) :
    armBranch p.fetched ins = .ok (0, { p.fetched with
      reg := (if bitLink ins then p.fetched.reg.set 14 (p.reg.get 15 + 8 + 4)
        else p.fetched.reg).set 15 (p.reg.get 15 + 8 + -(imm24 ins).setWidth 32) }) := by
  have h15 : armReadRegister p.fetched 15 = .ok (p.reg.get 15 + 8) := by
    rw [armReadRegister_of_lt (by decide), show (15 : BitVec 8).toNat = 15 from rfl,
      read_pc_of_aligned h4]
  have hmask : ((1 : BitVec 32) <<< 24) - 1 = 0xFFFFFF#32 := rfl
  have hw (q : ArmCore) (v : BitVec 32) :
      armWriteRegister q 15 v = .ok { q with reg := q.reg.set 15 v } :=
    armWriteRegister_of_lt (by decide)
  have hw' (q : ArmCore) (v : BitVec 32) :
      armWriteRegister q 14 v = .ok { q with reg := q.reg.set 14 v } :=
    armWriteRegister_of_lt (by decide)
  have hlink : (ins >>> 24) &&& 1 ≠ 0 ↔ bitLink ins = true := by
    rw [ne_eq, bit_eq_zero, Bool.not_eq_false, bitLink]
  rw [armBranch]
  simp only [h15, ok_bind, armCheckCond_fetched hp hr, if_true, hmask, bOffset_eq, hlink]
  cases bitLink ins with
  | true => simp only [if_true, hw', ok_bind, hw]
  | false => simp only [Bool.false_eq_true, if_false, ok_bind, hw]

/-- **Branches**: which branches go where their encoding says. -/
theorem branches_iff (h4 : (p.reg.get 15).toNat % 4 = 0) (hf : Fetches b p ins)
    (hk : kind ins = 5) (hp : Passes p ins) :
    Branches b p ins ↔
      if Refused p ins then
        imm24 ins = 0xFFFFFF ∧ (bitLink ins = true → p.reg.get 14 = p.reg.get 15 + 4)
      else imm24 ins = 0 ∧ bitLink ins = false := by
  by_cases hr : Refused p ins
  · rw [if_pos hr, Branches, armStep_of_refused hf hp hr]
    refine ⟨?_, ?_⟩
    · rintro ⟨p', hstep, hpc, hlr, -⟩
      cases hstep
      rw [fetched_get_pc] at hpc
      rw [fetched_get (by decide)] at hlr
      refine ⟨next_eq_target_iff.mp hpc, fun hL => ?_⟩
      rwa [hL, if_pos rfl] at hlr
    · rintro ⟨hi, hlr⟩
      refine ⟨p.fetched, rfl, ?_, ?_, armReadCpsr_fetched p, rfl, fun i _ h15 => fetched_get h15⟩
      · rw [fetched_get_pc]
        exact next_eq_target_iff.mpr hi
      · rw [fetched_get (by decide)]
        cases hL : bitLink ins with
        | true => rw [if_pos rfl, hlr hL]
        | false => rw [if_neg Bool.false_ne_true]
  · rw [if_neg hr, Branches, armStep_of_accepted hf hp hr, dispatch_branch hk,
      armBranch_of_accepted h4 hp hr, ok_bind, finish_zero]
    refine ⟨?_, ?_⟩
    · rintro ⟨p', hstep, hpc, hlr, -⟩
      cases hstep
      dsimp only at hpc hlr
      rw [Registers.get_set (by decide), if_pos rfl] at hpc
      refine ⟨neg_imm24_eq_iff.mp hpc, ?_⟩
      by_contra hL
      rw [Bool.not_eq_false] at hL
      rw [hL, if_pos rfl, if_pos rfl, Registers.get_set (by decide), if_neg (by decide),
        Registers.get_set (by decide), if_pos rfl, BitVec.add_assoc, BitVec.add_right_inj] at hlr
      exact absurd hlr (by decide)
    · rintro ⟨hi, hL⟩
      rw [hL]
      refine ⟨_, rfl, ?_, ?_, ?_, rfl, fun i _ h15 => ?_⟩
      · dsimp only
        rw [Registers.get_set (by decide), if_pos rfl]
        exact neg_imm24_eq_iff.mpr hi
      · dsimp only
        rw [Registers.get_set (by decide), if_neg (by decide)]
        exact fetched_get (by decide)
      · exact (registersReadCpsr_set (by decide)).trans (armReadCpsr_fetched p)
      · dsimp only
        rw [Registers.get_set (by decide), if_neg h15]
        exact fetched_get h15

end Branch

/-- A branch with offset 0 at address 0, on a little-endian simulator. -/
theorem branches_iff_zero :
    Branches (.trapping false) ⟨0, .ofFn fun _ => 0, .ofBytes [0x00, 0x00, 0x00, 0xEA], []⟩
      0xEA000000 :=
  (branches_iff (by decide) (by decide) (by decide) (by decide)).mpr (by decide)

/-- A branch to itself, offset -2, goes elsewhere, on a little-endian simulator. -/
theorem not_branches_self :
    ¬ Branches (.trapping false) ⟨0, .ofFn fun _ => 0, .ofBytes [0xFE, 0xFF, 0xFF, 0xEA], []⟩
      0xEAFFFFFE := by
  rintro ⟨p', hstep, hpc, -⟩
  cases hstep
  exact absurd hpc (by decide)

/-! ## Software interrupts -/

/-- The step handles the software interrupt `ins` as its number asks. -/
def SwiHandled (b : Build) (p : ArmCore) (ins : BitVec 32) : Prop :=
  ∃ r p', armStep b p = .ok (r, p') ∧
    (imm24 ins = 0x123456 → r = END_SIMULATION) ∧
    (imm24 ins = 0x000001 → r = 0 ∧ p'.printed = p.printed ++ [(p.reg.get 0).setWidth 8]) ∧
    (imm24 ins ≠ 0x123456 → imm24 ins ≠ 0x000001 → r = SOFTWARE_INTERRUPT) ∧
    p'.mem = p.mem ∧ armReadCpsr p' = armReadCpsr p ∧
    p'.reg.get 15 = p.reg.get 15 + 4 ∧ ∀ i, i ≠ 15 → p'.reg.get i = p.reg.get i

section Swi

variable {b : Build} {p : ArmCore} {ins : BitVec 32}

theorem kind_of_swi (h : ins.extractLsb' 24 4 = 0xF) : kind ins = 7 := by
  have hbit {i : Nat} (hi : i < 4) : ins.getLsbD (24 + i) = true := by
    have := congrArg (fun x => x.getLsbD i) h
    simp only [BitVec.getLsbD_extractLsb', decide_eq_true hi, Bool.true_and] at this
    rw [this]
    interval_cases i <;> rfl
  apply BitVec.eq_of_getLsbD_eq
  intro i hi
  rw [← getLsbD_kind ins hi, show 25 + i = 24 + (i + 1) by omega, hbit (by omega)]
  interval_cases i <;> rfl

theorem armStep_swi (hf : Fetches b p ins) (hk : kind ins = 7) (hp : Passes p ins) :
    armStep b p = .ok (if Refused p ins then 0 else UNDEFINED_INSTRUCTION, p.fetched) := by
  by_cases hr : Refused p ins
  · rw [armStep_of_refused hf hp hr, if_pos hr]
  · rw [armStep_of_accepted hf hp hr, dispatch_refused (.inr (.inr hk)), ok_bind, finish_undefined,
      if_neg hr]

/-- **Software interrupts**: none is handled, whatever its number and the state. -/
theorem not_swiHandled (hf : Fetches b p ins) (hs : ins.extractLsb' 24 4 = 0xF)
    (hp : Passes p ins) : ¬ SwiHandled b p ins := by
  rintro ⟨r, p', hstep, hend, hput, hother, -⟩
  rw [armStep_swi hf (kind_of_swi hs) hp] at hstep
  cases hstep
  by_cases h1 : imm24 ins = 0x000001
  · obtain ⟨-, hout⟩ := hput h1
    rw [fetched_printed] at hout
    simpa using congrArg List.length hout
  · by_cases h2 : imm24 ins = 0x123456
    · have := hend h2
      split at this <;> exact absurd this (by decide)
    · have := hother h2 h1
      split at this <;> exact absurd this (by decide)

end Swi

/-- `swi 0x123456`, which should end the simulation, on a little-endian simulator. -/
theorem not_swiHandled_end :
    ¬ SwiHandled (.trapping false) ⟨0, .ofFn fun _ => 0, .ofBytes [0x56, 0x34, 0x12, 0xEF], []⟩
      0xEF123456 :=
  not_swiHandled (by decide) (by decide) (by decide)

/-- `swi 1` writes no character, on a little-endian simulator. -/
theorem not_swiHandled_putchar :
    ¬ SwiHandled (.trapping false) ⟨0, .ofFn fun i => if i = 0 then 0x41 else 0,
      .ofBytes [0x01, 0x00, 0x00, 0xEF], []⟩ 0xEF000001 := by
  rintro ⟨r, p', hstep, -, hput, -⟩
  cases hstep
  exact absurd (hput rfl).2 (by decide)

end Armator.Sim
