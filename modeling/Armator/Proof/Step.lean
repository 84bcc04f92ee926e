import Armator.Proof.Access
import Armator.Proof.Compare
import Armator.Sim.Instruction
import Mathlib.Data.Nat.Bitwise

/-!
# One step of the simulator

`Fetches b p ins` says that the fetch of `p` succeeds with the word `ins`. A step then
either does nothing but advance the PC, when the condition is a refused one, or runs
`dispatch` on the advanced state `p.fetched` and hands a non-zero result to
`armException`. The lemmas on fields relate the masks of the decoders to the fields of
`Spec.Arm`.
-/

namespace Armator.Sim

open Lib Spec

/-! ## Fields -/

section Fields

variable {ins : BitVec 32} {k : Nat}

/-- A bit as the decoders extract it. -/
theorem bit_eq (ins : BitVec 32) (k : Nat) :
    (ins >>> k) &&& 1 = if ins.getLsbD k then 1 else 0 := by
  apply BitVec.eq_of_getLsbD_eq
  intro i hi
  rw [BitVec.getLsbD_and, BitVec.getLsbD_ushiftRight, BitVec.ofNat_eq_ofNat, BitVec.getLsbD_one]
  by_cases h0 : i = 0
  · subst h0
    cases ins.getLsbD k <;> simp
  · cases ins.getLsbD k <;> simp [h0]

theorem bit_eq_zero : (ins >>> k) &&& 1 = 0 ↔ ins.getLsbD k = false := by
  rw [bit_eq]; cases ins.getLsbD k <;> simp

theorem bit_eq_one : (ins >>> k) &&& 1 = 1 ↔ ins.getLsbD k = true := by
  rw [bit_eq]; cases ins.getLsbD k <;> simp

theorem kind_eq (ins : BitVec 32) : (ins >>> 25) &&& 0x07 = (kind ins).setWidth 32 := by
  apply BitVec.eq_of_getLsbD_eq
  intro i hi
  interval_cases i <;> simp [kind]

theorem getLsbD_kind (ins : BitVec 32) {i : Nat} (hi : i < 3) :
    ins.getLsbD (25 + i) = (kind ins).getLsbD i := by
  rw [kind, BitVec.getLsbD_extractLsb', decide_eq_true hi, Bool.true_and]

theorem ne_zero_of_kind (h : kind ins ≠ 0) : ins ≠ 0 := by
  rintro rfl
  exact h rfl

/-- The register number the decoders' mask `0x04` leaves of a field. -/
def masked (r : Nat) : Nat := r &&& 4

theorem masked_eq (r : Nat) : masked r = 0 ∨ masked r = 4 := by
  have h : masked r = if r.testBit 2 then 4 else 0 := by
    rw [masked, show 4 = 2 ^ 2 from rfl, Nat.and_two_pow]
    cases r.testBit 2 <;> simp
  rw [h]
  split
  · exact .inr rfl
  · exact .inl rfl

theorem masked_lt (r : Nat) : masked r < 15 := by
  rcases masked_eq r with h | h <;> omega

theorem toNat_masked (ins : BitVec 32) (k : Nat) :
    (((ins >>> k) &&& 0x04).setWidth 8).toNat = masked (ins.extractLsb' k 4).toNat := by
  have h15 : (ins.extractLsb' k 4).toNat = (ins.toNat >>> k) &&& 15 := by
    rw [BitVec.extractLsb'_toNat, show 15 = 2 ^ 4 - 1 from rfl, Nat.and_two_pow_sub_one_eq_mod]
  rw [masked, h15, Nat.and_assoc, BitVec.toNat_setWidth, BitVec.toNat_and,
    BitVec.toNat_ushiftRight]
  have hle : (ins.toNat >>> k) &&& 4 ≤ 4 := Nat.and_le_right
  exact Nat.mod_eq_of_lt (by simp; omega)

end Fields

/-! ## Words -/

/-- The word at `a` in the simulator's endianness. -/
def word (b : Build) (mem : Memory) (a : BitVec 32) : BitVec 32 :=
  assemble 32 b.bigEndianSimulator (mem.bytes a 4)

section Words

variable {b : Build} {p : ArmCore} {a v : BitVec 32}

theorem endianess_ne_zero (b : Build) : decide (b.endianess ≠ 0) = b.bigEndianSimulator := by
  unfold Build.endianess
  cases b.bigEndianSimulator <;> rfl

theorem armReadWord_of_holds (h : p.mem.Holds a 4) :
    armReadWord b p a v = .ok (0, word b p.mem a) := by
  rw [armReadWord, memoryReadWord_of_holds h, endianess_ne_zero, word]

theorem armReadWord_of_rejects (h : p.mem.Rejects a 4) : armReadWord b p a v = .ok (-1, v) :=
  memoryReadWord_of_rejects h

theorem armReadWord_fault (hr : ¬ p.mem.Rejects a 4) (h : ¬ p.mem.Holds a 4) :
    ∃ f, armReadWord b p a v = .error f := memoryReadWord_fault v b.endianess hr h

end Words

/-! ## Fetch and dispatch -/

/-- The fetch at the PC succeeds with the word `ins`. -/
def Fetches (b : Build) (p : ArmCore) (ins : BitVec 32) : Prop :=
  p.mem.Holds (p.reg.get 15) 4 ∧ word b p.mem (p.reg.get 15) = ins

instance (b : Build) (p : ArmCore) (ins : BitVec 32) : Decidable (Fetches b p ins) :=
  inferInstanceAs (Decidable (_ ∧ _))

/-- The state after a fetch. -/
def ArmCore.fetched (p : ArmCore) : ArmCore :=
  { p with reg := p.reg.set 15 (p.reg.get 15 + 4), cycleCount := p.cycleCount + 1 }

section Step

variable {b : Build} {p : ArmCore} {ins : BitVec 32}

@[simp] theorem fetched_mem (p : ArmCore) : p.fetched.mem = p.mem := rfl

@[simp] theorem fetched_printed (p : ArmCore) : p.fetched.printed = p.printed := rfl

theorem fetched_get {i : Nat} (h : i ≠ 15) : p.fetched.reg.get i = p.reg.get i := by
  rw [ArmCore.fetched, Registers.get_set (by decide), if_neg h]

theorem fetched_get_pc (p : ArmCore) : p.fetched.reg.get 15 = p.reg.get 15 + 4 := by
  rw [ArmCore.fetched, Registers.get_set (by decide), if_pos rfl]

@[simp] theorem armReadCpsr_fetched (p : ArmCore) : armReadCpsr p.fetched = armReadCpsr p :=
  registersReadCpsr_set (by omega)

@[simp] theorem flags_fetched (p : ArmCore) : p.fetched.flags = p.flags := by
  rw [ArmCore.flags, armReadCpsr_fetched, ArmCore.flags]

theorem fetched_read {i : Nat} (h : i ≠ 15) : p.fetched.read i = p.reg.get i := by
  rw [ArmCore.read_of_ne h, fetched_get h]

theorem passes_fetched : Passes p.fetched ins ↔ Passes p ins := by
  rw [Passes, flags_fetched, Passes]

theorem refused_fetched : Refused p.fetched ins ↔ Refused p ins := by
  rw [Refused, flags_fetched, Refused]

theorem armFetch_of_fetches (h : Fetches b p ins) (v : BitVec 32) :
    armFetch b p v = .ok (0, ins, p.fetched) := by
  have h15 : (15 : BitVec 8).toNat < 16 := by decide
  rw [armFetch]
  simp only [registersRead_of_lt h15, registersWrite_of_lt h15, ok_bind]
  rw [show (15 : BitVec 8).toNat = 15 from rfl, memoryReadWord_of_holds h.1, endianess_ne_zero,
    ok_bind]
  simp only [← h.2, word]
  rfl

@[simp] theorem armCheckCond_advance (p : ArmCore) (ins : BitVec 32) :
    armCheckCond p.fetched ins = armCheckCond p ins := by
  unfold armCheckCond
  rw [armReadCpsr_fetched]

theorem armStep_of_skipped (hf : Fetches b p ins) (hc : armCheckCond p ins = 0) :
    armStep b p = .ok (0, p.fetched) := by
  rw [armStep, armExecuteInstruction, armFetch_of_fetches hf]
  simp [hc]

theorem armStep_of_refused (hf : Fetches b p ins) (hp : Passes p ins) (hr : Refused p ins) :
    armStep b p = .ok (0, p.fetched) :=
  armStep_of_skipped hf (by rw [armCheckCond_of_passes hp, if_pos hr])

theorem armCheckCond_fetched (hp : Passes p ins) (hr : ¬ Refused p ins) :
    armCheckCond p.fetched ins = 1 := by
  rw [armCheckCond_of_passes (passes_fetched.mpr hp), if_neg (refused_fetched.not.mpr hr)]

/-- What `armStep` does with the result of `dispatch`. -/
def finish (b : Build) (result : Int × ArmCore) : Except Fault (Int × ArmCore) :=
  if result.1 ≠ 0 then armException b result.2 (BitVec.ofInt 8 result.1) else .ok result

theorem armStep_of_dispatched (hf : Fetches b p ins) (hc : armCheckCond p ins ≠ 0) :
    armStep b p = (dispatch b p.fetched ins >>= finish b) := by
  have hc' : armCheckCond p.fetched ins ≠ 0 := by rwa [armCheckCond_advance]
  rw [armStep, armExecuteInstruction, armFetch_of_fetches hf, ok_bind]
  simp only [ne_eq, not_true_eq_false, if_false, hc', not_false_eq_true, if_true]
  rfl

theorem armStep_of_accepted (hf : Fetches b p ins) (hp : Passes p ins) (hr : ¬ Refused p ins) :
    armStep b p = (dispatch b p.fetched ins >>= finish b) := by
  refine armStep_of_dispatched hf ?_
  rw [← armCheckCond_advance, armCheckCond_fetched hp hr]
  decide

theorem finish_zero : finish b (0, p) = .ok (0, p) := rfl

theorem finish_undefined : finish b (UNDEFINED_INSTRUCTION, p) = .ok (UNDEFINED_INSTRUCTION, p) :=
  rfl

theorem dispatch_dataProcessing (h : kind ins = 0) :
    dispatch b p ins = armDataProcessingShift b p ins := by
  rw [dispatch, kind_eq, h]; rfl

theorem dispatch_loadStore (h : kind ins = 2) : dispatch b p ins = armLoadStore b p ins := by
  rw [dispatch, kind_eq, h]; rfl

theorem dispatch_loadStoreMultiple (h : kind ins = 4) :
    dispatch b p ins = armLoadStoreMultiple b p ins := by
  rw [dispatch, kind_eq, h]; rfl

theorem dispatch_branch (h : kind ins = 5) : dispatch b p ins = armBranch p ins := by
  rw [dispatch, kind_eq, h]; rfl

theorem dispatch_immediate (h : kind ins = 1) :
    dispatch b p ins = armDataProcessingImmediateMsr b p ins := by
  rw [dispatch, kind_eq, h]; rfl

/-- Two classes have no case in the `switch`, transfers with a register offset and software
interrupts, and the coprocessor transfers are not implemented. -/
theorem dispatch_refused (h : kind ins = 3 ∨ kind ins = 6 ∨ kind ins = 7) :
    dispatch b p ins = .ok (UNDEFINED_INSTRUCTION, p) := by
  rcases h with h | h | h <;> rw [dispatch, kind_eq, h] <;> rfl

theorem kind_cases (ins : BitVec 32) : kind ins = 0 ∨ kind ins = 1 ∨ kind ins = 2 ∨ kind ins = 4 ∨
    kind ins = 5 ∨ (kind ins = 3 ∨ kind ins = 6 ∨ kind ins = 7) := by
  generalize kind ins = k
  revert k
  decide

end Step

end Armator.Sim
