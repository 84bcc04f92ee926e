import Armator.Proof.Util
import Armator.Spec.DataProcessing

/-!
# The shifter

`shift` computes the second operand of a register encoding and its carry out, for an
immediate amount with bit 4 clear and for the low byte of `Rs` with bit 4 set. The
equations `shift_lsl_imm` and so on say what it computes for each kind of shift by an immediate
amount; a shift by a register is `registerValue` with the carry `registerCarry`. A shift by an
amount outside `0 … 31` has the value the build gives it.
-/

namespace Armator.Sim

open Lib Spec

/-! ## Bits of words -/

section Words

variable {b : Build} {x : BitVec 32} {n : Nat}

/-- A field of at most 8 bits as the data processing decoders extract it. -/
theorem field_eq (ins : BitVec 32) (k n : Nat) :
    ((ins >>> k) &&& BitVec.ofNat 32 (2 ^ n - 1)).setWidth 8 =
      (ins.extractLsb' k n).setWidth 8 := by
  apply BitVec.eq_of_getLsbD_eq
  intro i hi
  rw [BitVec.getLsbD_setWidth, BitVec.getLsbD_setWidth, BitVec.getLsbD_and,
    BitVec.getLsbD_ushiftRight, BitVec.getLsbD_extractLsb', BitVec.getLsbD_ofNat,
    Nat.testBit_two_pow_sub_one, decide_eq_true (show i < 32 by omega), Bool.true_and,
    Bool.and_comm (ins.getLsbD _)]

theorem getBit_flag {i : Nat} (hi : i < 32) :
    (getBit b x i >>= fun y => .ok (y.setWidth 8)) = .ok (flagBit (x.getLsbD i)) := by
  rw [getBit_of_lt hi, ok_bind, bit_eq]
  cases x.getLsbD i <;> rfl

/-- The last bit a shift to the right by `n` moves out. -/
theorem getBit_pred (h0 : n ≠ 0) (h : n ≤ 32) :
    (getBit b x ((n : Int) - 1) >>= fun y => .ok (y.setWidth 8)) =
      .ok (flagBit (x.getLsbD (n - 1))) := by
  have hcast : (n : Int) - 1 = (n - 1 : Nat) := by omega
  rw [hcast, getBit_flag (by omega)]

/-- The last bit a shift to the left by `n` moves out. -/
theorem getBit_sub (h0 : n ≠ 0) (h : n ≤ 32) :
    (getBit b x (32 - (n : Int)) >>= fun y => .ok (y.setWidth 8)) =
      .ok (flagBit (x.getLsbD (32 - n))) := by
  have hcast : 32 - (n : Int) = (32 - n : Nat) := by omega
  rw [hcast, getBit_flag (by omega)]

end Words

/-! ## The fields of the shifter -/

section Fields

variable {b : Build} {p : ArmCore} {ins : BitVec 32}

theorem nibble_eq (ins : BitVec 32) (k : Nat) :
    ((ins >>> k) &&& 0x0F).setWidth 8 = (ins.extractLsb' k 4).setWidth 8 := field_eq ins k 4

theorem toNat_nibble (ins : BitVec 32) (k : Nat) :
    (((ins >>> k) &&& 0x0F).setWidth 8 : BitVec 8).toNat = (ins.extractLsb' k 4).toNat := by
  rw [nibble_eq, toNat_field]

theorem mode_eq (ins : BitVec 32) :
    ((ins >>> 5) &&& 0x03).setWidth 8 = (shiftType ins).setWidth 8 := field_eq ins 5 2

theorem shiftImm_eq (ins : BitVec 32) :
    ((ins >>> 7) &&& 0x1F).setWidth 8 = (ins.extractLsb' 7 5).setWidth 8 := field_eq ins 7 5

theorem toNat_shiftImm (ins : BitVec 32) :
    ((ins.extractLsb' 7 5).setWidth 8 : BitVec 8).toNat = shiftImm ins := by
  have h := (ins.extractLsb' 7 5).isLt
  rw [BitVec.toNat_setWidth, Nat.mod_eq_of_lt (by omega), shiftImm]

theorem shiftImm_zero (ins : BitVec 32) :
    ((ins.extractLsb' 7 5).setWidth 8 : BitVec 8) = 0 ↔ shiftImm ins = 0 := by
  rw [← BitVec.toNat_inj, toNat_shiftImm]
  rfl

theorem shiftImm_lt (ins : BitVec 32) : shiftImm ins < 32 := (ins.extractLsb' 7 5).isLt

theorem armReadRegister_rm (p : ArmCore) (ins : BitVec 32) :
    armReadRegister p ((ins &&& 0x0F).setWidth 8) = .ok (p.read (rm ins)) := by
  have h := nibble_eq ins 0
  rw [BitVec.ushiftRight_zero] at h
  rw [h, armReadRegister_setWidth, rm]

theorem armReadRegister_shiftRs (p : ArmCore) (ins : BitVec 32) :
    armReadRegister p (((ins >>> 8) &&& 0x0F).setWidth 8) = .ok (p.read (shiftRs ins)) := by
  rw [nibble_eq, armReadRegister_setWidth, shiftRs]

theorem carryBit_eq (p : ArmCore) :
    ((armReadCpsr p >>> 29) &&& 0x01).setWidth 8 = flagBit p.flags.c := by
  rw [show (0x01 : BitVec 32) = 1 from rfl, bit_eq, ArmCore.flags, flagsOf]
  cases (armReadCpsr p).getLsbD 29 <;> rfl

/-- The amount of a shift by a register. -/
def shiftReg (p : ArmCore) (ins : BitVec 32) : BitVec 8 := (p.read (shiftRs ins)).setWidth 8

theorem shift_imm (h4 : ins.getLsbD 4 = false) : shift b p ins = shiftByImmediate b p ins :=
  if_pos (bit_eq_zero.mpr h4)

theorem shift_reg (h4 : ins.getLsbD 4 = true) : shift b p ins = shiftByRegister b p ins :=
  if_neg fun h => by
    rw [bit_eq_zero, h4] at h
    cases h

end Fields

/-! ## Shifts by an immediate -/

section Immediate

variable {b : Build} {p : ArmCore} {ins : BitVec 32}

theorem shift_lsl_imm (h4 : ins.getLsbD 4 = false) (ht : shiftType ins = 0) :
    shift b p ins = .ok (p.read (rm ins) <<< shiftImm ins,
      flagBit (shiftedCarry 0 (shiftImm ins) p.flags.c (p.read (rm ins)))) := by
  have hlt := shiftImm_lt ins
  have hmode : ((ins >>> 5) &&& 0x03).setWidth 8 = LSL := by rw [mode_eq, ht]; rfl
  rw [shift_imm h4, shiftByImmediate]
  simp only [armReadRegister_rm, ok_bind, hmode, carryBit_eq, shiftImm_eq, toNat_shiftImm,
    shiftImm_zero, if_true]
  by_cases h0 : shiftImm ins = 0
  · rw [if_pos ⟨rfl, h0⟩, h0, BitVec.shiftLeft_zero]
    rfl
  · rw [if_neg (fun h => h0 h.2), shl_of_lt hlt, ok_bind, if_neg h0, getBit_sub h0 (by omega),
      ok_bind]
    exact congrArg (fun c => Except.ok (_, flagBit c)) (if_neg h0).symm

/-- `LSR #n`: the amount 0, which stands for 32, leaves the value as it is. -/
theorem shift_lsr_imm (h4 : ins.getLsbD 4 = false) (ht : shiftType ins = 1) :
    shift b p ins = .ok (p.read (rm ins) >>> shiftImm ins,
      flagBit (shiftedCarry 1 (shiftImm ins) p.flags.c (p.read (rm ins)))) := by
  have hlt := shiftImm_lt ins
  have hmode : ((ins >>> 5) &&& 0x03).setWidth 8 = LSR := by rw [mode_eq, ht]; rfl
  rw [shift_imm h4, shiftByImmediate]
  simp only [armReadRegister_rm, ok_bind, hmode, carryBit_eq, shiftImm_eq, toNat_shiftImm,
    shiftImm_zero, if_true]
  rw [if_neg (fun h => absurd h.1 (by decide)), if_neg (by decide), shr_of_lt hlt, ok_bind]
  by_cases h0 : shiftImm ins = 0
  · have hbit := getBit_flag (b := b) (x := p.read (rm ins)) (show 31 < 32 by omega)
    rw [if_pos h0, show (31 : Int) = (31 : Nat) from rfl, hbit, ok_bind]
    exact congrArg (fun c => Except.ok (_, flagBit c)) (if_pos h0).symm
  · rw [if_neg h0, getBit_pred h0 (by omega), ok_bind]
    exact congrArg (fun c => Except.ok (_, flagBit c)) (if_neg h0).symm

theorem shift_asr_imm (h4 : ins.getLsbD 4 = false) (ht : shiftType ins = 2)
    (h0 : shiftImm ins ≠ 0) :
    shift b p ins = .ok ((p.read (rm ins)).sshiftRight (shiftImm ins),
      flagBit (shiftedCarry 2 (shiftImm ins) p.flags.c (p.read (rm ins)))) := by
  have hlt := shiftImm_lt ins
  have hmode : ((ins >>> 5) &&& 0x03).setWidth 8 = ASR := by rw [mode_eq, ht]; rfl
  have hasr := asr_of_lt (b := b) (x := p.read (rm ins))
    (s := (ins.extractLsb' 7 5).setWidth 8) (by rw [toNat_shiftImm]; omega)
    (by rw [toNat_shiftImm]; omega)
  rw [toNat_shiftImm] at hasr
  rw [shift_imm h4, shiftByImmediate]
  simp only [armReadRegister_rm, ok_bind, hmode, carryBit_eq, shiftImm_eq, toNat_shiftImm,
    shiftImm_zero, if_true]
  rw [if_neg (fun h => absurd h.1 (by decide)), if_neg (by decide), if_neg (by decide), hasr,
    ok_bind, if_neg h0, getBit_pred h0 (by omega), ok_bind]
  exact congrArg (fun c => Except.ok (_, flagBit c)) (if_neg h0).symm

/-- `ASR #0`, which stands for 32: a discarded `asr` by 0, then the sign. -/
theorem shift_asr_zero (h4 : ins.getLsbD 4 = false) (ht : shiftType ins = 2)
    (h0 : shiftImm ins = 0) :
    shift b p ins = (asr b (p.read (rm ins)) 0 >>= fun _ =>
      .ok (if (p.read (rm ins)).getLsbD 31 then 0xFFFFFFFF else 0,
        flagBit ((p.read (rm ins)).getLsbD 31))) := by
  have hmode : ((ins >>> 5) &&& 0x03).setWidth 8 = ASR := by rw [mode_eq, ht]; rfl
  have hbit := getBit_flag (b := b) (x := p.read (rm ins)) (show 31 < 32 by omega)
  have hzero : (ins.extractLsb' 7 5).setWidth 8 = (0 : BitVec 8) := (shiftImm_zero ins).mpr h0
  rw [shift_imm h4, shiftByImmediate]
  simp only [armReadRegister_rm, ok_bind, hmode, carryBit_eq, shiftImm_eq, hzero, if_true]
  rw [if_neg (fun h => absurd h.1 (by decide)), if_neg (by decide), if_neg (by decide)]
  refine congrArg (asr b (p.read (rm ins)) 0 >>= ·) (funext fun _ => ?_)
  rw [show (31 : Int) = (31 : Nat) from rfl, hbit, ok_bind]
  cases (p.read (rm ins)).getLsbD 31 <;> rfl

/-- `ROR #n`, with 0 for a rotation by one through the carry. -/
theorem shift_ror_imm (h4 : ins.getLsbD 4 = false) (ht : shiftType ins = 3) :
    shift b p ins = .ok (shifted 3 (shiftImm ins) p.flags.c (p.read (rm ins)),
      flagBit (shiftedCarry 3 (shiftImm ins) p.flags.c (p.read (rm ins)))) := by
  have hlt := shiftImm_lt ins
  have hmode : ((ins >>> 5) &&& 0x03).setWidth 8 = ROR := by rw [mode_eq, ht]; rfl
  rw [shift_imm h4, shiftByImmediate]
  simp only [armReadRegister_rm, ok_bind, hmode, carryBit_eq, shiftImm_eq, toNat_shiftImm,
    shiftImm_zero, if_true, ne_eq]
  rw [if_neg (fun h => absurd h.1 (by decide)), if_neg (by decide), if_neg (by decide),
    if_neg (by decide)]
  by_cases h0 : shiftImm ins = 0
  · have hbit := getBit_flag (b := b) (x := p.read (rm ins)) (show 0 < 32 by omega)
    have hcarry : (flagBit p.flags.c).setWidth 32 <<< 31 =
        if p.flags.c then (0x80000000 : BitVec 32) else 0 := by
      cases p.flags.c <;> rfl
    rw [if_neg (not_not.mpr h0), show (0 : Int) = (0 : Nat) from rfl, hbit, ok_bind, hcarry, h0]
    rfl
  · have hror := ror_of_lt (b := b) (x := p.read (rm ins))
      (s := (ins.extractLsb' 7 5).setWidth 8) (by rw [toNat_shiftImm]; omega)
      (by rw [toNat_shiftImm]; omega)
    rw [toNat_shiftImm] at hror
    rw [if_pos h0, hror, ok_bind, getBit_pred h0 (by omega), ok_bind]
    exact congrArg₂ (fun x c => Except.ok (x, flagBit c)) (if_neg h0).symm (if_neg h0).symm

theorem shiftType_cases (ins : BitVec 32) :
    shiftType ins = 0 ∨ shiftType ins = 1 ∨ shiftType ins = 2 ∨ shiftType ins = 3 := by
  generalize shiftType ins = t
  revert t
  decide

/-- `shift` returns the operand and the carry out of a shift by an immediate. -/
def ShiftsImmediate (b : Build) (p : ArmCore) (ins : BitVec 32) : Prop :=
  shift b p ins = .ok (shifted (shiftType ins) (shiftImm ins) p.flags.c (p.read (rm ins)),
    flagBit (shiftedCarry (shiftType ins) (shiftImm ins) p.flags.c (p.read (rm ins))))

/-- When it does: `LSR #0` has to shift 0, and the `~0 << 32` of `ASR #0` has to have a
value, whichever it is. -/
def ImmediateExact (b : Build) (p : ArmCore) (ins : BitVec 32) : Prop :=
  shiftImm ins = 0 →
    (shiftType ins = 1 → p.read (rm ins) = 0) ∧
    (shiftType ins = 2 → (p.read (rm ins)).getLsbD 31 = true →
      ∃ y, b.overShl 0xFFFFFFFF 32 = .ok y)

theorem sshiftRight_32 (x : BitVec 32) :
    x.sshiftRight 32 = if x.getLsbD 31 then 0xFFFFFFFF else 0 := by
  apply BitVec.eq_of_getLsbD_eq
  intro i hi
  have hmsb : x.getLsbD 31 = x.msb := rfl
  have hones : (0xFFFFFFFF : BitVec 32).getLsbD i = true :=
    (BitVec.getLsbD_allOnes (v := 32)).trans (decide_eq_true hi)
  rw [BitVec.getLsbD_sshiftRight, if_neg (by omega), decide_eq_false (by omega), hmsb]
  cases x.msb with
  | false => simp
  | true =>
    rw [if_pos rfl, hones]
    rfl

/-- **Immediate shifts**: the operand and the carry are right exactly where
`ImmediateExact`. -/
theorem shiftsImmediate_iff (h4 : ins.getLsbD 4 = false) :
    ShiftsImmediate b p ins ↔ ImmediateExact b p ins := by
  unfold ShiftsImmediate ImmediateExact
  rcases shiftType_cases ins with ht | ht | ht | ht
  · rw [shift_lsl_imm h4 ht, ht]
    exact iff_of_true rfl fun _ => ⟨fun h => absurd h (by decide), fun h => absurd h (by decide)⟩
  · rw [shift_lsr_imm h4 ht, ht]
    by_cases h0 : shiftImm ins = 0
    · rw [h0, BitVec.ushiftRight_zero]
      refine ⟨fun h _ => ⟨fun _ => ?_, fun h => absurd h (by decide)⟩, fun h => ?_⟩
      · exact congrArg Prod.fst (Except.ok.inj h)
      · rw [(h rfl).1 rfl]
        rfl
    · refine iff_of_true ?_ fun h => absurd h h0
      rw [shifted]
      exact congrArg (fun x => Except.ok (x, _)) (if_neg h0).symm
  · rw [ht]
    by_cases h0 : shiftImm ins = 0
    · rw [shift_asr_zero h4 ht h0, h0]
      have hvalue : shifted 2 0 p.flags.c (p.read (rm ins)) =
          if (p.read (rm ins)).getLsbD 31 then 0xFFFFFFFF else 0 := sshiftRight_32 _
      rw [hvalue]
      constructor
      · intro h _
        obtain ⟨y, hy, -⟩ := exists_of_bind h
        exact ⟨fun h => absurd h (by decide), fun _ => (asr_zero_defined _).mp ⟨y, hy⟩⟩
      · intro h
        obtain ⟨y, hy⟩ := (asr_zero_defined (b := b) _).mpr ((h rfl).2 rfl)
        rw [hy, ok_bind]
        rfl
    · rw [shift_asr_imm h4 ht h0]
      refine iff_of_true ?_ fun h => absurd h h0
      rw [shifted]
      exact congrArg (fun n => Except.ok ((p.read (rm ins)).sshiftRight n, _)) (if_neg h0).symm
  · rw [shift_ror_imm h4 ht, ht]
    exact iff_of_true rfl fun _ => ⟨fun h => absurd h (by decide), fun h => absurd h (by decide)⟩

/-- `asr r0, #32` of a negative number, with a build that makes `~0 << 32` the word `~0`. -/
theorem shiftsImmediate_iff_asr :
    ShiftsImmediate { Build.trapping false with overShl := fun x _ => .ok x }
      ⟨0, .ofFn fun _ => 0x80000000, .ofBytes [], []⟩ 0xE1A00040 :=
  (shiftsImmediate_iff (by decide)).mpr fun _ =>
    ⟨fun h => absurd h (by decide), fun _ _ => ⟨0xFFFFFFFF, rfl⟩⟩

/-- `lsr r0, #32` of 1 is 1. -/
theorem not_shiftsImmediate_lsr :
    ¬ ShiftsImmediate (.trapping false) ⟨0, .ofFn fun _ => 1, .ofBytes [], []⟩ 0xE1A00020 := by
  intro h
  have h := congrArg Prod.fst (Except.ok.inj h)
  revert h
  decide

end Immediate

/-! ## Shifts by a register -/

/-- The value of a shift by a register. -/
def registerValue (b : Build) (t : BitVec 2) (v : BitVec 32) (n : BitVec 8) :
    Except Fault (BitVec 32) :=
  match t.toNat with
  | 0 => shl b v n.toNat
  | 1 => shr b v n.toNat
  | 2 => asr b v n
  | _ => ror b v n

/-- Its carry out, taken after the value. -/
def registerCarry (b : Build) (t : BitVec 2) (c : Bool) (v : BitVec 32) (n : BitVec 8) :
    Except Fault (BitVec 8) :=
  let bit (i : Int) : Except Fault (BitVec 8) := getBit b v i >>= fun y => .ok (y.setWidth 8)
  if n.toNat = 0 then .ok (flagBit c)
  else
    match t.toNat with
    | 0 => if n.toNat < 32 then bit (32 - n.toNat) else if n.toNat = 32 then bit 0 else .ok 0
    | 1 => if n.toNat < 32 then bit (n.toNat - 1) else if n.toNat = 32 then bit 31 else .ok 0
    | 2 => if n.toNat < 32 then bit (n.toNat - 1) else .ok 0
    | _ => bit ((n.toNat % 16 : Nat) - 1)

section Register

variable {b : Build} {p : ArmCore} {ins : BitVec 32} {t : BitVec 2} {c : Bool} {v : BitVec 32}
  {n : BitVec 8}

theorem shiftReg_zero (p : ArmCore) (ins : BitVec 32) :
    shiftReg p ins = 0 ↔ (shiftReg p ins).toNat = 0 := by
  rw [← BitVec.toNat_inj]
  rfl

/-- A shift by a register is its value, then its carry. -/
theorem shift_register (h4 : ins.getLsbD 4 = true) :
    shift b p ins =
      (registerValue b (shiftType ins) (p.read (rm ins)) (shiftReg p ins) >>= fun y =>
        registerCarry b (shiftType ins) p.flags.c (p.read (rm ins)) (shiftReg p ins) >>= fun c =>
          .ok (y, c)) := by
  have hreg : (p.read (shiftRs ins)).setWidth 8 = shiftReg p ins := rfl
  have hmask : (shiftReg p ins &&& 0x0F).toNat = (shiftReg p ins).toNat % 16 := by
    rw [BitVec.toNat_and]
    exact Nat.and_two_pow_sub_one_eq_mod _ 4
  have hzero : shiftReg p ins &&& 0 = 0 := BitVec.and_zero
  rw [shift_reg h4, shiftByRegister]
  simp only [armReadRegister_rm p ins, armReadRegister_shiftRs p ins, ok_bind, mode_eq,
    carryBit_eq, hreg, shiftReg_zero, hmask, hzero]
  rcases shiftType_cases ins with ht | ht | ht | ht
  · rw [ht, if_pos (by decide)]
    refine congrArg (shl b _ _ >>= ·) (funext fun y => ?_)
    unfold registerCarry
    split_ifs <;> rfl
  · rw [ht, if_neg (by decide), if_pos (by decide)]
    refine congrArg (shr b _ _ >>= ·) (funext fun y => ?_)
    unfold registerCarry
    split_ifs <;> rfl
  · rw [ht, if_neg (by decide), if_neg (by decide), if_pos (by decide)]
    refine congrArg (asr b _ _ >>= ·) (funext fun y => ?_)
    unfold registerCarry
    split_ifs <;> rfl
  · rw [ht, if_neg (by decide), if_neg (by decide), if_neg (by decide), if_pos (by decide)]
    refine congrArg (ror b _ _ >>= ·) (funext fun y => ?_)
    unfold registerCarry
    by_cases h0 : (shiftReg p ins).toNat = 0
    · rw [if_pos h0, if_pos h0]
      rfl
    · rw [if_neg h0, if_neg h0, if_neg (not_not.mpr rfl)]
      rfl

theorem registerCarry_eq (ht : t = 0 ∨ t = 1 ∨ t = 2 ∧ n.toNat < 32) :
    registerCarry b t c v n = .ok (flagBit (shiftedBy t n.toNat c v).2) := by
  unfold registerCarry
  by_cases h0 : n.toNat = 0
  · rw [if_pos h0, h0, shiftedBy_zero]
  rw [if_neg h0]
  rcases ht with rfl | rfl | ⟨rfl, hlt⟩
  · rw [shiftedBy_lsl h0]
    change (if n.toNat < 32 then _ else if n.toNat = 32 then _ else _) = _
    by_cases hlt : n.toNat < 32
    · rw [if_pos hlt, if_pos hlt]
      exact getBit_sub h0 (by omega)
    · rw [if_neg hlt, if_neg hlt]
      split
      · exact getBit_flag (i := 0) (by omega)
      · rfl
  · rw [shiftedBy_lsr h0]
    change (if n.toNat < 32 then _ else if n.toNat = 32 then _ else _) = _
    by_cases hlt : n.toNat < 32
    · rw [if_pos hlt, if_pos hlt]
      exact getBit_pred h0 (by omega)
    · rw [if_neg hlt, if_neg hlt]
      split
      · exact getBit_flag (i := 31) (by omega)
      · rfl
  · rw [shiftedBy_asr h0]
    change (if n.toNat < 32 then _ else _) = _
    rw [if_pos hlt, if_pos hlt]
    exact getBit_pred h0 (by omega)

theorem shift_carried (h4 : ins.getLsbD 4 = true)
    (ht : shiftType ins = 0 ∨ shiftType ins = 1 ∨
      shiftType ins = 2 ∧ (shiftReg p ins).toNat < 32) :
    shift b p ins =
      (registerValue b (shiftType ins) (p.read (rm ins)) (shiftReg p ins) >>= fun y =>
        .ok (y, flagBit
          (shiftedBy (shiftType ins) (shiftReg p ins).toNat p.flags.c (p.read (rm ins))).2)) := by
  rw [shift_register h4, registerCarry_eq ht]
  rfl

theorem shift_ror_reg (h4 : ins.getLsbD 4 = true) (ht : shiftType ins = 3)
    (h0 : (shiftReg p ins).toNat ≠ 0) (hlt : (shiftReg p ins).toNat < 32) :
    shift b p ins =
      (getBit b (p.read (rm ins)) (((shiftReg p ins).toNat % 16 : Nat) - 1) >>= fun c =>
        .ok ((p.read (rm ins)).rotateRight (shiftReg p ins).toNat, c.setWidth 8)) := by
  have hvalue : registerValue b 3 (p.read (rm ins)) (shiftReg p ins) =
      .ok ((p.read (rm ins)).rotateRight (shiftReg p ins).toNat) :=
    ror_of_lt (Nat.pos_of_ne_zero h0) hlt
  have hcarry : registerCarry b 3 p.flags.c (p.read (rm ins)) (shiftReg p ins) =
      (getBit b (p.read (rm ins)) (((shiftReg p ins).toNat % 16 : Nat) - 1) >>= fun y =>
        .ok (y.setWidth 8)) := if_neg h0
  rw [shift_register h4, ht, hvalue, ok_bind, hcarry]
  cases getBit b (p.read (rm ins)) (((shiftReg p ins).toNat % 16 : Nat) - 1) <;> rfl

theorem registerValue_trapping {e : Bool} (h : 32 ≤ n.toNat ∨ t = 3 ∧ n.toNat = 0) :
    ∃ f, registerValue (.trapping e) t v n = .error f := by
  rcases h with h | ⟨rfl, h⟩
  · unfold registerValue
    split
    · exact ⟨_, shl_trapping h⟩
    · exact ⟨_, shr_trapping h⟩
    · exact ⟨_, asr_trapping h⟩
    · exact ror_trapping (.inr h)
  · exact ror_trapping (.inl h)

end Register

/-! ### The operand -/

section Operand

variable {p : ArmCore} {ins : BitVec 32}

/-- Whatever the build makes of a shift by an amount outside `0 … 31`, which means that there
is none, `shift` returns the operand and the carry out of a shift by a register. -/
def ShiftsRegister (p : ArmCore) (ins : BitVec 32) : Prop :=
  ∀ b, shift b p ins = .ok
    ((shiftedBy (shiftType ins) (shiftReg p ins).toNat p.flags.c (p.read (rm ins))).1,
      flagBit (shiftedBy (shiftType ins) (shiftReg p ins).toNat p.flags.c (p.read (rm ins))).2)

/-- When it does: the amount is below 32, and what the fill of `ASR` by 0, the rotation by 0
and the carry of a rotation by 16 or more get wrong does not matter. -/
def RegisterExact (p : ArmCore) (ins : BitVec 32) : Prop :=
  (shiftReg p ins).toNat < 32 ∧
    (shiftType ins = 2 → (shiftReg p ins).toNat = 0 → (p.read (rm ins)).getLsbD 31 = false) ∧
    (shiftType ins = 3 → (shiftReg p ins).toNat ≠ 0 ∧ (shiftReg p ins).toNat ≠ 16 ∧
      (16 < (shiftReg p ins).toNat → (p.read (rm ins)).getLsbD ((shiftReg p ins).toNat - 17) =
        (p.read (rm ins)).getLsbD ((shiftReg p ins).toNat - 1)))

theorem registerValue_eq {b : Build} {t : BitVec 2} {v : BitVec 32} {n : BitVec 8} (c : Bool)
    (hlt : n.toNat < 32)
    (ht : t = 0 ∨ t = 1 ∨ t = 2 ∧ (n.toNat = 0 → v.getLsbD 31 = false)) :
    registerValue b t v n = .ok (shiftedBy t n.toNat c v).1 := by
  by_cases h0 : n.toNat = 0
  · obtain rfl : n = 0 := BitVec.eq_of_toNat_eq h0
    rw [h0, shiftedBy_zero]
    rcases ht with rfl | rfl | ⟨rfl, hsign⟩
    · exact (shl_of_lt (n := 0) (by decide)).trans (by rw [BitVec.shiftLeft_zero])
    · exact (shr_of_lt (n := 0) (by decide)).trans (by rw [BitVec.ushiftRight_zero])
    · exact (asr_zero v).trans (by rw [hsign rfl, if_neg Bool.false_ne_true])
  · rcases ht with rfl | rfl | ⟨rfl, -⟩
    · rw [shiftedBy_lsl h0, if_pos hlt]
      exact shl_of_lt hlt
    · rw [shiftedBy_lsr h0, if_pos hlt]
      exact shr_of_lt hlt
    · rw [shiftedBy_asr h0, if_pos hlt]
      exact asr_of_lt (Nat.pos_of_ne_zero h0) hlt

theorem ShiftsRegister.defined (h4 : ins.getLsbD 4 = true) (h : ShiftsRegister p ins) :
    ¬ (32 ≤ (shiftReg p ins).toNat ∨ shiftType ins = 3 ∧ (shiftReg p ins).toNat = 0) := by
  intro hout
  obtain ⟨f, hf⟩ := registerValue_trapping (e := false) (v := p.read (rm ins)) hout
  have hx := h (.trapping false)
  rw [shift_register h4, hf] at hx
  cases hx

theorem flagBit_inj {c d : Bool} : flagBit c = flagBit d ↔ c = d := by
  cases c <;> cases d <;> decide

/-- A rotation by 1 to 31 has the right carry for an amount below 16, none for 16, and above
that the one of a rotation by 16 less. -/
theorem shiftsRegister_ror (h4 : ins.getLsbD 4 = true) (ht : shiftType ins = 3)
    (h0 : (shiftReg p ins).toNat ≠ 0) (hlt : (shiftReg p ins).toNat < 32) :
    ShiftsRegister p ins ↔ (shiftReg p ins).toNat ≠ 16 ∧
      (16 < (shiftReg p ins).toNat → (p.read (rm ins)).getLsbD ((shiftReg p ins).toNat - 17) =
        (p.read (rm ins)).getLsbD ((shiftReg p ins).toNat - 1)) := by
  have hspec (c : Bool) (v : BitVec 32) : shiftedBy 3 (shiftReg p ins).toNat c v =
      (v.rotateRight (shiftReg p ins).toNat, v.getLsbD ((shiftReg p ins).toNat - 1)) := by
    rw [shiftedBy_ror h0, Nat.mod_eq_of_lt hlt, if_neg h0]
  unfold ShiftsRegister
  rw [ht, hspec]
  generalize hv : p.read (rm ins) = v
  generalize hn : (shiftReg p ins).toNat = n at h0 hlt ⊢
  have hshift (b : Build) : shift b p ins = (getBit b v ((n % 16 : Nat) - 1) >>= fun c =>
      .ok (v.rotateRight n, c.setWidth 8)) := by
    rw [shift_ror_reg h4 ht (by omega) (by omega), hv, hn]
  -- the bit the carry is taken from
  have hcarry (k : Nat) (hk : ((n % 16 : Nat) : Int) - 1 = k) (hlt : k < 32) (b : Build) :
      shift b p ins = .ok (v.rotateRight n, flagBit (v.getLsbD k)) := by
    rw [hshift, hk, getBit_of_lt hlt, ok_bind, bit_eq]
    cases v.getLsbD k <;> rfl
  by_cases h16 : n = 16
  · refine iff_of_false (fun h => ?_) fun h => h.1 h16
    have hx := h (.trapping false)
    rw [hshift, h16] at hx
    cases hx
  · by_cases hlow : n < 16
    · refine iff_of_true (hcarry (n - 1) (by omega) (by omega)) ⟨h16, fun h => ?_⟩
      omega
    · have hrun := hcarry (n - 17) (by omega) (by omega)
      refine ⟨fun h => ⟨h16, fun _ => ?_⟩, fun h b => ?_⟩
      · have hx := (hrun (.trapping false)).symm.trans (h (.trapping false))
        exact flagBit_inj.mp (congrArg Prod.snd (Except.ok.inj hx))
      · rw [hrun b, h.2 (by omega)]

/-- **Register shifts**: exactly where `RegisterExact`, the operand and the carry are right and
no meaningless shift is evaluated. -/
theorem shiftsRegister_iff (h4 : ins.getLsbD 4 = true) :
    ShiftsRegister p ins ↔ RegisterExact p ins := by
  unfold RegisterExact
  by_cases hlt : (shiftReg p ins).toNat < 32
  case neg => exact iff_of_false (fun h => h.defined h4 (.inl (Nat.not_lt.mp hlt))) fun h => hlt h.1
  rcases shiftType_cases ins with ht | ht | ht | ht
  · refine iff_of_true (fun b => ?_) ⟨hlt, ?_, ?_⟩
    · rw [shift_carried h4 (.inl ht), registerValue_eq p.flags.c hlt (.inl ht), ok_bind]
    · exact fun h => absurd (ht.symm.trans h) (by decide)
    · exact fun h => absurd (ht.symm.trans h) (by decide)
  · refine iff_of_true (fun b => ?_) ⟨hlt, ?_, ?_⟩
    · rw [shift_carried h4 (.inr (.inl ht)), registerValue_eq p.flags.c hlt (.inr (.inl ht)),
        ok_bind]
    · exact fun h => absurd (ht.symm.trans h) (by decide)
    · exact fun h => absurd (ht.symm.trans h) (by decide)
  · constructor
    · intro h
      refine ⟨hlt, fun _ h0 => ?_, fun h => absurd (ht.symm.trans h) (by decide)⟩
      have hx := h (.trapping false)
      rw [shift_register h4, ht, (shiftReg_zero p ins).mpr h0] at hx
      obtain ⟨y, hy, -⟩ := exists_of_bind hx
      by_contra hmsb
      obtain ⟨z, hz⟩ := (asr_zero_defined _).mp ⟨y, hy⟩ (Bool.eq_true_of_not_eq_false hmsb)
      cases hz
    · rintro ⟨-, hzero, -⟩ b
      rw [shift_carried h4 (.inr (.inr ⟨ht, hlt⟩)),
        registerValue_eq p.flags.c hlt (.inr (.inr ⟨ht, hzero ht⟩)), ok_bind]
  · by_cases h0 : (shiftReg p ins).toNat = 0
    · exact iff_of_false (fun h => h.defined h4 (.inr ⟨ht, h0⟩)) fun h => (h.2.2 ht).1 h0
    · rw [shiftsRegister_ror h4 ht h0 hlt]
      refine ⟨fun h => ⟨hlt, fun h' => absurd (ht.symm.trans h') (by decide), fun _ => ⟨h0, h⟩⟩,
        fun h => (h.2.2 ht).2⟩

/-- `lsl r0, r1` -/
theorem shiftsRegister_iff_lsl :
    ShiftsRegister ⟨0, .ofFn fun _ => 4, .ofBytes [], []⟩ 0xE1A00110 :=
  (shiftsRegister_iff (by decide)).mpr
    ⟨by decide, fun h => absurd h (by decide), fun h => absurd h (by decide)⟩

/-- `lsr r0, r1` by 32 -/
theorem not_shiftsRegister_lsr :
    ¬ ShiftsRegister ⟨0, .ofFn fun _ => 32, .ofBytes [], []⟩ 0xE1A00130 := fun h =>
  absurd (h (.trapping false)) (by decide)

end Operand

/-! ## The rotated immediate -/

section Rotate

variable {b : Build} {p : ArmCore} {ins : BitVec 32}

theorem imm8_eq (ins : BitVec 32) : ins &&& 0xFF = imm8 ins := by
  apply BitVec.eq_of_getLsbD_eq
  intro i hi
  interval_cases i <;> simp [imm8]

theorem rotateImm_eq (ins : BitVec 32) :
    (ins >>> 8) &&& 0x0F = (ins.extractLsb' 8 4).setWidth 32 := by
  apply BitVec.eq_of_getLsbD_eq
  intro i hi
  interval_cases i <;> simp

theorem toNat_rotateImm (ins : BitVec 32) :
    ((ins.extractLsb' 8 4).setWidth 32 : BitVec 32).toNat = rotateImm ins := by
  have h := (ins.extractLsb' 8 4).isLt
  rw [BitVec.toNat_setWidth, Nat.mod_eq_of_lt (by omega), rotateImm]

theorem rotateImm_zero (ins : BitVec 32) :
    ((ins.extractLsb' 8 4).setWidth 32 : BitVec 32) = 0 ↔ rotateImm ins = 0 := by
  rw [← BitVec.toNat_inj, toNat_rotateImm]
  rfl

theorem rotateImm_lt (ins : BitVec 32) : rotateImm ins < 16 := (ins.extractLsb' 8 4).isLt

theorem rotate_of_ne_zero (h : rotateImm ins ≠ 0) :
    rotate b p ins = .ok (rotatedImm ins, flagBit ((rotatedImm ins).getLsbD 31)) := by
  have hlt := rotateImm_lt ins
  have hlow : (2 * (rotateImm ins : Int)) = (2 * rotateImm ins : Nat) := by omega
  have hhigh : 32 - ((2 * rotateImm ins : Nat) : Int) = (32 - 2 * rotateImm ins : Nat) := by omega
  have hrotated : imm8 ins >>> (2 * rotateImm ins) ||| imm8 ins <<< (32 - 2 * rotateImm ins) =
      rotatedImm ins := by
    rw [rotatedImm, BitVec.rotateRight, BitVec.rotateRightAux, Nat.mod_eq_of_lt (by omega)]
  rw [rotate]
  simp only [imm8_eq, rotateImm_eq, toNat_rotateImm, rotateImm_zero]
  rw [hlow, shr_of_lt (by omega), ok_bind, hhigh, shl_of_lt (by omega), ok_bind, if_neg h, hrotated,
    show (31 : Int) = (31 : Nat) from rfl, getBit_of_lt (by decide), ok_bind, bit_eq]
  cases (rotatedImm ins).getLsbD 31 <;> rfl

/-- `rotate` with the field 0 shifts left by 32. -/
theorem rotate_zero (h : rotateImm ins = 0) :
    rotate b p ins = (b.overShl (imm8 ins) 32 >>= fun y =>
      .ok (imm8 ins ||| y, flagBit p.flags.c)) := by
  have hshr : shr b (imm8 ins) ((0 : Nat) : Int) = .ok (imm8 ins) := by
    rw [shr_of_lt (by decide), BitVec.ushiftRight_zero]
  have hcarry : (armReadCpsr p >>> 29) &&& 1 = if p.flags.c then 1 else 0 := bit_eq _ _
  rw [rotate]
  simp only [imm8_eq, rotateImm_eq, toNat_rotateImm, rotateImm_zero]
  rw [h, show (2 * ((0 : Nat) : Int)) = (0 : Nat) from rfl, hshr, ok_bind]
  refine congrArg (b.overShl (imm8 ins) 32 >>= ·) (funext fun y => ?_)
  rw [if_pos rfl, show (29 : Int) = (29 : Nat) from rfl, getBit_of_lt (by decide), ok_bind, hcarry]
  cases p.flags.c <;> rfl

end Rotate

/-! ## Operands that have a value -/

/-- The C shifts that `shift` evaluates have values. Behind a bit 4 that is clear only the fill of
`ASR #0` can have none; behind one that is set the shift of the value can, and for a rotation
the bit its carry comes from, by -1 for a multiple of 16. -/
def ShiftDefined (b : Build) (p : ArmCore) (ins : BitVec 32) : Prop :=
  let v := p.read (rm ins)
  let n := (shiftReg p ins).toNat
  if ins.getLsbD 4 then
    match (shiftType ins).toNat with
    | 0 => b.HasShl v n
    | 1 => b.HasShr v n
    | 2 => b.HasAsr v n
    | _ => b.HasRor v n ∧ (n ≠ 0 → b.HasShr v ((n % 16 : Nat) - 1))
  else shiftType ins = 2 → shiftImm ins = 0 → b.HasAsr v 0

/-- A rotation by 0 shifts the immediate left by 32. -/
def RotateDefined (b : Build) (ins : BitVec 32) : Prop :=
  rotateImm ins = 0 → ∃ y, b.overShl (imm8 ins) 32 = .ok y

section Defined

variable {b : Build} {p : ArmCore} {ins : BitVec 32} {t : BitVec 2} {c : Bool} {v : BitVec 32}
  {n : BitVec 8}

theorem getBit_returns {i : Int} :
    (∃ y, (getBit b v i >>= fun y => .ok (y.setWidth 8)) = .ok (y : BitVec 8)) ↔ b.HasShr v i := by
  rw [exists_bind_iff, ← shr_returns]
  constructor
  · rintro ⟨y, hy, -⟩
    obtain ⟨x, hx, -⟩ := exists_of_bind hy
    exact ⟨x, hx⟩
  · rintro ⟨x, hx⟩
    exact ⟨x &&& 1, by rw [getBit, hx, ok_bind], _, rfl⟩

theorem registerCarry_returns :
    (∃ y, registerCarry b (shiftType ins) c v n = .ok y) ↔
      (shiftType ins = 3 → n.toNat ≠ 0 → b.HasShr v ((n.toNat % 16 : Nat) - 1)) := by
  by_cases h0 : n.toNat = 0
  · exact iff_of_true ⟨flagBit c, if_pos h0⟩ fun _ h => absurd h0 h
  rcases shiftType_cases ins with ht | ht | ht | ht
  · exact iff_of_true ⟨_, registerCarry_eq (.inl ht)⟩ fun h => absurd (ht.symm.trans h) (by decide)
  · exact iff_of_true ⟨_, registerCarry_eq (.inr (.inl ht))⟩
      fun h => absurd (ht.symm.trans h) (by decide)
  · refine iff_of_true ?_ fun h => absurd (ht.symm.trans h) (by decide)
    by_cases hlt : n.toNat < 32
    · exact ⟨_, registerCarry_eq (.inr (.inr ⟨ht, hlt⟩))⟩
    · rw [ht]
      exact ⟨0, (if_neg h0).trans (if_neg hlt)⟩
  · have hcarry : registerCarry b 3 c v n =
        (getBit b v ((n.toNat % 16 : Nat) - 1) >>= fun y => .ok (y.setWidth 8)) := if_neg h0
    rw [ht, hcarry, getBit_returns]
    exact ⟨fun h _ _ => h, fun h => h rfl h0⟩

theorem shift_returns : (∃ x, shift b p ins = .ok x) ↔ ShiftDefined b p ins := by
  unfold ShiftDefined
  cases h4 : ins.getLsbD 4 with
  | false =>
    rw [if_neg Bool.false_ne_true]
    rcases shiftType_cases ins with ht | ht | ht | ht
    · exact iff_of_true ⟨_, shift_lsl_imm h4 ht⟩ fun h => absurd (ht.symm.trans h) (by decide)
    · exact iff_of_true ⟨_, shift_lsr_imm h4 ht⟩ fun h => absurd (ht.symm.trans h) (by decide)
    · by_cases h0 : shiftImm ins = 0
      · rw [shift_asr_zero h4 ht h0, exists_bind_iff]
        have hasr := asr_returns (b := b) (x := p.read (rm ins)) (s := 0)
        exact ⟨fun ⟨y, hy, _⟩ _ _ => hasr.mp ⟨y, hy⟩,
          fun h => (hasr.mpr (h ht h0)).imp fun y hy => ⟨hy, _, rfl⟩⟩
      · exact iff_of_true ⟨_, shift_asr_imm h4 ht h0⟩ fun _ h => absurd h h0
    · exact iff_of_true ⟨_, shift_ror_imm h4 ht⟩ fun h => absurd (ht.symm.trans h) (by decide)
  | true =>
    rw [if_pos rfl, shift_register h4, exists_pair_iff, registerCarry_returns]
    have hcarried {P : Prop} (ht : shiftType ins ≠ 3) : shiftType ins = 3 → P :=
      fun h => absurd h ht
    rcases shiftType_cases ins with ht | ht | ht | ht
    · rw [and_iff_left (hcarried (by rw [ht]; decide)), ht]
      exact shl_returns
    · rw [and_iff_left (hcarried (by rw [ht]; decide)), ht]
      exact shr_returns
    · rw [and_iff_left (hcarried (by rw [ht]; decide)), ht]
      exact asr_returns
    · rw [ht]
      exact and_congr ror_returns ⟨fun h => h rfl, fun h _ => h⟩

theorem rotate_returns : (∃ x, rotate b p ins = .ok x) ↔ RotateDefined b ins := by
  unfold RotateDefined
  by_cases h0 : rotateImm ins = 0
  · rw [rotate_zero h0, exists_bind_iff]
    exact ⟨fun ⟨y, hy, _⟩ _ => ⟨y, hy⟩, fun h => (h h0).imp fun y hy => ⟨hy, _, rfl⟩⟩
  · exact iff_of_true ⟨_, rotate_of_ne_zero h0⟩ fun h => absurd h h0

end Defined

end Armator.Sim
