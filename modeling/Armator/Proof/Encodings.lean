import Armator.Lib.Returns
import Armator.Proof.Alu
import Armator.Proof.Shifter

/-!
# The two encodings

A data processing instruction takes its second operand from the shifter or from a rotated
immediate, and both decoders go on with the same table. `Encoding.run_eq` says what they
return; the results, the frame and the flags of the logical operations follow from it.
-/

namespace Armator.Sim

open Lib Spec

inductive Encoding where
  /-- The second operand is a shifted register. -/
  | shift
  /-- The second operand is a rotated immediate. -/
  | immediate
  deriving DecidableEq, Repr

namespace Encoding

/-- The second operand and the carry out of its decoder. -/
def operand (e : Encoding) (b : Build) (p : ArmCore) (ins : BitVec 32) :
    Except Fault (BitVec 32 × BitVec 8) :=
  match e with
  | shift => Sim.shift b p ins
  | immediate => rotate b p ins

/-- The second operand has a value. -/
def OperandDefined (e : Encoding) (b : Build) (p : ArmCore) (ins : BitVec 32) : Prop :=
  match e with
  | shift => ShiftDefined b p ins
  | immediate => RotateDefined b ins

theorem operand_returns {e : Encoding} {b : Build} {p : ArmCore} {ins : BitVec 32} :
    (∃ x, e.operand b p ins = .ok x) ↔ e.OperandDefined b p ins := by
  cases e with
  | shift => exact shift_returns
  | immediate => exact rotate_returns

def run (e : Encoding) (b : Build) (p : ArmCore) (ins : BitVec 32) :
    Except Fault (Int × ArmCore) :=
  match e with
  | shift => armDataProcessingShift b p ins
  | immediate => armDataProcessingImmediateMsr b p ins

end Encoding

/-- `Rd` as the decoders hand it on. -/
def rdField (ins : BitVec 32) : BitVec 8 := (ins.extractLsb' 12 4).setWidth 8

/-- The S bit as the decoders hand it on. -/
def sField (ins : BitVec 32) : BitVec 8 := if bitS ins then 1 else 0

/-- The state after an instruction with the second operand `x.1` and the carry `x.2`. -/
def executed (p : ArmCore) (ins : BitVec 32) (x : BitVec 32 × BitVec 8) : ArmCore :=
  operated p (Spec.opcode ins) (sField ins) (rdField ins)
    (flagInputs (Spec.opcode ins) (p.read (rn ins)) (p.read (rd ins)) x.1 p.flags.c x.2)
    (aluResult (Spec.opcode ins) (p.read (rn ins)) x.1 p.flags.c)

section Run

variable {b : Build} {p : ArmCore} {ins : BitVec 32}

theorem toNat_rdField (ins : BitVec 32) : (rdField ins).toNat = rd ins := by
  rw [rdField, toNat_field, rd]

theorem rdField_lt (ins : BitVec 32) : (rdField ins).toNat < 16 := by
  rw [toNat_rdField]
  exact rd_lt ins

theorem sField_eq (ins : BitVec 32) : ((ins >>> 20) &&& 0x01).setWidth 8 = sField ins := by
  rw [show (0x01 : BitVec 32) = 1 from rfl, bit_eq, sField, bitS]
  cases ins.getLsbD 20 <;> rfl

/-- **The instructions**: with a second operand an instruction returns 0 and is executed. -/
theorem Encoding.run_eq (e : Encoding) (b : Build) (p : ArmCore) (ins : BitVec 32) :
    e.run b p ins = (e.operand b p ins >>= fun x => .ok (0, executed p ins x)) := by
  have hopcode : ((ins.extractLsb' 21 4).setWidth 8 : BitVec 8).toNat = Spec.opcode ins := by
    rw [toNat_field, Spec.opcode]
  have htable (x : BitVec 32 × BitVec 8) :
      dataProcessing p ((ins.extractLsb' 21 4).setWidth 8) (sField ins)
        ((ins.extractLsb' 16 4).setWidth 8) (rdField ins) x.1 x.2 =
          .ok (0, executed p ins x) := by
    rw [dataProcessing_eq _ _ _ (by rw [hopcode]; exact opcode_lt ins)
      (armReadRegister_setWidth p _) (rdField_lt ins), hopcode, toNat_rdField]
    rfl
  cases e with
  | shift =>
    rw [Encoding.run, armDataProcessingShift]
    simp only [nibble_eq, sField_eq]
    exact congrArg (Sim.shift b p ins >>= ·) (funext htable)
  | immediate =>
    rw [Encoding.run, armDataProcessingImmediateMsr]
    simp only [nibble_eq, sField_eq]
    exact congrArg (rotate b p ins >>= ·) (funext htable)

end Run

/-! ## The carry out of the decoders -/

/-- The carry is 0 or 1. -/
def CarriesFlag (x : BitVec 32 × BitVec 8) : Prop := ∃ c, x.2 = flagBit c

section Carry

variable {b : Build} {p : ArmCore} {ins : BitVec 32}

theorem getBit_carriesFlag (b : Build) (x y : BitVec 32) (i : Int) :
    Returns (getBit b x i >>= fun c => .ok (y, c.setWidth 8)) CarriesFlag := by
  rw [getBit]
  cases shr b x i with
  | error f => exact returns_error
  | ok z =>
    refine returns_ok ⟨z.getLsbD 0, ?_⟩
    have h := bit_eq z 0
    rw [BitVec.ushiftRight_zero] at h
    dsimp only
    rw [h]
    cases z.getLsbD 0 <;> rfl

theorem bit_carriesFlag (b : Build) (x y : BitVec 32) (i : Int) :
    Returns ((getBit b x i >>= fun z => .ok (z.setWidth 8)) >>= fun c => .ok (y, c))
      CarriesFlag := by
  have h := getBit_carriesFlag b x y i
  cases hx : getBit b x i with
  | error f => exact returns_error
  | ok c =>
    rw [hx] at h
    exact h

theorem shiftByRegister_carriesFlag (b : Build) (p : ArmCore) (ins : BitVec 32) :
    Returns (shiftByRegister b p ins) CarriesFlag := by
  have hcarry (y : BitVec 32) :
      Returns (.ok (y, flagBit p.flags.c) : Except Fault _) CarriesFlag := returns_ok ⟨_, rfl⟩
  have hzero (y : BitVec 32) : Returns (.ok (y, 0) : Except Fault _) CarriesFlag :=
    returns_ok ⟨false, rfl⟩
  rw [shiftByRegister]
  simp only [armReadRegister_rm p ins, armReadRegister_shiftRs p ins, ok_bind, carryBit_eq]
  refine returns_ite (fun _ => returns_bind fun y => ?_) fun _ =>
    returns_ite (fun _ => returns_bind fun y => ?_) fun _ =>
    returns_ite (fun _ => returns_bind fun y => ?_) fun _ =>
    returns_ite (fun _ => returns_bind fun y => ?_) fun _ => hzero 0
  · exact returns_ite (fun _ => hcarry y) fun _ => returns_ite (fun _ => bit_carriesFlag _ _ _ _)
      fun _ => returns_ite (fun _ => bit_carriesFlag _ _ _ _) fun _ => hzero y
  · exact returns_ite (fun _ => hcarry y) fun _ => returns_ite (fun _ => bit_carriesFlag _ _ _ _)
      fun _ => returns_ite (fun _ => bit_carriesFlag _ _ _ _) fun _ => hzero y
  · exact returns_ite (fun _ => hcarry y) fun _ => returns_ite (fun _ => bit_carriesFlag _ _ _ _)
      fun _ => hzero y
  · exact returns_ite (fun _ => hcarry y) fun _ => returns_ite (fun _ => bit_carriesFlag _ _ _ _)
      fun _ => bit_carriesFlag _ _ _ _

theorem shiftByImmediate_carriesFlag (h4 : ins.getLsbD 4 = false) :
    Returns (Sim.shift b p ins) CarriesFlag := by
  rcases shiftType_cases ins with ht | ht | ht | ht
  · rw [shift_lsl_imm h4 ht]
    exact returns_ok ⟨_, rfl⟩
  · rw [shift_lsr_imm h4 ht]
    exact returns_ok ⟨_, rfl⟩
  · by_cases h0 : shiftImm ins = 0
    · rw [shift_asr_zero h4 ht h0]
      exact returns_bind fun _ => returns_ok ⟨_, rfl⟩
    · rw [shift_asr_imm h4 ht h0]
      exact returns_ok ⟨_, rfl⟩
  · rw [shift_ror_imm h4 ht]
    exact returns_ok ⟨_, rfl⟩

theorem rotate_carriesFlag (b : Build) (p : ArmCore) (ins : BitVec 32) :
    Returns (rotate b p ins) CarriesFlag := by
  rw [rotate]
  exact returns_bind fun low => returns_bind fun high =>
    returns_ite (fun _ => getBit_carriesFlag _ _ _ _)
      fun _ => getBit_carriesFlag _ _ _ _

theorem Encoding.operand_carriesFlag (e : Encoding) {x : BitVec 32 × BitVec 8}
    (h : e.operand b p ins = .ok x) : CarriesFlag x := by
  cases e with
  | shift =>
    cases h4 : ins.getLsbD 4 with
    | false => exact shiftByImmediate_carriesFlag h4 x h
    | true => exact shiftByRegister_carriesFlag b p ins x ((shift_reg h4).symm.trans h)
  | immediate => exact rotate_carriesFlag b p ins x h

end Carry

/-! ## Flags of the logical operations -/

/-- `AND`, `EOR`, `TST`, `TEQ`, `ORR`, `MOV`, `BIC` and `MVN`. -/
def Logical (opcode : Nat) : Prop := opcode ≤ 1 ∨ opcode = 8 ∨ opcode = 9 ∨ 12 ≤ opcode

/-- The instruction updates the flags from its result. -/
def UpdatesFlags (ins : BitVec 32) : Prop :=
  Discards (Spec.opcode ins) ∨ bitS ins = true ∧ rd ins ≠ 15

instance (opcode : Nat) : Decidable (Logical opcode) := inferInstanceAs (Decidable (_ ∨ _))

instance (ins : BitVec 32) : Decidable (UpdatesFlags ins) := inferInstanceAs (Decidable (_ ∨ _))

/-- With the second operand `x.1` the instruction returns 0; N and Z are those of its result,
C is `x.2`, and V and bits 27 to 0 are as they were. -/
def FlagsLogical (e : Encoding) (b : Build) (p : ArmCore) (ins : BitVec 32)
    (x : BitVec 32 × BitVec 8) : Prop :=
  ∃ p', e.run b p ins = .ok (0, p') ∧ ∃ c, x.2 = flagBit c ∧
    armReadCpsr p' = packFlags (resultFlags
      (aluResult (Spec.opcode ins) (p.read (rn ins)) x.1 p.flags.c) c p.flags.v) (armReadCpsr p)

/-- N and Z are the same for both words. -/
def SameTests (x y : BitVec 32) : Prop := x.msb = y.msb ∧ (x = 0 ↔ y = 0)

/-- When they are: V was clear, and the old `Rd`, which `And` and `Eor` test, has the sign and
the zero of their result. -/
def LogicalExact (p : ArmCore) (ins b : BitVec 32) : Prop :=
  p.flags.v = false ∧
    (Spec.opcode ins = 0 → SameTests (p.read (rd ins)) (p.read (rn ins) &&& b)) ∧
    (Spec.opcode ins = 1 → SameTests (p.read (rd ins)) (p.read (rn ins) ^^^ b))

section Logical

variable {b : Build} {p : ArmCore} {ins : BitVec 32} {x : BitVec 32 × BitVec 8}

theorem setsFlags_iff (ins : BitVec 32) :
    SetsFlags (Spec.opcode ins) (sField ins) (rdField ins) ↔ UpdatesFlags ins := by
  have hs : sField ins = 1 ↔ bitS ins = true := by
    unfold sField
    cases bitS ins <;> decide
  have hrd : rdField ins ≠ 15 ↔ rd ins ≠ 15 := by
    rw [← toNat_rdField, ne_eq, ne_eq, ← BitVec.toNat_inj]
    rfl
  rw [SetsFlags, UpdatesFlags, hs, hrd]

theorem Encoding.run_of_operand (e : Encoding) (hx : e.operand b p ins = .ok x) :
    e.run b p ins = .ok (0, executed p ins x) := by
  rw [e.run_eq, hx, ok_bind]

/-- `And` and `Eor` test the old `Rd`. -/
theorem flagInputs_logical {n : Nat} (hn : n < 16) (h : Logical n) (a old b : BitVec 32) (c : Bool)
    (carryOut : BitVec 8) :
    flagInputs n a old b c carryOut =
      .logical (if n ≤ 1 then old else aluResult n a b c) carryOut := by
  unfold Logical at h
  interval_cases n <;> first | rfl | exact absurd h (by decide)

theorem armReadCpsr_executed (hset : UpdatesFlags ins) (hop : Logical (Spec.opcode ins)) {c : Bool}
    (hc : x.2 = flagBit c) :
    armReadCpsr (executed p ins x) = packFlags (resultFlags
      (if Spec.opcode ins ≤ 1 then p.read (rd ins)
        else aluResult (Spec.opcode ins) (p.read (rn ins)) x.1 p.flags.c) c false)
      (armReadCpsr p) := by
  rw [executed, armReadCpsr_operated_of_sets ((setsFlags_iff ins).mpr hset) (rdField_lt ins),
    flagInputs_logical (opcode_lt ins) hop, hc]
  exact armReadCpsr_updateCpsr_unaffected (by decide)

theorem resultFlags_inj {u w : BitVec 32} {c v v' : Bool} :
    resultFlags u c v = resultFlags w c v' ↔ SameTests u w ∧ v = v' := by
  rw [resultFlags, resultFlags, SameTests, Flags.mk.injEq, decide_eq_decide]
  simp only [true_and, and_assoc]

/-- **Flags of the logical operations**: they are right exactly where `LogicalExact`. -/
theorem flagsLogical_iff (e : Encoding) (hx : e.operand b p ins = .ok x)
    (hop : Logical (Spec.opcode ins)) (hset : UpdatesFlags ins) :
    FlagsLogical e b p ins x ↔ LogicalExact p ins x.1 := by
  obtain ⟨c, hc⟩ := e.operand_carriesFlag hx
  have hflag (c' : Bool) : x.2 = flagBit c' ↔ c = c' := by rw [hc, flagBit_inj]
  have hcpsr := armReadCpsr_executed (p := p) hset hop hc
  rw [FlagsLogical, exists_snd_iff (e.run_of_operand hx)]
  simp only [hflag, exists_eq_left', hcpsr, packFlags_inj, resultFlags_inj]
  rw [LogicalExact, and_comm, eq_comm (a := false)]
  refine and_congr_right fun _ => ?_
  have hself (w : BitVec 32) : SameTests w w := ⟨rfl, Iff.rfl⟩
  generalize Spec.opcode ins = n
  by_cases h0 : n = 0
  · subst h0
    simp only [Nat.zero_le, if_true, forall_const, Nat.zero_ne_one, false_implies, and_true]
    rfl
  · by_cases h1 : n = 1
    · subst h1
      simp only [Nat.le_refl, if_true, forall_const, Nat.one_ne_zero, false_implies, true_and]
      rfl
    · rw [if_neg (by omega)]
      exact iff_of_true (hself _) ⟨fun h => absurd h h0, fun h => absurd h h1⟩

/-- `movs r0, r1` -/
theorem flagsLogical_iff_mov :
    FlagsLogical .shift (.trapping false) ⟨0, .ofFn fun _ => 1, .ofBytes [], []⟩ 0xE1B00001
      (1, 0) :=
  (flagsLogical_iff .shift rfl (by decide) (by decide)).mpr
    ⟨by decide, fun h => absurd h (by decide), fun h => absurd h (by decide)⟩

/-- `ands r0, r1, r2` of 1 and 2 leaves Z clear when R0 was 5. -/
theorem not_flagsLogical_and :
    ¬ FlagsLogical .shift (.trapping false)
      ⟨0, .ofFn fun i => if i = 0 then 5 else if i = 16 then 0 else i, .ofBytes [], []⟩ 0xE0110002
      (2, 0) := by
  rintro ⟨p', hrun, c, -, hcpsr⟩
  cases hrun
  revert hcpsr
  cases c <;> decide

end Logical

/-! ## Results and frame -/

/-- The second operand: what the shifter returns, or the rotated immediate. -/
def Encoding.HasOperand (e : Encoding) (b : Build) (p : ArmCore) (ins op2 : BitVec 32) : Prop :=
  match e with
  | shift => ∃ c, Sim.shift b p ins = .ok (op2, c)
  | immediate => op2 = rotatedImm ins

/-- The instruction returns 0 and leaves its result, whatever S is, in `Rd`, or nowhere for the
comparisons; the other registers and the memory are as they were. -/
def Computes (e : Encoding) (b : Build) (p : ArmCore) (ins : BitVec 32) : Prop :=
  ∃ op2 p', e.HasOperand b p ins op2 ∧ e.run b p ins = .ok (0, p') ∧
    (¬ Discards (Spec.opcode ins) →
      p'.reg.get (rd ins) = aluResult (Spec.opcode ins) (p.read (rn ins)) op2 p.flags.c) ∧
    (∀ i, i < 16 → Discards (Spec.opcode ins) ∨ i ≠ rd ins → p'.reg.get i = p.reg.get i) ∧
    p'.mem = p.mem

/-- When it does: the shifts of the shifter have values, and what the build makes of the
`immed_8 << 32` of a rotation by 0 does not show in the result. -/
def ComputesExact (e : Encoding) (b : Build) (p : ArmCore) (ins : BitVec 32) : Prop :=
  match e with
  | .shift => ShiftDefined b p ins
  | .immediate =>
    rotateImm ins = 0 → ∃ y, b.overShl (imm8 ins) 32 = .ok y ∧
      (Discards (Spec.opcode ins) ∨
        aluResult (Spec.opcode ins) (p.read (rn ins)) (imm8 ins ||| y) p.flags.c =
          aluResult (Spec.opcode ins) (p.read (rn ins)) (imm8 ins) p.flags.c)

section Result

variable {b : Build} {p : ArmCore} {ins : BitVec 32} {x : BitVec 32 × BitVec 8}

theorem executed_get_rd (hno : ¬ Discards (Spec.opcode ins)) :
    (executed p ins x).reg.get (rd ins) =
      aluResult (Spec.opcode ins) (p.read (rn ins)) x.1 p.flags.c := by
  rw [← toNat_rdField]
  exact operated_get_rd hno (rdField_lt ins)

theorem executed_get {i : Nat} (hi : i ≠ 16) (h : Discards (Spec.opcode ins) ∨ i ≠ rd ins) :
    (executed p ins x).reg.get i = p.reg.get i := by
  rw [← toNat_rdField] at h
  exact operated_get (rdField_lt ins) hi h

theorem executed_mem : (executed p ins x).mem = p.mem := operated_mem

theorem computes_iff_operand (e : Encoding) :
    Computes e b p ins ↔ ∃ op2 x, e.HasOperand b p ins op2 ∧ e.operand b p ins = .ok x ∧
      (¬ Discards (Spec.opcode ins) → aluResult (Spec.opcode ins) (p.read (rn ins)) x.1 p.flags.c =
        aluResult (Spec.opcode ins) (p.read (rn ins)) op2 p.flags.c) := by
  constructor
  · rintro ⟨op2, p', hop, hrun, hresult, -, -⟩
    rw [e.run_eq] at hrun
    obtain ⟨x, hx, hp'⟩ := exists_of_bind hrun
    cases hp'
    exact ⟨op2, x, hop, hx, fun hno => (executed_get_rd hno).symm.trans (hresult hno)⟩
  · rintro ⟨op2, x, hop, hx, hresult⟩
    refine ⟨op2, _, hop, e.run_of_operand hx, fun hno => ?_, fun i hi h => ?_, executed_mem⟩
    · exact (executed_get_rd hno).trans (hresult hno)
    · exact executed_get (by omega) h

/-- **Results and frame**: they are right exactly where `ComputesExact`. -/
theorem computes_iff (e : Encoding) (b : Build) (p : ArmCore) (ins : BitVec 32) :
    Computes e b p ins ↔ ComputesExact e b p ins := by
  rw [computes_iff_operand]
  cases e with
  | shift =>
    refine Iff.trans ⟨?_, ?_⟩ shift_returns
    · rintro ⟨-, x, -, hx, -⟩
      exact ⟨x, hx⟩
    · rintro ⟨x, hx⟩
      exact ⟨x.1, x, ⟨x.2, hx⟩, hx, fun _ => rfl⟩
  | immediate =>
    unfold ComputesExact Encoding.HasOperand Encoding.operand
    dsimp only
    by_cases h0 : rotateImm ins = 0
    · have himm : rotatedImm ins = imm8 ins := by
        rw [rotatedImm, h0, BitVec.rotateRight, BitVec.rotateRightAux]
        exact BitVec.eq_of_toNat_eq (by simp)
      rw [rotate_zero h0, himm]
      constructor
      · rintro ⟨-, x, rfl, hx, hresult⟩ -
        obtain ⟨y, hy, hxy⟩ := exists_of_bind hx
        cases hxy
        exact ⟨y, hy, Decidable.or_iff_not_imp_left.mpr hresult⟩
      · intro h
        obtain ⟨y, hy, hresult⟩ := h h0
        rw [hy, ok_bind]
        exact ⟨imm8 ins, _, rfl, rfl, hresult.resolve_left⟩
    · rw [rotate_of_ne_zero h0]
      exact iff_of_true ⟨_, _, rfl, rfl, fun _ => rfl⟩ fun h => absurd h h0

/-- `mov r0, #1` with a trapping build -/
theorem not_computes_mov :
    ¬ Computes .immediate (.trapping false) ⟨0, .ofFn fun _ => 0, .ofBytes [], []⟩ 0xE3A00001 := by
  rintro ⟨op2, p', -, hrun, -⟩
  cases hrun

end Result

/-! ## Return from an exception -/

/-- After `arm_write_spsr(v)` the instruction returns 0, with `v` in the CPSR, its reserved bits
cleared, and the result in the PC. -/
def RestoresStatus (e : Encoding) (b : Build) (p : ArmCore) (ins v : BitVec 32) : Prop :=
  ∃ x p', e.operand b (armWriteSpsr p v) ins = .ok x ∧
    e.run b (armWriteSpsr p v) ins = .ok (0, p') ∧
    armReadCpsr p' = v &&& ~~~CPSR_Reserved_Mask ∧
    p'.reg.get 15 = aluResult (Spec.opcode ins) (p.read (rn ins)) x.1 p.flags.c

section Restore

variable {b : Build} {p : ArmCore} {ins v : BitVec 32}

/-- The SPSR that `updateCpsr` restores reads as all ones. -/
theorem armReadCpsr_restored (hno : ¬ Discards (Spec.opcode ins)) (hs : bitS ins = true)
    (hd : rd ins = 15) (x : BitVec 32 × BitVec 8) :
    armReadCpsr (executed p ins x) = ~~~CPSR_Reserved_Mask := by
  have h15 : rdField ins = 15 := BitVec.eq_of_toNat_eq ((toNat_rdField ins).trans hd)
  rw [executed, armReadCpsr_operated hno (rdField_lt ins), sField, if_pos hs, h15]
  exact armReadCpsr_write.trans (BitVec.allOnes_and)

/-- **Return from an exception**: only an all-ones status is restored. -/
theorem restoresStatus_iff (e : Encoding) (hno : ¬ Discards (Spec.opcode ins))
    (hs : bitS ins = true) (hd : rd ins = 15) :
    RestoresStatus e b p ins v ↔
      e.OperandDefined b p ins ∧ v &&& ~~~CPSR_Reserved_Mask = ~~~CPSR_Reserved_Mask := by
  have hwrite : armWriteSpsr p v = p := rfl
  rw [RestoresStatus, hwrite, ← Encoding.operand_returns]
  constructor
  · rintro ⟨x, p', hx, hrun, hcpsr, -⟩
    rw [e.run_of_operand hx] at hrun
    cases hrun
    exact ⟨⟨x, hx⟩, hcpsr.symm.trans (armReadCpsr_restored hno hs hd x)⟩
  · rintro ⟨⟨x, hx⟩, hv⟩
    refine ⟨x, _, hx, e.run_of_operand hx, ?_, ?_⟩
    · rw [armReadCpsr_restored hno hs hd, hv]
    · rw [← hd]
      exact executed_get_rd hno

/-- `movs pc, r0` with an all-ones status -/
theorem restoresStatus_iff_movs :
    RestoresStatus .shift (.trapping false) ⟨0, .ofFn fun _ => 0, .ofBytes [], []⟩ 0xE1B0F000
      0xFFFFFFFF :=
  (restoresStatus_iff .shift (by decide) rfl rfl).mpr ⟨fun h => absurd h (by decide), by decide⟩

/-- `movs pc, r0` with the status of the user mode, in the supervisor mode -/
theorem not_restoresStatus_movs :
    ¬ RestoresStatus .shift (.trapping false)
      ⟨0, .ofFn fun i => if i = 16 then 0x13 else 0, .ofBytes [], []⟩ 0xE1B0F000 0x10 := by
  rintro ⟨x, p', -, hrun, hcpsr, -⟩
  cases hrun
  exact absurd hcpsr (by decide)

end Restore

end Armator.Sim
