import Armator.Lib.Path
import Armator.Proof.Outcome
import Armator.Proof.Reply

/-!
# The mode of the processor

`Call` is what may be done to a processor after `arm_create`: a step on any memory, an
exception, a register write of the debugger. The queries of `registers.c` answer for the
supervisor mode whatever the CPSR holds, so they follow the CPSR along a run as long as no
call puts another mode there (`KeepsSvc`).
-/

namespace Armator.Sim

open Lib Spec

/-! ## Calls -/

inductive Call where
  /-- `arm_step`, on a memory that may have been changed since the call before. -/
  | step (mem : Memory)
  | exception (code : BitVec 8)
  /-- A request `P` in the session `g`. -/
  | writeSingle (g : Gdb) (data : Pointer)
  /-- A request `G` in the session `g`. -/
  | writeGeneral (g : Gdb) (data : Pointer)

/-- The result of the call and the processor after it. -/
def Call.run (h : Host) (p : ArmCore) : Call → Except Halt (Int × ArmCore)
  | step mem => lift (armStep h.build { p with mem := mem })
  | exception code => lift (armException h.build p code)
  | writeSingle g data => do
    let g ← writeSingleRegister h 0 { g with arm := p } data
    .ok (0, g.arm)
  | writeGeneral g data => do
    let g ← writeGeneralRegisters h 0 { g with arm := p } data
    .ok (0, g.arm)

/-- The processor was just created. -/
def Created (h : Host) (p : ArmCore) : Prop :=
  ∃ mem, armCreate h.build registersCreate mem = .ok p

/-- The call returns and leaves `p'`. -/
def Performs (h : Host) (p : ArmCore) (c : Call) (p' : ArmCore) : Prop :=
  ∃ r, c.run h p = .ok (r, p')

/-- The processor can be reached by the calls `t`. -/
abbrev Reaches (h : Host) : List (ArmCore × Call) → ArmCore → Prop := Path (Created h) (Performs h)

/-! ## The mode in the CPSR -/

/-- The low five bits of the CPSR. -/
def ArmCore.mode (p : ArmCore) : BitVec 8 := (armReadCpsr p).setWidth 8 &&& 0x1F

/-- The three queries answer for the mode in the CPSR. -/
def ModesFollow (p : ArmCore) : Prop :=
  registersGetMode p.reg = p.mode ∧
    (registersInAPrivilegedMode p.reg ≠ 0 ↔ p.mode ≠ USR) ∧
    (registersCurrentModeHasSpsr p.reg ≠ 0 ↔ p.mode ≠ USR ∧ p.mode ≠ SYS)

section Mode

variable {p p' : ArmCore} {w : BitVec 32}

theorem modesFollow_iff : ModesFollow p ↔ p.mode = SVC := by
  refine ⟨fun h => h.1.symm, fun h => ?_⟩
  have hpriv : registersInAPrivilegedMode p.reg ≠ 0 := by
    unfold registersInAPrivilegedMode
    split
    · decide
    · decide
  have hspsr : registersCurrentModeHasSpsr p.reg ≠ 0 := by
    unfold registersCurrentModeHasSpsr registersModeHasSpsr registersGetMode
    decide
  unfold ModesFollow
  rw [h]
  exact ⟨rfl, iff_of_true hpriv (by decide), iff_of_true hspsr (by decide)⟩

theorem mode_congr (h : p'.reg.get 16 = p.reg.get 16) : p'.mode = p.mode := by
  unfold ArmCore.mode armReadCpsr registersReadCpsr
  rw [h]

theorem mode_armWriteCpsr (p : ArmCore) (w : BitVec 32) :
    (armWriteCpsr p w).mode = w.setWidth 8 &&& 0x1F := by
  unfold ArmCore.mode
  rw [armReadCpsr_write]
  apply BitVec.eq_of_getLsbD_eq
  intro i hi
  rw [BitVec.getLsbD_and, BitVec.getLsbD_and, BitVec.getLsbD_setWidth, BitVec.getLsbD_setWidth,
    BitVec.getLsbD_and]
  interval_cases i <;> simp [CPSR_Reserved_Mask]

theorem low_or_shift (x y : BitVec 32) {k : Nat} (hk : 8 ≤ k) :
    (x ||| (y <<< k)).setWidth 8 = x.setWidth 8 := by
  apply BitVec.eq_of_getLsbD_eq
  intro i hi
  rw [BitVec.getLsbD_setWidth, BitVec.getLsbD_setWidth, BitVec.getLsbD_or,
    BitVec.getLsbD_shiftLeft, decide_eq_true (show i < k by omega)]
  simp

theorem low_and_mask (x : BitVec 32) :
    (x &&& (0x0FFFFFFF : BitVec 32)).setWidth 8 = x.setWidth 8 := by
  apply BitVec.eq_of_getLsbD_eq
  intro i hi
  rw [BitVec.getLsbD_setWidth, BitVec.getLsbD_setWidth, BitVec.getLsbD_and]
  interval_cases i <;> simp

/-- A flag update leaves the mode, and the return from an exception writes all ones. -/
theorem mode_updateCpsr (p : ArmCore) (dest : BitVec 32) (s rd c v : BitVec 8) :
    (updateCpsr p dest s rd c v).mode = if s = 1 ∧ rd = 15 then SYS else p.mode := by
  have hspsr : armCurrentModeHasSpsr p ≠ 0 := by
    unfold armCurrentModeHasSpsr registersCurrentModeHasSpsr registersModeHasSpsr registersGetMode
    decide
  unfold updateCpsr
  dsimp only
  by_cases hret : s = 1 ∧ rd = 15
  · rw [if_pos hret, if_pos hret, if_pos hspsr, mode_armWriteCpsr]
    unfold armReadSpsr registersReadSpsr
    decide
  · rw [if_neg hret, if_neg hret]
    by_cases hs : s = 1
    · rw [if_pos hs, mode_armWriteCpsr]
      unfold ArmCore.mode
      congr 1
      split
      · rw [low_or_shift _ _ (by decide), low_or_shift _ _ (by decide),
          low_or_shift _ _ (by decide), low_and_mask]
      · rw [low_or_shift _ _ (by decide), low_or_shift _ _ (by decide),
          low_or_shift _ _ (by decide), low_or_shift _ _ (by decide), low_and_mask]
    · rw [if_neg hs]

end Mode

/-! ## What the calls do to the mode -/

/-- An operation with the S bit that writes R15: it loads the CPSR from the SPSR. -/
def LoadsStatus (ins : BitVec 32) : Prop :=
  IsData ins ∧ ins.getLsbD 20 = true ∧ rd ins = 15 ∧ ¬ (8 ≤ opcode ins ∧ opcode ins ≤ 11)

section Step

variable {b : Build} {p p' : ArmCore} {ins : BitVec 32} {r : Int}

theorem toNat_opcode (ins : BitVec 32) :
    (((ins >>> 21) &&& 0x0F).setWidth 8 : BitVec 8).toNat = opcode ins := toNat_nibble ins 21

theorem masked_s_eq_one : (((ins >>> 20) &&& 0x01).setWidth 8 : BitVec 8) = 1 ↔
    ins.getLsbD 20 = true := by
  rw [bit_eq]
  cases ins.getLsbD 20 <;> decide

theorem masked_rd_eq : (((ins >>> 12) &&& 0x0F).setWidth 8 : BitVec 8) = 15 ↔ rd ins = 15 := by
  rw [← BitVec.toNat_inj, toNat_rd]
  rfl

open Classical in
theorem mode_dispatch (b : Build) (p : ArmCore) (ins : BitVec 32) :
    Returns (dispatch b p ins) fun y => y.2.mode = if LoadsStatus ins then SYS else p.mode := by
  by_cases hdata : IsData ins
  · refine (dispatch_operation hdata).mono ?_
    rintro ⟨r, p'⟩ ⟨-, dest, c, v, ⟨hcmp, rfl⟩ | ⟨hcmp, value, rfl⟩⟩
    · -- a comparison updates the flags as if it wrote R0
      unfold Compares at hcmp
      rw [toNat_opcode] at hcmp
      rw [mode_updateCpsr, if_neg (by decide), if_neg fun hl => hl.2.2.2 hcmp]
    · unfold Compares at hcmp
      rw [toNat_opcode] at hcmp
      have hlt := lt_of_nibble ins 12
      rw [mode_congr (p := updateCpsr p dest _ _ c v)]
      · rw [mode_updateCpsr]
        refine if_congr ?_ rfl rfl
        rw [masked_s_eq_one, masked_rd_eq]
        exact ⟨fun h => ⟨hdata, h.1, h.2, hcmp⟩, fun h => ⟨h.2.1, h.2.2.1⟩⟩
      · dsimp only
        rw [Registers.get_set (by unfold NB_REGISTER; omega), if_neg (by omega)]
  · refine (dispatch_keeps b p ins).mono fun y hy => ?_
    rw [if_neg fun hl => hdata hl.1]
    refine mode_congr (hy.2.reg 16 ?_)
    rintro (⟨hd, -⟩ | ⟨-, h16⟩ | h16)
    · exact hdata hd
    · omega
    · omega

theorem mode_fetched (p : ArmCore) : p.fetched.mode = p.mode := mode_congr (fetched_get (by decide))

theorem mode_armStep (hp : p.mode = SVC) (h : armStep b p = .ok (r, p')) :
    p'.mode = SVC ↔ ∀ ins, Fetches b p ins → armCheckCond p ins ≠ 0 → ¬ LoadsStatus ins := by
  have hdispatch {ins : BitVec 32} {code : Int} {q : ArmCore}
      (hd : dispatch b p.fetched ins = .ok (code, q)) : q.mode = SVC ↔ ¬ LoadsStatus ins := by
    rw [mode_dispatch b p.fetched ins _ hd, mode_fetched, hp]
    by_cases hl : LoadsStatus ins
    · rw [if_pos hl]
      exact iff_of_false (by decide) (not_not.mpr hl)
    · rw [if_neg hl]
      exact iff_of_true rfl hl
  refine ⟨fun hmode ins hf hc => ?_, fun hno => ?_⟩
  · obtain ⟨code, hd⟩ := dispatched_of_armStep hf hc h
    exact (hdispatch hd).mp hmode
  · rcases armStep_inv h with rfl | ⟨ins, code, hf, hc, hd⟩
    · rw [mode_fetched, hp]
    · exact (hdispatch hd).mpr (hno ins hf hc)

theorem mode_reset : (0x1d3 ||| Exception_bit_9).setWidth 8 &&& 0x1F = SVC := by
  decide

theorem mode_armException {code : BitVec 8} (hp : p.mode = SVC) :
    Returns (armException b p code) fun y => y.2.mode = SVC := by
  have hreset : Returns (if (code.toNat : Int) = RESET then
      armWriteRegister (armWriteCpsr p (0x1d3 ||| Exception_bit_9)) 15 0 >>= fun p =>
        .ok ((code.toNat : Int), p)
      else .ok ((code.toNat : Int), p)) fun y => y.2.mode = SVC := by
    refine returns_ite (fun _ => ?_) fun _ => returns_ok hp
    rw [armWriteRegister_of_lt (by decide), ok_bind]
    refine returns_ok ?_
    rw [mode_congr (p := armWriteCpsr p (0x1d3 ||| Exception_bit_9)), mode_armWriteCpsr,
      mode_reset]
    exact (Registers.get_set (by decide)).trans (if_neg (by decide))
  unfold armException
  refine returns_ite (fun _ => ?_) fun _ => hreset
  refine returns_bind fun address => returns_bind fun x => ?_
  refine returns_ite (fun _ => returns_ok hp) fun _ => ?_
  refine returns_ite (fun _ => ?_) fun _ => hreset
  exact returns_bind fun value => returns_ok hp

theorem armException_reset (b : Build) (p : ArmCore) : armException b p (BitVec.ofInt 8 RESET) =
    .ok (RESET, { armWriteCpsr p (0x1d3 ||| Exception_bit_9) with
      reg := (armWriteCpsr p (0x1d3 ||| Exception_bit_9)).reg.set 15 0 }) := by
  have hcode : ((BitVec.ofInt 8 RESET).toNat : Int) = RESET := by decide
  unfold armException
  rw [hcode, if_neg (by decide), if_pos rfl, armWriteRegister_of_lt (by decide), ok_bind]
  rfl

theorem armCreate_eq (b : Build) (reg : Registers) (mem : Memory) : armCreate b reg mem =
    .ok ⟨0, ((registersWriteCpsr reg (0x1d3 ||| Exception_bit_9)).set 15 0).set 13
      (BitVec.ofNat 32 (memoryGetSize mem)), mem, []⟩ := by
  unfold armCreate
  dsimp only
  rw [armException_reset, ok_bind]
  dsimp only
  rw [armWriteRegister_of_lt (by decide)]
  rfl

theorem created_status {mem : Memory} {reg : Registers} (h : armCreate b reg mem = .ok p) :
    p.reg.get 16 = (0x1d3 ||| Exception_bit_9) &&& ~~~CPSR_Reserved_Mask := by
  rw [armCreate_eq] at h
  cases h
  refine (Registers.get_set (by decide)).trans ((if_neg (by decide)).trans ?_)
  refine (Registers.get_set (by decide)).trans ((if_neg (by decide)).trans ?_)
  exact (Registers.get_set (by decide)).trans (if_pos rfl)

theorem mode_armCreate {mem : Memory} {reg : Registers} (h : armCreate b reg mem = .ok p) :
    p.mode = SVC := by
  unfold ArmCore.mode armReadCpsr registersReadCpsr
  rw [created_status h]
  decide

end Step

/-! ## What the debugger writes -/

section Write

variable {h : Host} {g g' : Gdb} {data : Pointer} {steps : Nat}

theorem writeRegister_effect (h : Host) (g : Gdb) (reg : BitVec 32) (data : Pointer) :
    Returns (writeRegister h g reg data) fun g' => reg.toNat < 16 ∧
      ∃ v, g'.arm = { g.arm with reg := g.arm.reg.set reg.toNat v } := by
  unfold writeRegister
  refine returns_bind fun v => returns_ite (fun hreg => ?_) fun _ => returns_error
  have hbyte : (reg.setWidth 8).toNat = reg.toNat := by
    rw [BitVec.toNat_setWidth]
    omega
  rw [registersWrite_of_lt (by rw [hbyte]; exact hreg), hbyte]
  exact returns_ok ⟨hreg, v, rfl⟩

theorem writeSingleRegister_effect (h : Host) (g : Gdb) (data : Pointer) :
    Returns (writeSingleRegister h steps g data) fun g' =>
      ∃ n < 16, ∃ v, g'.arm = { g.arm with reg := g.arm.reg.set n v } := by
  unfold writeSingleRegister
  refine returns_bind fun s => returns_bind fun found => ?_
  refine (writeRegister_effect h g _ _).bind fun g₁ ⟨hn, v, hv⟩ => ?_
  refine (returns_lift (gdbSendData_keeps g₁ _)).mono fun g₂ h₂ => ?_
  exact ⟨_, hn, v, (congrArg (·.1) h₂).trans hv⟩

/-- Writing the words leaves the cells past R15: an induction on the words. -/
theorem writeWords_effect (h : Host) (is : List Nat) (x : Gdb × Pointer) :
    Returns (is.foldlM (fun x i => do
      let gdb ← writeRegister h x.1 (BitVec.ofNat 32 i) x.2
      .ok (gdb, x.2.add 8)) x : Except Halt (Gdb × Pointer)) fun (y : Gdb × Pointer) =>
      y.2 = x.2.add (8 * is.length) ∧
        ∃ r, (∀ j, 16 ≤ j → r.get j = x.1.arm.reg.get j) ∧ y.1.arm = { x.1.arm with reg := r } := by
  induction is generalizing x with
  | nil => exact returns_ok ⟨rfl, x.1.arm.reg, fun _ _ => rfl, rfl⟩
  | cons i is ih =>
    rw [List.foldlM_cons]
    refine ((writeRegister_effect h x.1 _ _).bind fun g₁ h₁ =>
      returns_ok (Q := fun (y : Gdb × Pointer) =>
        y.2 = x.2.add 8 ∧ ∃ r, (∀ j, 16 ≤ j → r.get j = x.1.arm.reg.get j) ∧
          y.1.arm = { x.1.arm with reg := r }) ?_).bind fun y hy => ?_
    · obtain ⟨hn, v, hv⟩ := h₁
      refine ⟨rfl, _, fun j hj => ?_, hv⟩
      rw [Registers.get_set (by unfold NB_REGISTER; omega), if_neg (by omega)]
    · obtain ⟨hpos, r, hr, harm⟩ := hy
      refine (ih y).mono fun z ⟨hpos', r', hr', harm'⟩ => ⟨?_, r', fun j hj => ?_, ?_⟩
      · rw [hpos', hpos, List.length_cons, Nat.mul_succ, Nat.add_comm]
        unfold Pointer.add
        dsimp only
        rw [Nat.add_assoc]
      · rw [hr' j hj, harm]
        exact hr j hj
      · rw [harm', harm]

/-- A request `G` writes the CPSR through `registers_write_cpsr`. -/
theorem writeGeneralRegisters_effect (h : Host) (g : Gdb) (data : Pointer) :
    Returns (writeGeneralRegisters h steps g data) fun g' => ∃ r w,
      (∀ j, 16 ≤ j → r.get j = g.arm.reg.get j) ∧ readUint32 h (data.add 328) = .ok w ∧
        g'.arm = { g.arm with reg := registersWriteCpsr r w } := by
  unfold writeGeneralRegisters
  dsimp only
  refine (writeWords_effect h (List.range 16) (g, data)).bind fun x ⟨hpos, r, hr, harm⟩ => ?_
  dsimp only at hpos harm hr ⊢
  rw [hpos, skip_eq, List.length_range]
  refine Returns.bind (P := fun w => readUint32 h (data.add 328) = .ok w) ?_ fun w hw => ?_
  · exact returns_lift fun w hw => hw
  · refine (returns_lift (gdbSendData_keeps _ _)).mono fun g₂ h₂ => ⟨r, w, hr, hw, ?_⟩
    have harm₂ : g₂.arm = { x.1.arm with reg := registersWriteCpsr x.1.arm.reg w } :=
      congrArg (·.1) h₂
    rw [harm₂, harm]

end Write

/-! ## The supervisor mode along a run -/

/-- The call leaves the supervisor mode in the CPSR. -/
def KeepsSvc (h : Host) (p : ArmCore) : Call → Prop
  | .step mem => ∀ ins, Fetches h.build { p with mem := mem } ins →
      armCheckCond { p with mem := mem } ins ≠ 0 → ¬ LoadsStatus ins
  | .exception _ => True
  | .writeSingle _ _ => True
  | .writeGeneral _ data => ∀ w, readUint32 h (data.add 328) = .ok w → w.setWidth 8 &&& 0x1F = SVC

section Run

variable {h : Host} {p p' : ArmCore} {t : List (ArmCore × Call)}

theorem performs_writeSingle {g : Gdb} {data : Pointer}
    (hc : Performs h p (.writeSingle g data) p') :
    ∃ n < 16, ∃ v, p' = { p with reg := p.reg.set n v } := by
  obtain ⟨r, hrun⟩ := hc
  obtain ⟨g', hg, hret⟩ := exists_of_bind hrun
  obtain ⟨n, hn, v, harm⟩ := writeSingleRegister_effect h _ data g' hg
  cases hret
  exact ⟨n, hn, v, harm⟩

theorem performs_writeGeneral {g : Gdb} {data : Pointer}
    (hc : Performs h p (.writeGeneral g data) p') : ∃ r w,
      (∀ j, 16 ≤ j → r.get j = p.reg.get j) ∧ readUint32 h (data.add 328) = .ok w ∧
        p' = { p with reg := registersWriteCpsr r w } := by
  obtain ⟨r, hrun⟩ := hc
  obtain ⟨g', hg, hret⟩ := exists_of_bind hrun
  obtain ⟨reg, w, hreg, hw, harm⟩ := writeGeneralRegisters_effect h _ data g' hg
  cases hret
  exact ⟨reg, w, hreg, hw, harm⟩

theorem mode_call {c : Call} (hp : p.mode = SVC) (hc : Performs h p c p') :
    p'.mode = SVC ↔ KeepsSvc h p c := by
  cases c with
  | step mem =>
    obtain ⟨r, hrun⟩ := hc
    exact mode_armStep ((mode_congr rfl).trans hp) (lift_eq_ok hrun)
  | exception code =>
    obtain ⟨r, hrun⟩ := hc
    have hret : armException h.build p code = .ok (r, p') := lift_eq_ok hrun
    exact iff_of_true (mode_armException hp (r, p') hret) trivial
  | writeSingle g data =>
    obtain ⟨n, hn, v, rfl⟩ := performs_writeSingle hc
    refine iff_of_true ((mode_congr ?_).trans hp) trivial
    exact (Registers.get_set (by unfold NB_REGISTER; omega)).trans (if_neg (by omega))
  | writeGeneral g data =>
    obtain ⟨reg, w, -, hw, rfl⟩ := performs_writeGeneral hc
    have hmode := mode_armWriteCpsr { p with reg := reg } w
    unfold armWriteCpsr at hmode
    rw [hmode]
    refine ⟨fun hsvc w' hw' => ?_, fun hk => hk w hw⟩
    rw [hw] at hw'
    cases hw'
    exact hsvc

/-- The queries follow the CPSR along a run exactly if every call leaves the supervisor mode. -/
theorem modes_follow (hr : Reaches h t p) :
    Path.Always ModesFollow t p ↔ ∀ x ∈ t, KeepsSvc h x.1 x.2 := by
  refine hr.always_iff (fun p hp => ?_) fun p c p' hp hc => ?_
  · obtain ⟨mem, hmem⟩ := hp
    exact modesFollow_iff.mpr (mode_armCreate hmem)
  · exact modesFollow_iff.trans (mode_call (modesFollow_iff.mp hp) hc)

end Run

section Example

/-- A memory holding `movs pc, #0`, for a little-endian build. -/
def movsPc : Memory := .ofBytes [0x00, 0xF1, 0xB0, 0xE3]

/-- The processor created on it. -/
def movsCore : ArmCore :=
  ⟨0, .ofFn fun i => if i = 13 then 4 else if i = 16 then 0x1d3 else 0, movsPc, []⟩

theorem created_movs : Created .zeros movsCore := ⟨movsPc, rfl⟩

/-- The processor after the step. -/
def movsDone : ArmCore :=
  ⟨1, .ofFn fun i => if i = 13 then 4 else if i = 16 then 0xFF0F03FF else 0, movsPc, []⟩

theorem reaches_movs : Reaches .zeros [(movsCore, Call.step movsPc)] movsDone :=
  .next (.start created_movs) ⟨0, rfl⟩

theorem modes_follow_movs : Path.Always ModesFollow [(movsCore, Call.step movsPc)] movsDone ↔
    ∀ x ∈ [(movsCore, Call.step movsPc)], KeepsSvc .zeros x.1 x.2 :=
  modes_follow reaches_movs

/-- The CPSR holds the system mode, which has no SPSR. -/
theorem not_modesFollow_movs :
    Reaches .zeros [(movsCore, Call.step movsPc)] movsDone ∧ ¬ ModesFollow movsDone := by
  refine ⟨reaches_movs, fun hfollow => ?_⟩
  have hmode := hfollow.1
  revert hmode
  decide

end Example

end Armator.Sim
