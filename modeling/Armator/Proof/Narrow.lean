import Armator.Proof.Shifter
import Armator.Proof.Transfer

/-!
# Byte and half transfers

`strb_strh` and `ldrb_ldrh` choose by bit 26, which is set in every instruction that
reaches them: a byte store stores a half, a byte load is a byte load, both with the
registers of the word transfers. The half transfers are decoded as data processing
instructions: a half store runs `BIC`, a half load `BICS`, with R0 shifted right by
its own low byte as the second operand.
-/

namespace Armator.Sim

open Lib Spec

/-- The byte and half transfers. -/
inductive Narrow where
  | strb
  | ldrb
  | strh
  | ldrh
  deriving DecidableEq, Repr

namespace Narrow

/-- The encoding of a transfer with offset 0, upwards, pre-indexed, without write-back. -/
def Encodes (ins : BitVec 32) (x : Narrow) : Prop :=
  bitP ins = true ∧ bitU ins = true ∧ bitB ins = true ∧ bitW ins = false ∧
    match x with
    | strb => bitL ins = false ∧ kind ins = 2 ∧ imm12 ins = 0
    | ldrb => bitL ins = true ∧ kind ins = 2 ∧ imm12 ins = 0
    | strh => bitL ins = false ∧ kind ins = 0 ∧ ins.extractLsb' 4 4 = 0xB ∧
        ins.extractLsb' 8 4 = 0 ∧ ins.extractLsb' 0 4 = 0
    | ldrh => bitL ins = true ∧ kind ins = 0 ∧ ins.extractLsb' 4 4 = 0xB ∧
        ins.extractLsb' 8 4 = 0 ∧ ins.extractLsb' 0 4 = 0

/-- The bytes the transfer has to store. -/
def required (b : Build) (p : ArmCore) (ins : BitVec 32) : Narrow → List (Nat × BitVec 8)
  | strb => [((p.reg.get (rn ins)).toNat, (p.reg.get (rd ins)).setWidth 8)]
  | strh => (span (p.reg.get (rn ins)) 2).zip
      (split 2 b.bigEndianSimulator ((p.reg.get (rd ins)).setWidth 16).toNat)
  | ldrb | ldrh => []

/-- What `Rd` has to hold after the transfer. -/
def loaded (b : Build) (p : ArmCore) (ins : BitVec 32) : Narrow → BitVec 32
  | strb | strh => p.reg.get (rd ins)
  | ldrb => (p.mem.get (p.reg.get (rn ins)).toNat).setWidth 32
  | ldrh => (assemble 16 b.bigEndianSimulator (p.mem.bytes (p.reg.get (rn ins)) 2)).setWidth 32

/-- The step moves the byte or half as the encoding asks, and nothing else. -/
def Moves (b : Build) (p : ArmCore) (ins : BitVec 32) (x : Narrow) : Prop :=
  ∃ r p', armStep b p = .ok (r, p') ∧ p'.mem.taille = p.mem.taille ∧
    (∀ j, p'.mem.get j = overlay p.mem.get (x.required b p ins) j) ∧
    p'.reg.get (rd ins) = x.loaded b p ins ∧ armReadCpsr p' = armReadCpsr p ∧
    ∀ i, i ≠ 15 → i ≠ 16 → i ≠ rd ins → p'.reg.get i = p.reg.get i

end Narrow

/-! ## The half store of `strb` -/

/-- The bytes a guarded write of `bs` at `a` stores. -/
def attempted (mem : Memory) (a : BitVec 32) (bs : List (BitVec 8)) : List (Nat × BitVec 8) :=
  if mem.Rejects a bs.length then [] else (span a bs.length).zip bs

section Store

variable {b : Build} {p : ArmCore} {ins : BitVec 32}

theorem guardedWrite_of_safe {mem : Memory} {a : BitVec 32} {bs : List (BitVec 8)}
    (hl : 0 < bs.length) (h : mem.Safe a bs.length) :
    ∃ r mem', guardedWrite mem a bs = .ok (r, mem') ∧ mem'.taille = mem.taille ∧
      mem'.get = overlay mem.get (attempted mem a bs) := by
  unfold attempted
  by_cases hr : mem.Rejects a bs.length
  · exact ⟨-1, mem, guardedWrite_of_rejects hr, rfl, by rw [if_pos hr]; rfl⟩
  · have hh := h.resolve_left hr
    exact ⟨0, _, guardedWrite_of_holds hl hh, Memory.taille_write bs,
      by rw [if_neg hr, Memory.get_write hh]⟩

theorem nodup_attempted {mem : Memory} {a : BitVec 32} {bs : List (BitVec 8)}
    (hl : bs.length ≤ 2 ^ 32) : (keys (attempted mem a bs)).Nodup := by
  unfold attempted
  split
  · exact List.nodup_nil
  · rw [keys, List.map_fst_zip (by simp [span])]
    exact nodup_span hl

/-- The bytes of the half a byte store stores. -/
def strhBytes (b : Build) (p : ArmCore) (ins : BitVec 32) : List (BitVec 8) :=
  split 2 b.bigEndianSimulator ((p.reg.get (baseReg ins)).setWidth 16).toNat

theorem strh_eq (hk : kind ins ≠ 0) :
    strh b p ins = (guardedWrite p.mem (p.reg.get (dataReg ins)) (strhBytes b p ins) >>= fun x =>
      .ok (if x.1 ≠ 0 then -1 else 0, { p with mem := x.2 })) := by
  rw [strh, if_neg (ne_zero_of_kind hk)]
  simp only [armReadRegister_masked, ok_bind, armWriteHalf, memoryWriteHalf_eq, endianess_ne_zero]
  change (guardedWrite p.mem (p.reg.get (dataReg ins)) (strhBytes b p ins) >>= _) >>= _ = _
  cases guardedWrite p.mem (p.reg.get (dataReg ins)) (strhBytes b p ins) with
  | error f => rfl
  | ok x =>
    simp only [ok_bind]
    split <;> rfl

end Store

/-! ## The byte load -/

section Load

variable {b : Build} {p : ArmCore} {ins : BitVec 32}

theorem ldrb_eq (hk : kind ins ≠ 0) :
    ldrb b p ins =
      (memoryReadByte p.mem (p.reg.get (baseReg ins)) ((b.junk .ldrbValue).setWidth 8) >>=
        fun x => .ok (if x.1 ≠ 0 then (-1, p)
          else (0, { p with reg := p.reg.set (dataReg ins) (x.2.setWidth 32) }))) := by
  rw [ldrb, if_neg (ne_zero_of_kind hk)]
  simp only [armReadRegister_masked, ok_bind, armReadByte, armWriteRegister_masked]
  change (memoryReadByte p.mem (p.reg.get (baseReg ins)) _ >>= _) = _
  cases memoryReadByte p.mem (p.reg.get (baseReg ins)) ((b.junk .ldrbValue).setWidth 8) with
  | error f => rfl
  | ok x =>
    simp only [ok_bind]
    split <;> rfl

end Load

/-! ## The bit clears of the half transfers -/

section Clear

variable {b : Build} {p : ArmCore} {ins : BitVec 32}

/-- The carry out of a logical shift right by `amount`. -/
def lsrCarry (value : BitVec 32) (amount : Nat) (carry : Bool) : Bool :=
  if amount = 0 then carry else value.getLsbD (amount - 1)

/-- The amount by which the half transfers shift R0: its low byte. -/
def amount (p : ArmCore) : Nat := ((p.reg.get 0).setWidth 8 : BitVec 8).toNat

theorem shiftedBy_lsr_snd (n : Nat) (c : Bool) (v : BitVec 32) :
    (shiftedBy 1 n c v).2 = lsrCarry v n c := by
  rw [lsrCarry]
  by_cases h0 : n = 0
  · rw [if_pos h0, h0, shiftedBy_zero]
  · rw [if_neg h0, shiftedBy_lsr h0]
    by_cases hlt : n < 32
    · rw [if_pos hlt]
    · rw [if_neg hlt]
      by_cases he : n = 32
      · rw [if_pos he, he]
      · rw [if_neg he, BitVec.getLsbD_of_ge _ _ (by omega)]

theorem shift_of_half (h4 : ins.extractLsb' 4 4 = 0xB) (hs : ins.extractLsb' 8 4 = 0)
    (hm : ins.extractLsb' 0 4 = 0) :
    shift b p ins = (shr b (p.reg.get 0) (amount p) >>= fun op2 =>
      .ok (op2, flagBit (lsrCarry (p.reg.get 0) (amount p) p.flags.c))) := by
  have hbit {i : Nat} (hi : i < 4) : ins.getLsbD (4 + i) = (0xB : BitVec 4).getLsbD i := by
    rw [← h4, BitVec.getLsbD_extractLsb', decide_eq_true hi, Bool.true_and]
  have htype : shiftType ins = 1 := by
    apply BitVec.eq_of_getLsbD_eq
    intro i hi
    rw [shiftType, BitVec.getLsbD_extractLsb', decide_eq_true hi, Bool.true_and,
      show 5 + i = 4 + (i + 1) by omega, hbit (by omega)]
    interval_cases i <;> rfl
  have hrm : p.read (rm ins) = p.reg.get 0 := by
    rw [rm, hm]
    exact ArmCore.read_of_ne (by decide)
  have hreg : (shiftReg p ins).toNat = amount p := by
    rw [shiftReg, shiftRs, hs]
    exact congrArg (fun v => (BitVec.setWidth 8 v).toNat) (ArmCore.read_of_ne (by decide))
  rw [shift_carried (hbit (i := 0) (by decide)) (.inr (.inl htype)), htype, hrm, hreg,
    shiftedBy_lsr_snd, ← hreg]
  rfl

/-- What the half transfers leave in `Rd`, when the shift yields `op2`. -/
def cleared (p : ArmCore) (ins op2 : BitVec 32) : BitVec 32 := p.reg.get (rn ins) &&& ~~~op2

/-- The state after `BIC`, or `BICS` for a load. -/
def clearedState (p : ArmCore) (ins op2 : BitVec 32) : ArmCore :=
  let q := if bitL ins then updateCpsr p.fetched (cleared p ins op2) 1
      ((ins.extractLsb' 12 4).setWidth 8) (flagBit (lsrCarry (p.reg.get 0) (amount p) p.flags.c))
      (-1)
    else p.fetched
  { q with reg := q.reg.set (rd ins) (cleared p ins op2) }

theorem updateCpsr_zero (p : ArmCore) (dest : BitVec 32) (rd c v : BitVec 8) :
    updateCpsr p dest 0 rd c v = p := by
  simp [updateCpsr]

theorem armWriteRegister_setWidth (p : ArmCore) (r : BitVec 4) (v : BitVec 32) :
    armWriteRegister p (r.setWidth 8) v = .ok { p with reg := p.reg.set r.toNat v } := by
  have hr := r.isLt
  rw [armWriteRegister_of_lt (by rw [toNat_field]; exact hr), toNat_field]

theorem dataProcessing_bic {p : ArmCore} {s rn rd : BitVec 8} {op2 : BitVec 32} {c : BitVec 8} :
    dataProcessing p 0xE s rn rd op2 c =
      (DataProcessing.bic p s rn rd op2 c >>= DataProcessing.writeBack rd) := rfl

/-- A half transfer clears in `Rn` the bits of R0 shifted right by its own low byte. -/
theorem halfTransfer_eq (hP : bitP ins = true) (hU : bitU ins = true) (hB : bitB ins = true)
    (hW : bitW ins = false) (h4 : ins.extractLsb' 4 4 = 0xB) (hs : ins.extractLsb' 8 4 = 0)
    (hm : ins.extractLsb' 0 4 = 0) (hn : rn ins ≠ 15) :
    armDataProcessingShift b p.fetched ins =
      (shr b (p.reg.get 0) (amount p) >>= fun op2 => .ok (0, clearedState p ins op2)) := by
  have hopcode : ins.extractLsb' 21 4 = 0xE := by
    apply BitVec.eq_of_getLsbD_eq
    intro i hi
    rw [BitVec.getLsbD_extractLsb', decide_eq_true hi, Bool.true_and]
    interval_cases i
    · exact hW
    · exact hB
    · exact hU
    · exact hP
  have hS : ((ins >>> 20) &&& 0x01).setWidth 8 = if bitL ins then (1 : BitVec 8) else 0 := by
    rw [show (0x01 : BitVec 32) = 1 from rfl, bit_eq, bitL]
    cases ins.getLsbD 20 <;> rfl
  have h0 : p.fetched.reg.get 0 = p.reg.get 0 := fetched_get (by omega)
  have hsrc : armReadRegister p.fetched ((ins.extractLsb' 16 4).setWidth 8) =
      .ok (p.reg.get (rn ins)) := by
    rw [armReadRegister_setWidth, ← rn, fetched_read hn]
  rw [armDataProcessingShift]
  simp only [nibble_eq, hopcode]
  rw [shift_of_half h4 hs hm, amount, h0, ← amount, flags_fetched]
  cases shr b (p.reg.get 0) (amount p) with
  | error f => rfl
  | ok op2 =>
    have hread (r : BitVec 4) : armReadRegister p.fetched (r.setWidth 8) =
        .ok (p.fetched.read r.toNat) := armReadRegister_setWidth _ r
    simp only [ok_bind, hS, show ((0xE : BitVec 4).setWidth 8) = (0xE : BitVec 8) from rfl]
    rw [dataProcessing_bic, DataProcessing.bic, hsrc, ok_bind, hread, ok_bind, ok_bind]
    simp only [DataProcessing.writeBack, armWriteRegister_setWidth, ok_bind, clearedState, cleared]
    cases bitL ins
    · simp only [Bool.false_eq_true, if_false, updateCpsr_zero]
      rfl
    · rfl

theorem clearedState_of_store (hL : bitL ins = false) (op2 : BitVec 32) :
    clearedState p ins op2 =
      { p.fetched with reg := p.fetched.reg.set (rd ins) (cleared p ins op2) } := by
  rw [clearedState, hL]; rfl

theorem clearedState_of_load (hL : bitL ins = true) (hd : rd ins ≠ 15) (op2 : BitVec 32) :
    (clearedState p ins op2).mem = p.mem ∧
      (∀ i, i ≠ 15 → i ≠ 16 → (clearedState p ins op2).reg.get i =
        if i = rd ins then cleared p ins op2 else p.reg.get i) ∧
      armReadCpsr (clearedState p ins op2) = packFlags (resultFlags (cleared p ins op2)
        (lsrCarry (p.reg.get 0) (amount p) p.flags.c) false) (armReadCpsr p) := by
  have hlt := rd_lt ins
  have hrd : (ins.extractLsb' 12 4).setWidth 8 ≠ (15 : BitVec 8) := fun h => by
    have h := congrArg BitVec.toNat h
    rw [BitVec.toNat_setWidth, ← rd, Nat.mod_eq_of_lt (by omega)] at h
    exact hd h
  simp only [clearedState, hL, if_true]
  refine ⟨updateCpsr_mem _ _ _ _ _ _, fun i h15 h16 => ?_, ?_⟩
  · rw [Registers.get_set (by unfold NB_REGISTER; omega), updateCpsr_get h16, fetched_get h15]
  · refine (registersReadCpsr_set hlt).trans ?_
    rw [← armReadCpsr, armReadCpsr_updateCpsr_unaffected hrd, armReadCpsr_fetched]

end Clear

/-! ## The four transfers -/

/-- The shift of R0 by its low byte has a value, with the given property. A shift by 32
or more has what the build makes of it. -/
def ShiftGives (b : Build) (p : ArmCore) (good : BitVec 32 → Prop) : Prop :=
  ∃ op2, shr b (p.reg.get 0) (amount p) = .ok op2 ∧ good op2

/-- When a step at a byte or half transfer does what the encoding asks for. -/
def Narrow.Exact (b : Build) (p : ArmCore) (ins : BitVec 32) : Narrow → Prop
  -- the half of the code's base register goes to the address in its data register
  | strb =>
    if Refused p ins then Agrees p.mem.get [] (strb.required b p ins)
    else p.mem.Safe (p.reg.get (dataReg ins)) 2 ∧
      Agrees p.mem.get (attempted p.mem (p.reg.get (dataReg ins)) (strhBytes b p ins))
        (strb.required b p ins)
  | ldrb =>
    if Loaded p ins 1 then
      p.mem.Holds (p.reg.get (baseReg ins)) 1 ∧
        LoadExact p ins ((p.mem.get (p.reg.get (baseReg ins)).toNat).setWidth 32)
          (ldrb.loaded b p ins) (p.reg.get (rn ins))
    else ldrb.loaded b p ins = p.reg.get (rd ins)
  -- the memory stays, and `Rd` must be what the bit clear makes of `Rn`
  | strh =>
    Agrees p.mem.get [] (strh.required b p ins) ∧
      (Refused p ins ∨ ShiftGives b p fun op2 => cleared p ins op2 = p.reg.get (rd ins))
  | ldrh =>
    if Refused p ins then ldrh.loaded b p ins = p.reg.get (rd ins)
    else ShiftGives b p fun op2 => cleared p ins op2 = ldrh.loaded b p ins ∧
      p.flags = resultFlags (cleared p ins op2) (lsrCarry (p.reg.get 0) (amount p) p.flags.c) false

section Moves

variable {b : Build} {p : ArmCore} {ins : BitVec 32} {x : Narrow}

theorem shiftGives_of_ok {good : BitVec 32 → Prop} {op2 : BitVec 32}
    (h : shr b (p.reg.get 0) (amount p) = .ok op2) : ShiftGives b p good ↔ good op2 := by
  rw [ShiftGives, h]
  refine ⟨?_, ?_⟩
  · rintro ⟨op2, he, hgood⟩
    cases he
    exact hgood
  · exact fun hgood => ⟨op2, rfl, hgood⟩

theorem not_shiftGives_of_error {good : BitVec 32 → Prop} {f : Fault}
    (h : shr b (p.reg.get 0) (amount p) = .error f) : ¬ ShiftGives b p good := by
  rintro ⟨op2, he, -⟩
  rw [h] at he
  cases he

theorem moves_of_stored {r : Int} {m : Memory} {w : List (Nat × BitVec 8)}
    (hd : rd ins ≠ 15) (hx : x.loaded b p ins = p.reg.get (rd ins))
    (hstep : armStep b p = .ok (r, { p.fetched with mem := m })) (ht : m.taille = p.mem.taille)
    (hm : m.get = overlay p.mem.get w) (hw : (keys w).Nodup) :
    x.Moves b p ins ↔ Agrees p.mem.get w (x.required b p ins) := by
  rw [← overlay_eq_iff hw, Narrow.Moves, exists_ok_iff hstep, hx, ← hm]
  refine ⟨?_, ?_⟩
  · rintro ⟨-, hmem, -⟩
    exact hmem
  · intro h
    exact ⟨ht, h, fetched_get hd, armReadCpsr_fetched p, fun i h15 _ _ => fetched_get h15⟩

theorem moves_of_fetched {r : Int} (hd : rd ins ≠ 15) (hreq : x.required b p ins = [])
    (hstep : armStep b p = .ok (r, p.fetched)) :
    x.Moves b p ins ↔ x.loaded b p ins = p.reg.get (rd ins) := by
  rw [Narrow.Moves, hreq, exists_ok_iff hstep, fetched_get hd]
  refine ⟨?_, ?_⟩
  · rintro ⟨-, -, hget, -⟩
    exact hget.symm
  · intro h
    exact ⟨rfl, fun _ => rfl, h.symm, armReadCpsr_fetched p, fun i h15 _ _ => fetched_get h15⟩

theorem strb_moves_iff (hf : Fetches b p ins) (hp : Passes p ins) (hx : Narrow.strb.Encodes ins)
    (hd : rd ins ≠ 15) : Narrow.strb.Moves b p ins ↔ Narrow.strb.Exact b p ins := by
  obtain ⟨-, -, hB, -, hL, hk, -⟩ := hx
  rw [Narrow.Exact]
  by_cases hr : Refused p ins
  · rw [if_pos hr]
    exact moves_of_stored hd rfl (armStep_of_refused hf hp hr) rfl rfl List.nodup_nil
  · rw [if_neg hr]
    have hbytes : strhBytes b p.fetched ins = strhBytes b p ins := by
      rw [strhBytes, baseReg, fetched_get_masked]; rfl
    have hstep : armStep b p =
        (guardedWrite p.mem (p.reg.get (dataReg ins)) (strhBytes b p ins) >>= fun y =>
          .ok (0, { p.fetched with mem := y.2 })) := by
      rw [armStep_transfer hf hp hr hk, transfer, hL, hB]
      dsimp only
      rw [strh_eq (by rw [hk]; decide), hbytes, dataReg, fetched_get_masked, fetched_mem]
      cases guardedWrite p.mem (p.reg.get (masked (rd ins))) (strhBytes b p ins) <;> rfl
    have hlen : (strhBytes b p ins).length = 2 := length_split _ _ _
    by_cases hs : p.mem.Safe (p.reg.get (dataReg ins)) 2
    · obtain ⟨r, m, hw, ht, hm⟩ := guardedWrite_of_safe (by rw [hlen]; omega) (hlen ▸ hs)
      rw [hw, ok_bind] at hstep
      rw [moves_of_stored hd rfl hstep ht hm (nodup_attempted (by rw [hlen]; omega))]
      exact ⟨fun h => ⟨hs, h⟩, And.right⟩
    · obtain ⟨hrej, hh⟩ := not_or.mp hs
      obtain ⟨f, hw⟩ := guardedWrite_fault (strhBytes b p ins) (hlen ▸ hrej) (hlen ▸ hh)
      rw [hw, error_bind] at hstep
      exact iff_of_false (not_exists_ok ⟨f, hstep⟩) fun h => hs h.1

theorem ldrb_moves_iff (hf : Fetches b p ins) (hp : Passes p ins) (hx : Narrow.ldrb.Encodes ins)
    (hn : rn ins ≠ 15) (hd : rd ins ≠ 15) (hnd : rn ins ≠ rd ins) :
    Narrow.ldrb.Moves b p ins ↔ Narrow.ldrb.Exact b p ins := by
  obtain ⟨-, -, hB, -, hL, hk, -⟩ := hx
  have hs := dataReg_lt ins
  have hnlt := rn_lt ins
  rw [Narrow.Exact]
  by_cases hr : Refused p ins
  · rw [if_neg fun h : Loaded p ins 1 => h.1.1 hr]
    exact moves_of_fetched hd rfl (armStep_of_refused hf hp hr)
  · have hstep : armStep b p =
        (memoryReadByte p.mem (p.reg.get (baseReg ins))
            ((b.junk .ldrbValue).setWidth 8) >>= fun y =>
          .ok (0, if y.1 ≠ 0 then p.fetched else { p.fetched with
            reg := p.fetched.reg.set (dataReg ins) (y.2.setWidth 32) })) := by
      rw [armStep_transfer hf hp hr hk, transfer, hL, hB]
      dsimp only
      rw [ldrb_eq (by rw [hk]; decide), baseReg, fetched_get_masked, fetched_mem]
      cases memoryReadByte p.mem (p.reg.get (masked (rn ins))) ((b.junk .ldrbValue).setWidth 8) with
      | error f => rfl
      | ok y => simp only [ok_bind]; split <;> rfl
    by_cases hrej : p.mem.Rejects (p.reg.get (baseReg ins)) 1
    · rw [if_neg fun h : Loaded p ins 1 => h.2 hrej]
      rw [memoryReadByte_of_rejects hrej, ok_bind] at hstep
      exact moves_of_fetched hd rfl hstep
    · rw [if_pos (show Loaded p ins 1 from ⟨⟨hr, hk⟩, hrej⟩)]
      by_cases hh : p.mem.Holds (p.reg.get (baseReg ins)) 1
      · rw [memoryReadByte_of_holds hh, ok_bind] at hstep
        have hcpsr : registersReadCpsr (p.fetched.reg.set (dataReg ins)
            ((p.mem.get (p.reg.get (baseReg ins)).toNat).setWidth 32)) = armReadCpsr p :=
          (registersReadCpsr_set (by omega)).trans (armReadCpsr_fetched p)
        rw [← loadExact_iff hn hd, Narrow.Moves, exists_ok_iff hstep]
        refine ⟨?_, ?_⟩
        · rintro ⟨-, -, hget, -, hother⟩
          refine ⟨hh, hget, hother _ hn (by omega) hnd, fun i h15 hid _ => ?_⟩
          by_cases h16 : i = 16
          · rw [set_dataReg_get h15, if_neg (by omega)]
          · exact hother i h15 h16 hid
        · rintro ⟨-, hget, hbase, hother⟩
          refine ⟨rfl, fun _ => rfl, hget, hcpsr, fun i h15 _ hid => ?_⟩
          by_cases hin : i = rn ins
          · rw [hin]
            exact hbase
          · exact hother i h15 hid hin
      · obtain ⟨f, hread⟩ := memoryReadByte_fault ((b.junk .ldrbValue).setWidth 8) hrej hh
        rw [hread, error_bind] at hstep
        exact iff_of_false (not_exists_ok ⟨f, hstep⟩) fun h => hh h.1

theorem strh_moves_iff (hf : Fetches b p ins) (hp : Passes p ins) (hx : Narrow.strh.Encodes ins)
    (hn : rn ins ≠ 15) (hd : rd ins ≠ 15) :
    Narrow.strh.Moves b p ins ↔ Narrow.strh.Exact b p ins := by
  obtain ⟨hP, hU, hB, hW, hL, hk, h4, hs, hm⟩ := hx
  rw [Narrow.Exact]
  by_cases hr : Refused p ins
  · rw [moves_of_stored (w := []) hd rfl (armStep_of_refused hf hp hr) rfl rfl List.nodup_nil]
    exact ⟨fun h => ⟨h, .inl hr⟩, And.left⟩
  · have hstep : armStep b p = (shr b (p.reg.get 0) (amount p) >>= fun op2 =>
        .ok (0, { p.fetched with reg := p.fetched.reg.set (rd ins) (cleared p ins op2) })) := by
      rw [armStep_of_accepted hf hp hr, dispatch_dataProcessing hk,
        halfTransfer_eq hP hU hB hW h4 hs hm hn]
      cases shr b (p.reg.get 0) (amount p) with
      | error f => rfl
      | ok op2 => simp only [ok_bind, clearedState_of_store hL, finish_zero]
    have hlt := rd_lt ins
    have hget {op2 : BitVec 32} {i : Nat} (hi : i ≠ 15) :
        (p.fetched.reg.set (rd ins) (cleared p ins op2)).get i =
          if i = rd ins then cleared p ins op2 else p.reg.get i := by
      rw [Registers.get_set (by unfold NB_REGISTER; omega), fetched_get hi]
    rw [← overlay_eq_iff (f := p.mem.get) (show (keys ([] : List (Nat × BitVec 8))).Nodup from
      List.nodup_nil)]
    rw [Narrow.Moves, or_iff_right hr]
    cases hshr : shr b (p.reg.get 0) (amount p) with
    | error f =>
      rw [hshr, error_bind] at hstep
      exact iff_of_false (not_exists_ok ⟨f, hstep⟩) fun h => not_shiftGives_of_error hshr h.2
    | ok op2 =>
      rw [hshr, ok_bind] at hstep
      rw [exists_ok_iff hstep, shiftGives_of_ok hshr, hget hd, if_pos rfl]
      refine ⟨?_, ?_⟩
      · rintro ⟨-, hmem, hrd, -⟩
        exact ⟨hmem, hrd⟩
      · rintro ⟨hmem, hrd⟩
        refine ⟨rfl, hmem, hrd, (registersReadCpsr_set hlt).trans (armReadCpsr_fetched p),
          fun i h15 _ hid => ?_⟩
        rw [hget h15, if_neg hid]

theorem ldrh_moves_iff (hf : Fetches b p ins) (hp : Passes p ins) (hx : Narrow.ldrh.Encodes ins)
    (hn : rn ins ≠ 15) (hd : rd ins ≠ 15) :
    Narrow.ldrh.Moves b p ins ↔ Narrow.ldrh.Exact b p ins := by
  obtain ⟨hP, hU, hB, hW, hL, hk, h4, hs, hm⟩ := hx
  rw [Narrow.Exact]
  by_cases hr : Refused p ins
  · rw [if_pos hr]
    exact moves_of_fetched hd rfl (armStep_of_refused hf hp hr)
  · rw [if_neg hr]
    have hstep : armStep b p = (shr b (p.reg.get 0) (amount p) >>= fun op2 =>
        .ok (0, clearedState p ins op2)) := by
      rw [armStep_of_accepted hf hp hr, dispatch_dataProcessing hk,
        halfTransfer_eq hP hU hB hW h4 hs hm hn]
      cases shr b (p.reg.get 0) (amount p) <;> rfl
    rw [Narrow.Moves]
    cases hshr : shr b (p.reg.get 0) (amount p) with
    | error f =>
      rw [hshr, error_bind] at hstep
      exact iff_of_false (not_exists_ok ⟨f, hstep⟩) (not_shiftGives_of_error hshr)
    | ok op2 =>
      obtain ⟨hmem, hget, hc⟩ := clearedState_of_load (p := p) hL hd op2
      have h16 : rd ins ≠ 16 := Nat.ne_of_lt (rd_lt ins)
      rw [hshr, ok_bind] at hstep
      rw [exists_ok_iff hstep, shiftGives_of_ok hshr, hget _ hd h16, if_pos rfl, hc,
        packFlags_eq_self_iff, hmem]
      refine ⟨?_, ?_⟩
      · rintro ⟨-, -, hrd, hflags, -⟩
        exact ⟨hrd, hflags⟩
      · rintro ⟨hrd, hflags⟩
        refine ⟨rfl, fun _ => rfl, hrd, hflags, fun i h15 h16 hid => ?_⟩
        rw [hget i h15 h16, if_neg hid]

/-- **Byte and half transfers**: which steps move the byte or half as the encoding asks. -/
theorem narrow_moves_iff (hf : Fetches b p ins) (hp : Passes p ins) (hx : x.Encodes ins)
    (hn : rn ins ≠ 15) (hd : rd ins ≠ 15) (hnd : rn ins ≠ rd ins) :
    x.Moves b p ins ↔ x.Exact b p ins := by
  cases x with
  | strb => exact strb_moves_iff hf hp hx hd
  | ldrb => exact ldrb_moves_iff hf hp hx hn hd hnd
  | strh => exact strh_moves_iff hf hp hx hn hd
  | ldrh => exact ldrh_moves_iff hf hp hx hn hd

end Moves

/-- `ldrb r4, [r0]`, the two registers the code can name. -/
theorem narrow_moves_iff_r4 :
    Narrow.ldrb.Moves (.trapping false) ⟨0, .ofFn fun i => if i = 0 then 4 else 0,
      .ofBytes [0x00, 0x40, 0xD0, 0xE5, 0x41], []⟩ 0xE5D04000 := by
  refine (narrow_moves_iff (by decide) (by decide) ?_ (by decide) (by decide) (by decide)).mpr ?_
  · unfold Narrow.Encodes; decide
  · unfold Narrow.Exact; decide

/-- `strb r1, [r2]` stores two bytes elsewhere, on a little-endian simulator. -/
theorem not_narrow_moves :
    ¬ Narrow.strb.Moves (.trapping false) ⟨0, .ofFn fun i => if i = 1 then 0x41 else
      if i = 2 then 4 else 0, .ofBytes [0x00, 0x10, 0xC2, 0xE5, 0], []⟩ 0xE5C21000 := by
  rintro ⟨r, p', hrun, -, hmem, -⟩
  cases hrun
  exact absurd (hmem 4) (by decide)

end Armator.Sim
