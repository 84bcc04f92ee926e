import Armator.Sim.Exception

/-!
# `arm_data_processing.c`

The sixteen operations read the register file, update the flags and return the
value the decoder writes to `Rd` (the four comparisons return the state only).
The decoders of the two operand encodings have the same dispatch table, which is
`dataProcessing` here.
-/

namespace Armator.Sim

open Lib

def updateCpsr (p : ArmCore) (dest : BitVec 32) (s rd c v : BitVec 8) : ArmCore :=
  let n : BitVec 32 := (dest >>> 31) &&& 0x01
  let z : BitVec 32 := if dest = 0 then 1 else 0
  if s = 1 ∧ rd = 15 then
    if armCurrentModeHasSpsr p ≠ 0 then armWriteCpsr p (armReadSpsr p) else p
  else if s = 1 then
    -- `v = 255` is the sentinel for "V unaffected", yet the mask has cleared V already
    let newCpsr :=
      if v = 255 then
        (armReadCpsr p &&& (0x0FFFFFFF : BitVec 32)) ||| (c.setWidth 32 <<< 29) ||| (n <<< 31) |||
          (z <<< 30)
      else
        (armReadCpsr p &&& (0x0FFFFFFF : BitVec 32)) ||| (c.setWidth 32 <<< 29) ||| (n <<< 31) |||
          (z <<< 30) ||| (v.setWidth 32 <<< 28)
    armWriteCpsr p newCpsr
  else p

/-- `get_bit(a + b, 32)` on 64-bit operands -/
def carryFromAdd (a b : BitVec 32) : BitVec 64 :=
  ((a.setWidth 64 + b.setWidth 64) >>> 32) &&& 1

/-- `__builtin_add_overflow` on `uint32_t` operands and result -/
def builtinAddOverflow (a b : BitVec 32) : BitVec 8 × BitVec 32 :=
  (if 0x100000000 ≤ a.toNat + b.toNat then 1 else 0, a + b)

/-- `__builtin_sub_overflow` on `uint32_t` operands and result -/
def builtinSubOverflow (a b : BitVec 32) : BitVec 8 × BitVec 32 :=
  (if a.toNat < b.toNat then 1 else 0, a - b)

namespace DataProcessing

variable (p : ArmCore) (s rn rd : BitVec 8) (op2 : BitVec 32) (carryOut : BitVec 8)

protected def and : Except Fault (BitVec 32 × ArmCore) := do
  let src ← armReadRegister p rn
  let dest ← armReadRegister p rd
  let p := updateCpsr p dest s rd carryOut (-1)
  .ok (src &&& op2, p)

protected def eor : Except Fault (BitVec 32 × ArmCore) := do
  let src ← armReadRegister p rn
  let dest ← armReadRegister p rd
  let p := updateCpsr p dest s rd carryOut (-1)
  .ok (src ^^^ op2, p)

protected def sub : Except Fault (BitVec 32 × ArmCore) := do
  let src ← armReadRegister p rn
  let _ ← armReadRegister p rd
  let c : BitVec 8 := if src.toNat < op2.toNat then 0 else 1
  let (v, dest) := builtinSubOverflow src op2
  .ok (dest, updateCpsr p dest s rd c v)

protected def rsb : Except Fault (BitVec 32 × ArmCore) := do
  let src ← armReadRegister p rn
  let _ ← armReadRegister p rd
  let c : BitVec 8 := if op2.toNat < src.toNat then 0 else 1
  let (v, dest) := builtinSubOverflow op2 src
  .ok (dest, updateCpsr p dest s rd c v)

protected def add : Except Fault (BitVec 32 × ArmCore) := do
  let src ← armReadRegister p rn
  let _ ← armReadRegister p rd
  let c : BitVec 8 := (carryFromAdd src op2).setWidth 8
  let (v, dest) := builtinAddOverflow src op2
  .ok (dest, updateCpsr p dest s rd c v)

protected def adc : Except Fault (BitVec 32 × ArmCore) := do
  let src ← armReadRegister p rn
  let _ ← armReadRegister p rd
  let carry := (armReadCpsr p >>> 29) &&& 0x01
  let c : BitVec 8 := (carryFromAdd src (op2 + carry)).setWidth 8
  let (v, dest) := builtinAddOverflow src (op2 + carry)
  let p := updateCpsr p dest s rd c v
  .ok (src + op2 + carry, p)

protected def sbc : Except Fault (BitVec 32 × ArmCore) := do
  let src ← armReadRegister p rn
  let _ ← armReadRegister p rd
  let notCarry := (armReadCpsr p >>> 29) &&& 0x01
  let notCarry := ~~~notCarry &&& 0x01
  let c : BitVec 8 := if src.toNat < (op2 - notCarry).toNat then 0 else 1
  let (v, dest) := builtinSubOverflow src (op2 - ~~~notCarry)
  let p := updateCpsr p dest s rd c v
  .ok (src - op2 - notCarry, p)

protected def rsc : Except Fault (BitVec 32 × ArmCore) := do
  let src ← armReadRegister p rn
  let _ ← armReadRegister p rd
  let notCarry := (armReadCpsr p >>> 29) &&& 0x01
  let notCarry := ~~~notCarry &&& 0x01
  let c : BitVec 8 := if op2.toNat < (src - notCarry).toNat then 0 else 1
  let (v, dest) := builtinSubOverflow op2 (src - ~~~notCarry)
  let p := updateCpsr p dest s rd c v
  .ok (op2 - src - notCarry, p)

protected def tst : Except Fault ArmCore := do
  let src ← armReadRegister p rn
  .ok (updateCpsr p (src &&& op2) 1 0 carryOut (-1))

protected def teq : Except Fault ArmCore := do
  let src ← armReadRegister p rn
  .ok (updateCpsr p (src ^^^ op2) 1 0 carryOut (-1))

protected def cmp : Except Fault ArmCore := do
  let src ← armReadRegister p rn
  let c : BitVec 8 := if src.toNat < op2.toNat then 0 else 1
  let (v, aluOut) := builtinSubOverflow src op2
  .ok (updateCpsr p aluOut 1 0 c v)

protected def cmn : Except Fault ArmCore := do
  let src ← armReadRegister p rn
  let c : BitVec 8 := (carryFromAdd src op2).setWidth 8
  let (v, aluOut) := builtinAddOverflow src op2
  .ok (updateCpsr p aluOut 1 0 c v)

protected def orr : Except Fault (BitVec 32 × ArmCore) := do
  let src ← armReadRegister p rn
  let _ ← armReadRegister p rd
  let dest := src ||| op2
  .ok (dest, updateCpsr p dest s rd carryOut (-1))

protected def mov : Except Fault (BitVec 32 × ArmCore) := do
  let _ ← armReadRegister p rd
  let dest := op2
  .ok (dest, updateCpsr p dest s rd carryOut (-1))

protected def bic : Except Fault (BitVec 32 × ArmCore) := do
  let src ← armReadRegister p rn
  let _ ← armReadRegister p rd
  let dest := src &&& ~~~op2
  .ok (dest, updateCpsr p dest s rd carryOut (-1))

protected def mvn : Except Fault (BitVec 32 × ArmCore) := do
  let _ ← armReadRegister p rd
  let dest := ~~~op2
  .ok (dest, updateCpsr p dest s rd carryOut (-1))

/-- `arm_write_register(p, rd, Op(..))` -/
def writeBack (result : BitVec 32 × ArmCore) : Except Fault (Int × ArmCore) := do
  let p ← armWriteRegister result.2 rd result.1
  .ok (0, p)

end DataProcessing

open DataProcessing in
/-- The dispatch table of both decoders. -/
def dataProcessing (p : ArmCore) (opcode s rn rd : BitVec 8) (op2 : BitVec 32)
    (carryOut : BitVec 8) : Except Fault (Int × ArmCore) :=
  match opcode.toNat with
  | 0x0 => DataProcessing.and p s rn rd op2 carryOut >>= writeBack rd
  | 0x1 => DataProcessing.eor p s rn rd op2 carryOut >>= writeBack rd
  | 0x2 => DataProcessing.sub p s rn rd op2 >>= writeBack rd
  | 0x3 => DataProcessing.rsb p s rn rd op2 >>= writeBack rd
  | 0x4 => DataProcessing.add p s rn rd op2 >>= writeBack rd
  | 0x5 => DataProcessing.adc p s rn rd op2 >>= writeBack rd
  | 0x6 => DataProcessing.sbc p s rn rd op2 >>= writeBack rd
  | 0x7 => DataProcessing.rsc p s rn rd op2 >>= writeBack rd
  | 0x8 => do let p ← DataProcessing.tst p rn op2 carryOut; .ok (0, p)
  | 0x9 => do let p ← DataProcessing.teq p rn op2 carryOut; .ok (0, p)
  | 0xA => do let p ← DataProcessing.cmp p rn op2; .ok (0, p)
  | 0xB => do let p ← DataProcessing.cmn p rn op2; .ok (0, p)
  | 0xC => DataProcessing.orr p s rn rd op2 carryOut >>= writeBack rd
  | 0xD => DataProcessing.mov p s rd op2 carryOut >>= writeBack rd
  | 0xE => DataProcessing.bic p s rn rd op2 carryOut >>= writeBack rd
  | 0xF => DataProcessing.mvn p s rd op2 carryOut >>= writeBack rd
  | _ => .ok (UNDEFINED_INSTRUCTION, p)

/-- `shift` with bit 4 clear: the amount is an immediate. -/
def shiftByImmediate (b : Build) (p : ArmCore) (ins : BitVec 32) :
    Except Fault (BitVec 32 × BitVec 8) := do
  let rm := (ins &&& 0x0F).setWidth 8
  let carry : BitVec 8 := ((armReadCpsr p >>> 29) &&& 0x01).setWidth 8
  let mode : BitVec 8 := ((ins >>> 5) &&& 0x03).setWidth 8
  let regImm : BitVec 8 := ((ins >>> 7) &&& 0x1F).setWidth 8
  let value ← armReadRegister p rm
  let bit (i : Int) : Except Fault (BitVec 8) := do
    let y ← getBit b value i
    .ok (y.setWidth 8)
  if mode = 0 ∧ regImm = 0 then .ok (value, carry)
  else if mode = LSL then
    let shifted ← shl b value regImm.toNat
    if regImm = 0 then .ok (0, carry)
    else
      let c ← bit (32 - regImm.toNat)
      .ok (shifted, c)
  else if mode = LSR then
    let shifted ← shr b value regImm.toNat
    let c ← if regImm = 0 then bit 31 else bit (regImm.toNat - 1)
    .ok (shifted, c)
  else if mode = ASR then
    let shifted ← asr b value regImm
    if regImm = 0 then
      let c ← bit 31
      if c = 0 then .ok (0, c) else .ok (0xFFFFFFFF, c)
    else
      let c ← bit (regImm.toNat - 1)
      .ok (shifted, c)
  else if mode = ROR then
    if regImm ≠ 0 then
      let rotated ← ror b value regImm
      let c ← bit (regImm.toNat - 1)
      .ok (rotated, c)
    else
      let c ← bit 0
      .ok ((value >>> 1) ||| (carry.setWidth 32 <<< 31), c)
  else .ok (0, 0)

/-- `shift` with bit 4 set: the amount is the low byte of `Rs`. -/
def shiftByRegister (b : Build) (p : ArmCore) (ins : BitVec 32) :
    Except Fault (BitVec 32 × BitVec 8) := do
  let rm := (ins &&& 0x0F).setWidth 8
  let carry : BitVec 8 := ((armReadCpsr p >>> 29) &&& 0x01).setWidth 8
  let mode : BitVec 8 := ((ins >>> 5) &&& 0x03).setWidth 8
  let rs : BitVec 8 := ((ins >>> 8) &&& 0x0F).setWidth 8
  let value ← armReadRegister p rm
  let amount ← armReadRegister p rs
  let regImm : BitVec 8 := amount.setWidth 8
  let bit (i : Int) : Except Fault (BitVec 8) := do
    let y ← getBit b value i
    .ok (y.setWidth 8)
  if mode = LSL then
    let shifted ← shl b value regImm.toNat
    let c ←
      if regImm = 0 then .ok carry
      else if regImm.toNat < 32 then bit (32 - regImm.toNat)
      else if regImm.toNat = 32 then bit 0
      else .ok 0
    .ok (shifted, c)
  else if mode = LSR then
    let shifted ← shr b value regImm.toNat
    let c ←
      if regImm = 0 then .ok carry
      else if regImm.toNat < 32 then bit (regImm.toNat - 1)
      else if regImm.toNat = 32 then bit 31
      else .ok 0
    .ok (shifted, c)
  else if mode = ASR then
    let shifted ← asr b value regImm
    let c ←
      if regImm = 0 then .ok carry
      else if regImm.toNat < 32 then bit (regImm.toNat - 1)
      else .ok 0
    .ok (shifted, c)
  else if mode = ROR then
    let rotated ← ror b value regImm
    let c ←
      if regImm = 0 then .ok carry
      -- `reg_imm & (0x1F == 0)` is a mask with 0
      else if regImm &&& 0 ≠ 0 then bit 31
      else bit ((regImm &&& 0x0F).toNat - 1)
    .ok (rotated, c)
  else .ok (0, 0)

/-- The second operand of a register encoding and the carry out of its shifter. -/
def shift (b : Build) (p : ArmCore) (ins : BitVec 32) : Except Fault (BitVec 32 × BitVec 8) :=
  if (ins >>> 4) &&& 0x01 = 0 then shiftByImmediate b p ins else shiftByRegister b p ins

def armDataProcessingShift (b : Build) (p : ArmCore) (ins : BitVec 32) :
    Except Fault (Int × ArmCore) := do
  let opcode := ((ins >>> 21) &&& 0x0F).setWidth 8
  let rn := ((ins >>> 16) &&& 0x0F).setWidth 8
  let rd := ((ins >>> 12) &&& 0x0F).setWidth 8
  let s := ((ins >>> 20) &&& 0x01).setWidth 8
  let (rm, carryOut) ← shift b p ins
  dataProcessing p opcode s rn rd rm carryOut

/-- The second operand of an immediate encoding and its carry out. -/
def rotate (b : Build) (p : ArmCore) (ins : BitVec 32) :
    Except Fault (BitVec 32 × BitVec 8) := do
  let immed8 := ins &&& 0xFF
  let rotateImm := (ins >>> 8) &&& 0x0F
  let low ← shr b immed8 (2 * rotateImm.toNat)
  let high ← shl b immed8 (32 - 2 * rotateImm.toNat)
  let immediate := low ||| high
  let c ← if rotateImm = 0 then getBit b (armReadCpsr p) 29 else getBit b immediate 31
  .ok (immediate, c.setWidth 8)

def armDataProcessingImmediateMsr (b : Build) (p : ArmCore) (ins : BitVec 32) :
    Except Fault (Int × ArmCore) := do
  let opcode := ((ins >>> 21) &&& 0x0F).setWidth 8
  let rn := ((ins >>> 16) &&& 0x0F).setWidth 8
  let rd := ((ins >>> 12) &&& 0x0F).setWidth 8
  let s := ((ins >>> 20) &&& 0x01).setWidth 8
  let (immediate, carryOut) ← rotate b p ins
  dataProcessing p opcode s rn rd immediate carryOut

end Armator.Sim
