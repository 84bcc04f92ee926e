import Armator.Sim.Core

/-!
# `arm_load_store.c`

The dispatchers `store`, `load`, `strb_strh`, `arm_load_store` and
`arm_load_store_multiple` drop the result of the function they call and return 0.
`str` computes an address and a new base value in local variables and then reads
a word into the latter; the address is used by no access. The three copies of its
shifter are `strIndex`. The loops of `stm` and `ldm` run over register numbers.
-/

namespace Armator.Sim

open Lib

def ARM_INS_STORE : BitVec 32 := 0
def ARM_INS_STR : BitVec 32 := 0

/-- The `switch (shift)` of `str`: the offset register shifted by `shift_imm`.
The three copies differ in the operand `rrx` of the RRX case. -/
def strIndex (b : Build) (shift shiftImm offset rrx : BitVec 32) : Except Fault (BitVec 32) :=
  if shift = 0 then shl b offset shiftImm.toNat
  else if shift = 1 then if shiftImm = 0 then .ok 0 else shr b offset shiftImm.toNat
  else if shift = 2 then
    if shiftImm = 0 then
      let g := (offset >>> 31) &&& 1
      if g = 1 then .ok 0xFFFFFFFF else .ok 0
    else asr b offset (shiftImm.setWidth 8)
  else if shift = 3 then
    if shiftImm = 0 then .ok (rrx >>> 1) else ror b offset (shiftImm.setWidth 8)
  else .ok (b.junk .strIndex)

/-- The address `str` computes with an immediate offset, its base value and the
state: only the pre-indexed form writes a register. -/
def strImmediate (b : Build) (p : ArmCore) (bitP bitW bitU : BitVec 32) (source : BitVec 8)
    (vSource offset : BitVec 32) : Except Fault (BitVec 32 × BitVec 32 × ArmCore) :=
  if bitP = 0 then
    if bitW = 0 then
      .ok (vSource, if bitU = 1 then vSource + offset else vSource - offset, p)
    else .ok (b.junk .strAddress, vSource, p)
  else
    let address := if bitU = 1 then vSource + offset else vSource - offset
    if bitW = 0 then .ok (address, vSource, p)
    else do
      let p ← armWriteRegister p source address
      .ok (address, address, p)

/-- The address and the base value `str` computes with a register offset. -/
def strRegister (b : Build) (ins bitP bitW bitU scaled : BitVec 32) (rm : BitVec 8)
    (vSource offset : BitVec 32) : Except Fault (BitVec 32 × BitVec 32) :=
  if scaled ≠ 0 then
    let shift := (ins >>> 5) &&& 2
    let shiftImm := (ins >>> 7) &&& 5
    if bitP = 0 then
      if bitW = 0 then do
        let index ← strIndex b shift shiftImm offset offset
        .ok (vSource, if bitU = 1 then vSource + index else vSource - index)
      else .ok (b.junk .strAddress, vSource)
    else if bitW = 0 then do
      let index ← strIndex b shift shiftImm offset offset
      .ok (if bitU = 1 then vSource + index else vSource - index, vSource)
    else do
      -- this copy shifts the register number `Rm`, not the register's value
      let index ← strIndex b shift shiftImm offset (rm.setWidth 32)
      .ok (if bitU = 1 then vSource + index else vSource - index, vSource)
  else
    let address := if bitU = 1 then vSource + offset else vSource - offset
    if bitP = 0 then
      if bitW = 0 then .ok (address, vSource) else .ok (b.junk .strAddress, vSource)
    else if bitW = 0 then .ok (address, vSource)
    else .ok (address, address)

def str (b : Build) (p : ArmCore) (ins : BitVec 32) : Except Fault (Int × ArmCore) :=
  if ins = 0 then .ok (-1, p)
  else do
    let source : BitVec 8 := ((ins >>> 16) &&& 0x04).setWidth 8
    let dest : BitVec 8 := ((ins >>> 12) &&& 0x04).setWidth 8
    let offset : BitVec 8 := ((ins >>> 0) &&& 0x0C).setWidth 8
    let vDest ← armReadRegister p dest
    let vSource ← armReadRegister p source
    let immediat := (ins >>> 25) &&& 1
    let bitP := (ins >>> 24) &&& 1
    let bitW := (ins >>> 21) &&& 1
    let bitU := (ins >>> 23) &&& 1
    let scaled := (ins >>> 4) &&& 8
    let (_address, vSource, p) ←
      if immediat = 0 then strImmediate b p bitP bitW bitU source vSource (offset.setWidth 32)
      else do
        let rm : BitVec 8 := ((ins >>> 0) &&& 0x04).setWidth 8
        let offset ← armReadRegister p rm
        let (address, vSource) ← strRegister b ins bitP bitW bitU scaled rm vSource offset
        .ok (address, vSource, p)
    let (result, _vSource) ← armReadWord b p vDest vSource
    if result ≠ 0 then .ok (-1, p) else .ok (0, p)

def strb (p : ArmCore) (ins : BitVec 32) : Except Fault (Int × ArmCore) :=
  if ins = 0 then .ok (-1, p)
  else do
    let source := ((ins >>> 16) &&& 0x04).setWidth 8
    let dest := ((ins >>> 12) &&& 0x04).setWidth 8
    let vDest ← armReadRegister p dest
    let vSource ← armReadRegister p source
    let (result, p) ← armWriteByte p vDest (vSource.setWidth 8)
    if result ≠ 0 then .ok (-1, p) else .ok (0, p)

def strh (b : Build) (p : ArmCore) (ins : BitVec 32) : Except Fault (Int × ArmCore) :=
  if ins = 0 then .ok (-1, p)
  else do
    let source := ((ins >>> 16) &&& 0x04).setWidth 8
    let dest := ((ins >>> 12) &&& 0x04).setWidth 8
    let vDest ← armReadRegister p dest
    let vSource ← armReadRegister p source
    let (result, p) ← armWriteHalf b p vDest (vSource.setWidth 16)
    if result ≠ 0 then .ok (-1, p) else .ok (0, p)

def strbStrh (b : Build) (p : ArmCore) (ins : BitVec 32) : Except Fault (Int × ArmCore) := do
  let x := (ins >>> 26) &&& 1
  let (_, p) ← if x = 0 then strb p ins else strh b p ins
  .ok (0, p)

def store (b : Build) (p : ArmCore) (ins : BitVec 32) : Except Fault (Int × ArmCore) :=
  if ins = 0 then .ok (-1, p)
  else do
    let x := (ins >>> 22) &&& 1
    let (_, p) ← if x = ARM_INS_STR then str b p ins else strbStrh b p ins
    .ok (0, p)

def ldr (b : Build) (p : ArmCore) (ins : BitVec 32) : Except Fault (Int × ArmCore) :=
  if ins = 0 then .ok (-1, p)
  else do
    let source := ((ins >>> 16) &&& 0x04).setWidth 8
    let dest := ((ins >>> 12) &&& 0x04).setWidth 8
    let vSource ← armReadRegister p source
    let (result, value) ← armReadWord b p vSource (b.junk .ldrValue)
    if result ≠ 0 then .ok (-1, p)
    else do
      let p ← armWriteRegister p dest value
      .ok (0, p)

def ldrb (b : Build) (p : ArmCore) (ins : BitVec 32) : Except Fault (Int × ArmCore) :=
  if ins = 0 then .ok (-1, p)
  else do
    let source := ((ins >>> 16) &&& 0x04).setWidth 8
    let dest := ((ins >>> 12) &&& 0x04).setWidth 8
    let vSource ← armReadRegister p source
    let (result, value) ← armReadByte p vSource ((b.junk .ldrbValue).setWidth 8)
    if result ≠ 0 then .ok (-1, p)
    else do
      let p ← armWriteRegister p dest (value.setWidth 32)
      .ok (0, p)

def ldrh (b : Build) (p : ArmCore) (ins : BitVec 32) : Except Fault (Int × ArmCore) :=
  if ins = 0 then .ok (-1, p)
  else do
    let source := ((ins >>> 16) &&& 0x04).setWidth 8
    let dest := ((ins >>> 12) &&& 0x04).setWidth 8
    let vSource ← armReadRegister p source
    let (result, value) ← armReadHalf b p vSource ((b.junk .ldrhValue).setWidth 16)
    if result ≠ 0 then .ok (-1, p)
    else do
      let p ← armWriteRegister p dest (value.setWidth 32)
      .ok (0, p)

def ldrbLdrh (b : Build) (p : ArmCore) (ins : BitVec 32) : Except Fault (Int × ArmCore) :=
  if ins = 0 then .ok (-1, p)
  else do
    let x := (ins >>> 26) &&& 1
    let (_, p) ← if x = 1 then ldrb b p ins else ldrh b p ins
    .ok (0, p)

def load (b : Build) (p : ArmCore) (ins : BitVec 32) : Except Fault (Int × ArmCore) :=
  if ins = 0 then .ok (-1, p)
  else do
    let x := (ins >>> 22) &&& 1
    let (_, p) ← if x = 0 then ldr b p ins else ldrbLdrh b p ins
    .ok (0, p)

def armLoadStore (b : Build) (p : ArmCore) (ins : BitVec 32) : Except Fault (Int × ArmCore) :=
  if ins = 0 then .ok (-1, p)
  else do
    let ls := (ins >>> 20) &&& 1
    let (_, p) ← if ls = ARM_INS_STORE then store b p ins else load b p ins
    .ok (0, p)

/-! ## Multiple transfers -/

/-- The loop of `stm` over the register numbers still to visit. -/
def stmLoop (ins : BitVec 32) : List Nat → BitVec 32 → ArmCore → Except Fault (Int × ArmCore)
  | [], _, p => .ok (0, p)
  | i :: is, addr, p =>
    let k := (ins >>> i) &&& 1
    if k = 1 then
      let bitP := (ins >>> 24) &&& 1
      let bitU := (ins >>> 23) &&& 1
      if bitP = 0 ∧ bitU = 0 then do
        let value ← armReadRegister p (BitVec.ofNat 8 i)
        let (result, p) ← armWriteByte p addr (value.setWidth 8)
        if result ≠ 0 then .ok (-1, p) else stmLoop ins is (addr - 1) p
      else if bitP = 0 ∧ bitU = 1 then do
        let value ← armReadRegister p (BitVec.ofNat 8 i)
        let (result, p) ← armWriteByte p addr (value.setWidth 8)
        if result ≠ 0 then .ok (-1, p) else stmLoop ins is (addr + 1) p
      else if bitP = 1 ∧ bitU = 0 then do
        let addr := addr - 1
        let value ← armReadRegister p (BitVec.ofNat 8 i)
        let (result, p) ← armWriteByte p addr (value.setWidth 8)
        if result ≠ 0 then .ok (-1, p) else stmLoop ins is addr p
      else do
        let addr := addr + 1
        let value ← armReadRegister p (BitVec.ofNat 8 i)
        let (result, p) ← armWriteByte p addr (value.setWidth 8)
        if result ≠ 0 then .ok (-1, p) else stmLoop ins is addr p
    else stmLoop ins is addr p

def stm (p : ArmCore) (ins : BitVec 32) : Except Fault (Int × ArmCore) :=
  if ins = 0 then .ok (-1, p)
  else
    let bit22 := (ins >>> 22) &&& 1
    if bit22 = 0 then do
      let dest := ((ins >>> 16) &&& 0x04).setWidth 8
      let addr ← armReadRegister p dest
      stmLoop ins (List.range 15) addr p
    else .ok (0, p)

/-- The loop of `ldm` over the register numbers still to visit. Every listed
register is given `value`; `addr` moves but is not read again. -/
def ldmLoop (ins : BitVec 32) (value : BitVec 8) :
    List Nat → BitVec 32 → ArmCore → Except Fault (Int × ArmCore)
  | [], _, p => .ok (0, p)
  | i :: is, addr, p =>
    let k := (ins >>> i) &&& 1
    if k = 1 then
      let bitP := (ins >>> 24) &&& 1
      let bitU := (ins >>> 23) &&& 1
      if bitP = 0 ∧ bitU = 0 then do
        let p ← armWriteRegister p (BitVec.ofNat 8 i) (value.setWidth 32)
        ldmLoop ins value is (addr - 1) p
      else if bitP = 0 ∧ bitU = 1 then do
        let p ← armWriteRegister p (BitVec.ofNat 8 i) (value.setWidth 32)
        ldmLoop ins value is (addr + 1) p
      else if bitP = 1 ∧ bitU = 0 then do
        let addr := addr - 1
        let p ← armWriteRegister p (BitVec.ofNat 8 i) (value.setWidth 32)
        ldmLoop ins value is addr p
      else do
        let addr := addr + 1
        let p ← armWriteRegister p (BitVec.ofNat 8 i) (value.setWidth 32)
        ldmLoop ins value is addr p
    else ldmLoop ins value is addr p

def ldm (b : Build) (p : ArmCore) (ins : BitVec 32) : Except Fault (Int × ArmCore) :=
  if ins = 0 then .ok (-1, p)
  else
    let bit22 := (ins >>> 22) &&& 1
    if bit22 = 0 then do
      let source := ((ins >>> 16) &&& 0x04).setWidth 8
      let addr ← armReadRegister p source
      let (result, value) ← armReadByte p addr ((b.junk .ldmValue).setWidth 8)
      if result ≠ 0 then .ok (-1, p) else ldmLoop ins value (List.range 15) addr p
    else .ok (0, p)

def armLoadStoreMultiple (b : Build) (p : ArmCore) (ins : BitVec 32) :
    Except Fault (Int × ArmCore) :=
  if ins = 0 then .ok (-1, p)
  else do
    let ls := (ins >>> 20) &&& 1
    let (_, p) ← if ls = ARM_INS_STORE then stm p ins else ldm b p ins
    .ok (0, p)

def armCoprocessorLoadStore (_p : ArmCore) (_ins : BitVec 32) : Int := UNDEFINED_INSTRUCTION

end Armator.Sim
