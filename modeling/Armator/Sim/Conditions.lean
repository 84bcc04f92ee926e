import Armator.Sim.Core

/-!
# `arm_conditions.c`
-/

namespace Armator.Sim

open Lib

def armCheckCond (p : ArmCore) (instruction : BitVec 32) : BitVec 8 :=
  let cond := (instruction >>> 28) &&& 0xF
  let nzcv := (armReadCpsr p >>> 28) &&& 0xF
  let neg := (nzcv >>> 3) &&& 0x1
  let zero := (nzcv >>> 2) &&& 0x1
  let carry := (nzcv >>> 1) &&& 0x1
  let overflow := nzcv &&& 0x1
  if cond = EQ then if zero ≠ 0 then 1 else 0
  else if cond = NE then if zero = 0 then 1 else 0
  else if cond = CS then if carry ≠ 0 then 1 else 0
  else if cond = CC then if carry = 0 then 1 else 0
  else if cond = MI then if neg ≠ 0 then 1 else 0
  else if cond = PL then if neg = 0 then 1 else 0
  else if cond = VS then if overflow ≠ 0 then 1 else 0
  else if cond = VC then if overflow = 0 then 1 else 0
  else if cond = HI then if carry ≠ 0 ∧ zero = 0 then 1 else 0
  else if cond = LS then if carry = 0 ∨ zero ≠ 0 then 1 else 0
  else if cond = GE then if neg = overflow then 1 else 0
  else if cond = LT then if neg ≠ overflow then 1 else 0
  else if cond = GT then if zero = 0 ∧ neg = overflow then 1 else 0
  -- both tests are required, where the table of `arm_constants.h` asks for either
  else if cond = LE then if zero ≠ 0 ∧ neg ≠ overflow then 1 else 0
  else if cond = AL then 1
  else if cond = UN then BitVec.ofInt 8 UNDEFINED_INSTRUCTION
  else 0

end Armator.Sim
