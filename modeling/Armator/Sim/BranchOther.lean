import Armator.Sim.Conditions

/-!
# `arm_branch_other.c`
-/

namespace Armator.Sim

open Lib

def armBranch (p : ArmCore) (ins : BitVec 32) : Except Fault (Int × ArmCore) := do
  let linked := (ins >>> 24) &&& 1
  let mask := ((1 : BitVec 32) <<< 24) - 1
  let offsetMasked := ins &&& mask
  let bOffset := (offsetMasked ^^^ mask) - mask
  let pc ← armReadRegister p 15
  if armCheckCond p ins = 1 then
    let p ← if linked ≠ 0 then armWriteRegister p 14 (pc + 4) else .ok p
    let pc := pc + bOffset
    let p ← armWriteRegister p 15 pc
    .ok (0, p)
  else .ok (-1, p)

end Armator.Sim
