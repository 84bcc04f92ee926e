import Armator.Sim.Core

/-!
# `arm_exception.c`

`arm_create` is here too, since it resets the processor.
-/

namespace Armator.Sim

open Lib

def Exception_bit_9 : BitVec 32 := 0 <<< 9

def armException (b : Build) (p : ArmCore) (exception : BitVec 8) :
    Except Fault (Int × ArmCore) := do
  let cpsr := 0x1d3 ||| Exception_bit_9
  let reset : Except Fault (Int × ArmCore) :=
    if (exception.toNat : Int) = RESET then do
      let p ← armWriteRegister (armWriteCpsr p cpsr) 15 0
      .ok (exception.toNat, p)
    else .ok (exception.toNat, p)
  if (exception.toNat : Int) = SOFTWARE_INTERRUPT then
    let address ← armReadRegister p 15
    let address := address - 8
    -- the result of the read is not tested: on a failure the local keeps its old content
    let (_, instruction) ← armReadWord b p address (b.junk .swiInstruction)
    let instruction := instruction &&& 0xFFFFFF
    if instruction = 0x123456 then .ok (END_SIMULATION, p)
    else if instruction = 0x000001 then
      let value ← armReadRegister p 0
      .ok (0, { p with printed := p.printed ++ [value.setWidth 8] })
    else reset
  else reset

/-- `arm_create` of `arm_core.c`; the stack pointer starts at the end of the memory. -/
def armCreate (b : Build) (reg : Registers) (mem : Memory) : Except Fault ArmCore := do
  let p : ArmCore := ⟨0, reg, mem, []⟩
  let (_, p) ← armException b p (BitVec.ofInt 8 RESET)
  armWriteRegister p 13 (BitVec.ofNat 32 (memoryGetSize mem))

end Armator.Sim
