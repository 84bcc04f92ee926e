import Armator.Sim.BranchOther
import Armator.Sim.DataProcessing
import Armator.Sim.LoadStore

/-!
# `arm_instruction.c`
-/

namespace Armator.Sim

open Lib

def ARM_TYPE_DATA_PROCESSING : BitVec 32 := 0x0
def ARM_TYPE_DATA_IMMEDIATE_MSR : BitVec 32 := 0x1
def ARM_TYPE_LOAD_STORE : BitVec 32 := 0x2
def ARM_TYPE_LOAD_STORE_MULTIPLE : BitVec 32 := 0x4
def ARM_TYPE_BRANCH_OTHER : BitVec 32 := 0x5
def ARM_TYPE_COPROCESSOR_LOAD_STORE : BitVec 32 := 0x6

/-- The `switch` of `arm_execute_instruction` on bits 27 to 25. -/
def dispatch (b : Build) (p : ArmCore) (instruction : BitVec 32) :
    Except Fault (Int × ArmCore) :=
  let type := (instruction >>> 25) &&& 0x07
  if type = ARM_TYPE_DATA_PROCESSING then armDataProcessingShift b p instruction
  else if type = ARM_TYPE_DATA_IMMEDIATE_MSR then armDataProcessingImmediateMsr b p instruction
  else if type = ARM_TYPE_LOAD_STORE then armLoadStore b p instruction
  else if type = ARM_TYPE_LOAD_STORE_MULTIPLE then armLoadStoreMultiple b p instruction
  else if type = ARM_TYPE_COPROCESSOR_LOAD_STORE then
    .ok (armCoprocessorLoadStore p instruction, p)
  else if type = ARM_TYPE_BRANCH_OTHER then armBranch p instruction
  else .ok (UNDEFINED_INSTRUCTION, p)

def armExecuteInstruction (b : Build) (p : ArmCore) : Except Fault (Int × ArmCore) := do
  let (result, instruction, p) ← armFetch b p (b.junk .fetchedInstruction)
  if result ≠ 0 then .ok (result, p)
  else if armCheckCond p instruction ≠ 0 then dispatch b p instruction
  else .ok (result, p)

def armStep (b : Build) (p : ArmCore) : Except Fault (Int × ArmCore) := do
  let (result, p) ← armExecuteInstruction b p
  if result ≠ 0 then armException b p (BitVec.ofInt 8 result) else .ok (result, p)

end Armator.Sim
