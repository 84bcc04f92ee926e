import Armator.Sim.Memory
import Armator.Sim.Registers

/-!
# `arm_core.c`

The processor state and its accesses. Next to `struct arm_core_data` the state
carries the characters `arm_exception` has given to `putchar`. The trace calls are
left out, with what they write to the trace file, the standard output by default.
-/

namespace Armator.Sim

open Lib

/-- `struct arm_core_data` and what `putchar` has printed. -/
structure ArmCore where
  cycleCount : BitVec 32
  reg : Registers
  mem : Memory
  printed : List (BitVec 8)
  deriving DecidableEq

/-- `ENDIANESS` -/
def Build.endianess (b : Build) : BitVec 8 := if b.bigEndianSimulator then 1 else 0

def armCurrentModeHasSpsr (p : ArmCore) : Int := registersCurrentModeHasSpsr p.reg

def armReadRegisterInternal (p : ArmCore) (reg mode : BitVec 8) : Except Fault (BitVec 32) := do
  let value ← registersRead p.reg reg mode
  -- the fetch has already added 4, so the PC reads as the instruction's address + 8
  if reg = 15 then .ok ((value + 4) &&& 0xFFFFFFFD) else .ok value

def armReadRegister (p : ArmCore) (reg : BitVec 8) : Except Fault (BitVec 32) :=
  armReadRegisterInternal p reg (registersGetMode p.reg)

def armReadCpsr (p : ArmCore) : BitVec 32 := registersReadCpsr p.reg

def armReadSpsr (p : ArmCore) : BitVec 32 := registersReadSpsr p.reg (registersGetMode p.reg)

def armWriteRegisterInternal (p : ArmCore) (reg mode : BitVec 8) (value : BitVec 32) :
    Except Fault ArmCore := do
  let r ← registersWrite p.reg reg mode value
  .ok { p with reg := r }

def armWriteRegister (p : ArmCore) (reg : BitVec 8) (value : BitVec 32) : Except Fault ArmCore :=
  armWriteRegisterInternal p reg (registersGetMode p.reg) value

def armWriteCpsr (p : ArmCore) (value : BitVec 32) : ArmCore :=
  { p with reg := registersWriteCpsr p.reg value }

def armWriteSpsr (p : ArmCore) (value : BitVec 32) : ArmCore :=
  { p with reg := registersWriteSpsr p.reg (registersGetMode p.reg) value }

def armReadByte (p : ArmCore) (address : BitVec 32) (value : BitVec 8) :
    Except Fault (Int × BitVec 8) :=
  memoryReadByte p.mem address value

def armReadHalf (b : Build) (p : ArmCore) (address : BitVec 32) (value : BitVec 16) :
    Except Fault (Int × BitVec 16) :=
  memoryReadHalf p.mem address value b.endianess

def armReadWord (b : Build) (p : ArmCore) (address : BitVec 32) (value : BitVec 32) :
    Except Fault (Int × BitVec 32) :=
  memoryReadWord p.mem address value b.endianess

/-- The result, the word fetched into `value`, and the state with the PC and the
cycle count advanced, which happens whether or not the access succeeds. -/
def armFetch (b : Build) (p : ArmCore) (value : BitVec 32) :
    Except Fault (Int × BitVec 32 × ArmCore) := do
  let mode := registersGetMode p.reg
  let address ← registersRead p.reg 15 mode
  let r ← registersWrite p.reg 15 mode (address + 4)
  let (result, value) ← memoryReadWord p.mem address value b.endianess
  .ok (result, value, { p with reg := r, cycleCount := p.cycleCount + 1 })

def armWriteByte (p : ArmCore) (address : BitVec 32) (value : BitVec 8) :
    Except Fault (Int × ArmCore) := do
  let (result, mem) ← memoryWriteByte p.mem address value
  .ok (result, { p with mem := mem })

def armWriteHalf (b : Build) (p : ArmCore) (address : BitVec 32) (value : BitVec 16) :
    Except Fault (Int × ArmCore) := do
  let (result, mem) ← memoryWriteHalf p.mem address value b.endianess
  .ok (result, { p with mem := mem })

/-! ## Register accesses with a number below 16 -/

/-- The value of register `i` as instructions read it. -/
def ArmCore.read (p : ArmCore) (i : Nat) : BitVec 32 :=
  if i = 15 then (p.reg.get 15 + 4) &&& 0xFFFFFFFD else p.reg.get i

section Access

variable {p : ArmCore} {reg : BitVec 8} {v : BitVec 32}

theorem armReadRegister_of_lt (h : reg.toNat < 16) :
    armReadRegister p reg = .ok (p.read reg.toNat) := by
  rw [armReadRegister, armReadRegisterInternal, registersRead_of_lt h, ok_bind, ArmCore.read]
  by_cases e : reg = 15
  · subst e; rfl
  · have : reg.toNat ≠ 15 := fun h' => e (BitVec.eq_of_toNat_eq h')
    rw [if_neg e, if_neg this]

theorem armWriteRegister_of_lt (h : reg.toNat < 16) :
    armWriteRegister p reg v = .ok { p with reg := p.reg.set reg.toNat v } := by
  rw [armWriteRegister, armWriteRegisterInternal, registersWrite_of_lt h, ok_bind]

theorem ArmCore.read_of_ne {i : Nat} (h : i ≠ 15) : p.read i = p.reg.get i := if_neg h

end Access

end Armator.Sim
