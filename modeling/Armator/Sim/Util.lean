import Armator.Lib.Block

/-!
# `util.h`, `util.c`

Words are bit vectors of their C width; an `int` operand of a bitwise operator
is its 32-bit pattern. `Build` collects what the C text leaves to the build and
to the host. A shift whose amount is outside `0 … 31` has no meaning in C, so it
yields whatever the build makes of it, a fault included; a left shift into the
sign bit is the shift of the bit pattern.
-/

namespace Armator.Sim

open Lib

/-- The local variables that are read before the function has assigned them,
directly or through the accumulating reads of `memory.c`. -/
inductive Local where
  /-- `instruction` of `arm_execute_instruction` -/
  | fetchedInstruction
  /-- `instruction` of `arm_exception` -/
  | swiInstruction
  /-- `value` of `ldr` -/
  | ldrValue
  /-- `value` of `ldrb` -/
  | ldrbValue
  /-- `value` of `ldrh` -/
  | ldrhValue
  /-- `value` of `ldm` -/
  | ldmValue
  /-- `address` of `str` -/
  | strAddress
  /-- `index` of `str` -/
  | strIndex
  deriving DecidableEq, Repr

/-- What a program run depends on besides the C text. -/
structure Build where
  /-- `BIG_ENDIAN_SIMULATOR` is defined. -/
  bigEndianSimulator : Bool
  /-- The content of a local variable before its first assignment. -/
  junk : Local → BitVec 32
  /-- `x << n` for `n` outside `0 … 31` -/
  overShl : BitVec 32 → Int → Except Fault (BitVec 32)
  /-- `x >> n` for `n` outside `0 … 31` -/
  overShr : BitVec 32 → Int → Except Fault (BitVec 32)

/-- A build that traps on a meaningless shift and fills locals with zeros. `false` stands for a
build without `BIG_ENDIAN_SIMULATOR`, which reads a word from its low byte on. -/
def Build.trapping (bigEndianSimulator : Bool) : Build where
  bigEndianSimulator := bigEndianSimulator
  junk _ := 0
  overShl _ n := .error (.shift n)
  overShr _ n := .error (.shift n)

/-- `x << n` -/
def shl (b : Build) (x : BitVec 32) (n : Int) : Except Fault (BitVec 32) :=
  if 0 ≤ n ∧ n < 32 then .ok (x <<< n.toNat) else b.overShl x n

/-- `x >> n` -/
def shr (b : Build) (x : BitVec 32) (n : Int) : Except Fault (BitVec 32) :=
  if 0 ≤ n ∧ n < 32 then .ok (x >>> n.toNat) else b.overShr x n

/-- `get_bit(x, i)` -/
def getBit (b : Build) (x : BitVec 32) (i : Int) : Except Fault (BitVec 32) := do
  let y ← shr b x i
  .ok (y &&& 1)

def reverse2 (x : BitVec 16) : BitVec 16 := ((x &&& 0xFF) <<< 8) ||| ((x >>> 8) &&& 0xFF)

def reverse4 (x : BitVec 32) : BitVec 32 :=
  ((x &&& 0xFF) <<< 24) ||| (((x >>> 8) &&& 0xFF) <<< 16) |||
    (((x >>> 16) &&& 0xFF) <<< 8) ||| ((x >>> 24) &&& 0xFF)

def asr (b : Build) (value : BitVec 32) (shift : BitVec 8) : Except Fault (BitVec 32) := do
  let low ← shr b value shift.toNat
  let sign ← getBit b value 31
  let fill ← if sign ≠ 0 then shl b 0xFFFFFFFF (32 - shift.toNat) else .ok 0
  .ok (low ||| fill)

def ror (b : Build) (value : BitVec 32) (rotation : BitVec 8) : Except Fault (BitVec 32) := do
  let low ← shr b value rotation.toNat
  let high ← shl b value (32 - rotation.toNat)
  .ok (low ||| high)

section Shift

variable {b : Build} {x : BitVec 32} {n : Nat}

theorem shr_of_lt (h : n < 32) : shr b x n = .ok (x >>> n) := by
  rw [shr, if_pos (by omega), Int.toNat_natCast]

theorem getBit_of_lt (h : n < 32) : getBit b x n = .ok ((x >>> n) &&& 1) := by
  rw [getBit, shr_of_lt h, ok_bind]

end Shift

end Armator.Sim
