import Armator.Lib.Words
import Armator.Spec.Arm

/-!
# Data processing

What the operations of data processing compute, apart from how the simulator does: the
second operand with the carry out of its shifter, the result, and the flags of the
arithmetic operations as facts about exact integers.
-/

namespace Armator.Spec

open Lib

/-! ## Fields -/

def opcode (ins : BitVec 32) : Nat := (ins.extractLsb' 21 4).toNat

def bitS (ins : BitVec 32) : Bool := ins.getLsbD 20

/-- The kind of a shift: LSL, LSR, ASR, ROR. -/
def shiftType (ins : BitVec 32) : BitVec 2 := ins.extractLsb' 5 2

def shiftImm (ins : BitVec 32) : Nat := (ins.extractLsb' 7 5).toNat

/-- The register that holds the amount of a shift by a register. -/
def shiftRs (ins : BitVec 32) : Nat := (ins.extractLsb' 8 4).toNat

def rotateImm (ins : BitVec 32) : Nat := (ins.extractLsb' 8 4).toNat

def imm8 (ins : BitVec 32) : BitVec 32 := (ins.extractLsb' 0 8).setWidth 32

theorem opcode_lt (ins : BitVec 32) : opcode ins < 16 := (ins.extractLsb' 21 4).isLt

/-! ## Second operands -/

/-- The carry out of a shift by a 5-bit immediate. -/
def shiftedCarry (type : BitVec 2) (amount : Nat) (carry : Bool) (value : BitVec 32) : Bool :=
  match type.toNat with
  | 0 => if amount = 0 then carry else value.getLsbD (32 - amount)
  | 1 | 2 => if amount = 0 then value.getLsbD 31 else value.getLsbD (amount - 1)
  | _ => if amount = 0 then value.getLsbD 0 else value.getLsbD (amount - 1)

/-- A register value shifted by an amount from a register, and the carry out. -/
def shiftedBy (type : BitVec 2) (amount : Nat) (carry : Bool) (value : BitVec 32) :
    BitVec 32 × Bool :=
  if amount = 0 then (value, carry)
  else
    match type.toNat with
    | 0 =>
      if amount < 32 then (value <<< amount, value.getLsbD (32 - amount))
      else if amount = 32 then (0, value.getLsbD 0)
      else (0, false)
    | 1 =>
      if amount < 32 then (value >>> amount, value.getLsbD (amount - 1))
      else if amount = 32 then (0, value.getLsbD 31)
      else (0, false)
    | 2 =>
      if amount < 32 then (value.sshiftRight amount, value.getLsbD (amount - 1))
      else (if value.getLsbD 31 then 0xFFFFFFFF else 0, value.getLsbD 31)
    | _ =>
      if amount % 32 = 0 then (value, value.getLsbD 31)
      else (value.rotateRight (amount % 32), value.getLsbD (amount % 32 - 1))

section ShiftedBy

variable {amount : Nat} {carry : Bool} {value : BitVec 32}

@[simp] theorem shiftedBy_zero (type : BitVec 2) : shiftedBy type 0 carry value = (value, carry) :=
  if_pos rfl

theorem shiftedBy_lsl (h : amount ≠ 0) :
    shiftedBy 0 amount carry value =
      if amount < 32 then (value <<< amount, value.getLsbD (32 - amount))
      else if amount = 32 then (0, value.getLsbD 0)
      else (0, false) := if_neg h

theorem shiftedBy_lsr (h : amount ≠ 0) :
    shiftedBy 1 amount carry value =
      if amount < 32 then (value >>> amount, value.getLsbD (amount - 1))
      else if amount = 32 then (0, value.getLsbD 31)
      else (0, false) := if_neg h

theorem shiftedBy_asr (h : amount ≠ 0) :
    shiftedBy 2 amount carry value =
      if amount < 32 then (value.sshiftRight amount, value.getLsbD (amount - 1))
      else (if value.getLsbD 31 then 0xFFFFFFFF else 0, value.getLsbD 31) := if_neg h

theorem shiftedBy_ror (h : amount ≠ 0) :
    shiftedBy 3 amount carry value =
      if amount % 32 = 0 then (value, value.getLsbD 31)
      else (value.rotateRight (amount % 32), value.getLsbD (amount % 32 - 1)) := if_neg h

end ShiftedBy

/-- The 8-bit immediate rotated right by twice the rotate field. -/
def rotatedImm (ins : BitVec 32) : BitVec 32 := (imm8 ins).rotateRight (2 * rotateImm ins)

/-! ## Results -/

/-- The result of an operation on the value `a` of `Rn`, the second operand `b` and the
carry flag; the operations 8 to 11 discard it. -/
def aluResult (opcode : Nat) (a b : BitVec 32) (carry : Bool) : BitVec 32 :=
  match opcode with
  | 0 | 8 => a &&& b
  | 1 | 9 => a ^^^ b
  | 2 | 10 => a - b
  | 3 => b - a
  | 4 | 11 => a + b
  | 5 => addWord a b carry
  | 6 => subWord a b (!carry)
  | 7 => subWord b a (!carry)
  | 12 => a ||| b
  | 13 => b
  | 14 => a &&& ~~~b
  | _ => ~~~b

/-! ## Flags -/

/-- The exact signed result does not fit in a word. -/
def signedOverflow (z : Int) : Bool := z < -2 ^ 31 ∨ 2 ^ 31 ≤ z

/-- The flags of `x + y + c`. -/
def sumFlags (x y : BitVec 32) (c : Bool) : Flags where
  n := (addWord x y c).msb
  z := addWord x y c = 0
  c := addCarry x y c
  v := signedOverflow (x.toInt + y.toInt + c.toNat)

/-- The flags of `x - y - d`; C is the absence of a borrow. -/
def differenceFlags (x y : BitVec 32) (d : Bool) : Flags where
  n := (subWord x y d).msb
  z := subWord x y d = 0
  c := !subBorrow x y d
  v := signedOverflow (x.toInt - y.toInt - d.toNat)

end Armator.Spec
