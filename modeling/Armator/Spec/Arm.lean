import Mathlib.Data.Nat.Notation

/-!
# The instruction set

What the fields of an instruction mean, apart from how the simulator computes with
them: the condition table of `arm_constants.h`, the offset and the addressing of a
single transfer, the register list and the block of a multiple transfer, the target
of a branch.
-/

namespace Armator.Spec

/-! ## Conditions -/

/-- The flags of the CPSR. -/
structure Flags where
  n : Bool
  z : Bool
  c : Bool
  v : Bool
  deriving DecidableEq, Repr

/-- The condition table; the code `UN` is no condition. -/
def passes (cond : BitVec 4) (f : Flags) : Bool :=
  match cond.toNat with
  | 0x0 => f.z
  | 0x1 => !f.z
  | 0x2 => f.c
  | 0x3 => !f.c
  | 0x4 => f.n
  | 0x5 => !f.n
  | 0x6 => f.v
  | 0x7 => !f.v
  | 0x8 => f.c && !f.z
  | 0x9 => !f.c || f.z
  | 0xA => f.n == f.v
  | 0xB => f.n != f.v
  | 0xC => !f.z && f.n == f.v
  | 0xD => f.z || f.n != f.v
  | 0xE => true
  | _ => false

/-! ## Fields -/

def condField (ins : BitVec 32) : BitVec 4 := ins.extractLsb' 28 4

/-- Bits 27 to 25, the instruction class. -/
def kind (ins : BitVec 32) : BitVec 3 := ins.extractLsb' 25 3

def bitP (ins : BitVec 32) : Bool := ins.getLsbD 24
def bitU (ins : BitVec 32) : Bool := ins.getLsbD 23
def bitB (ins : BitVec 32) : Bool := ins.getLsbD 22
def bitW (ins : BitVec 32) : Bool := ins.getLsbD 21
def bitL (ins : BitVec 32) : Bool := ins.getLsbD 20

def rn (ins : BitVec 32) : Nat := (ins.extractLsb' 16 4).toNat
def rd (ins : BitVec 32) : Nat := (ins.extractLsb' 12 4).toNat
def rm (ins : BitVec 32) : Nat := (ins.extractLsb' 0 4).toNat

theorem rn_lt (ins : BitVec 32) : rn ins < 16 := (ins.extractLsb' 16 4).isLt

theorem rd_lt (ins : BitVec 32) : rd ins < 16 := (ins.extractLsb' 12 4).isLt

def imm12 (ins : BitVec 32) : BitVec 32 := (ins.extractLsb' 0 12).setWidth 32

/-! ## Single transfers -/

/-- A register value shifted by a 5-bit immediate; the amount 0 stands for no shift,
for 32, for 32 and for a rotation by one through the carry. -/
def shifted (type : BitVec 2) (amount : Nat) (carry : Bool) (value : BitVec 32) : BitVec 32 :=
  match type.toNat with
  | 0 => value <<< amount
  | 1 => if amount = 0 then 0 else value >>> amount
  | 2 => value.sshiftRight (if amount = 0 then 32 else amount)
  | _ =>
    if amount = 0 then (value >>> 1) ||| (if carry then 0x80000000 else 0)
    else value.rotateRight amount

/-- The offset of a transfer: the 12-bit immediate, or with bit 25 the shifted `Rm`. -/
def offset (read : Nat → BitVec 32) (carry : Bool) (ins : BitVec 32) : BitVec 32 :=
  if ins.getLsbD 25 then
    shifted (ins.extractLsb' 5 2) (ins.extractLsb' 7 5).toNat carry (read (rm ins))
  else imm12 ins

/-- The base moved by the offset, up or down. -/
def indexed (ins base off : BitVec 32) : BitVec 32 :=
  if bitU ins then base + off else base - off

def address (ins base off : BitVec 32) : BitVec 32 :=
  if bitP ins then indexed ins base off else base

/-- The base register after the transfer. -/
def newBase (ins base off : BitVec 32) : BitVec 32 :=
  if bitP ins && !bitW ins then base else indexed ins base off

/-! ## Multiple transfers -/

/-- The listed registers below `n`, lowest number first. -/
def listedBelow (n : Nat) (ins : BitVec 32) : List Nat :=
  (List.range n).filter fun i => ins.getLsbD i

theorem mem_listedBelow {n r : Nat} {ins : BitVec 32} :
    r ∈ listedBelow n ins ↔ r < n ∧ ins.getLsbD r = true := by
  rw [listedBelow, List.mem_filter, List.mem_range]

theorem length_listedBelow (n : Nat) (ins : BitVec 32) : (listedBelow n ins).length ≤ n := by
  have h := List.length_filter_le (fun i => ins.getLsbD i) (List.range n)
  rwa [List.length_range] at h

def regList (ins : BitVec 32) : List Nat := listedBelow 16 ins

/-- The size of the block, as a 32-bit number of bytes. -/
def blockSize (ins : BitVec 32) : BitVec 32 := BitVec.ofNat 32 (4 * (regList ins).length)

/-- The lowest address of the block: the modes IB, DB, IA and DA. -/
def blockStart (ins base : BitVec 32) : BitVec 32 :=
  match bitP ins, bitU ins with
  | true, true => base + 4
  | true, false => base - blockSize ins
  | false, true => base
  | false, false => base - blockSize ins + 4

/-- The base register after the transfer, when it is written back. -/
def blockBase (ins base : BitVec 32) : BitVec 32 :=
  if bitU ins then base + blockSize ins else base - blockSize ins

/-- The address of the word of the `i`-th lowest listed register. -/
def slot (ins base : BitVec 32) (i : Nat) : BitVec 32 :=
  blockStart ins base + BitVec.ofNat 32 (4 * i)

/-! ## Branches -/

def imm24 (ins : BitVec 32) : BitVec 24 := ins.extractLsb' 0 24

/-- Where a branch at address `pc` goes. -/
def target (ins pc : BitVec 32) : BitVec 32 := pc + 8 + 4 * (imm24 ins).signExtend 32

end Armator.Spec
