import Armator.Lib.Block
import Armator.Sim.Constants

/-!
# `registers.c`

The register file is one allocated block of `NB_REGISTER` words: R0 to R15, the
CPSR and the SPSR. A register number is an index into that block, so a number
past its end faults. The pointers are never null here, and the mode is an
argument that the accesses ignore.

Which numbers the accesses use is observed by a watch on the cells past R15, which
is not in the source. The program runs with a file that is not watched.
-/

namespace Armator.Sim

open Lib

def NB_REGISTER : Nat := 18
def CPSR_Reserved_Mask : BitVec 32 := 0x00F0FC00

structure Registers where
  value : Block (BitVec 32)
  alloc : value.size = NB_REGISTER
  /-- What an access by number to a cell past R15 is made to stop with -/
  watch : Option Fault
  deriving DecidableEq

namespace Registers

def get (r : Registers) (i : Nat) : BitVec 32 := r.value.get i

def set (r : Registers) (i : Nat) (v : BitVec 32) : Registers where
  value := r.value.set i v
  alloc := by rw [Block.size_set, r.alloc]
  watch := r.watch

/-- The same file with a watch that stops with `f`. -/
def watched (r : Registers) (f : Fault) : Registers := { r with watch := some f }

/-- The watch lets an access by the number `n` through. -/
def check (r : Registers) (n : Nat) : Except Fault Unit :=
  match r.watch with
  | some f => if 15 < n then .error f else .ok ()
  | none => .ok ()

/-- A register file holding `f i` in cell `i`. -/
def ofFn (f : Nat → BitVec 32) : Registers where
  value := ⟨(List.range NB_REGISTER).map f⟩
  alloc := by simp [Block.size]
  watch := none

end Registers

def registersCreate : Registers := .ofFn fun _ => 0

def registersGetMode (_r : Registers) : BitVec 8 := SVC

def registersModeHasSpsr (_r : Registers) (mode : BitVec 8) : Int :=
  if mode = USR ∨ mode = SYS then 0 else 1

def registersCurrentModeHasSpsr (r : Registers) : Int :=
  registersModeHasSpsr r (registersGetMode r)

def registersInAPrivilegedMode (r : Registers) : Int :=
  if r.get 16 &&& PrivMask ≠ 0 then 1 else -1

def registersRead (r : Registers) (reg _mode : BitVec 8) : Except Fault (BitVec 32) := do
  r.check reg.toNat
  r.value.load reg.toNat

def registersReadCpsr (r : Registers) : BitVec 32 := r.get 16 &&& ~~~CPSR_Reserved_Mask

/-- The function gives up on the SPSR: it returns `-1`. -/
def registersReadSpsr (_r : Registers) (_mode : BitVec 8) : BitVec 32 := 0xFFFFFFFF

def registersWrite (r : Registers) (reg _mode : BitVec 8) (value : BitVec 32) :
    Except Fault Registers := do
  r.check reg.toNat
  if reg.toNat < r.value.size then .ok (r.set reg.toNat value)
  else .error (.outOfBounds reg.toNat r.value.size)

def registersWriteCpsr (r : Registers) (value : BitVec 32) : Registers :=
  r.set 16 (value &&& ~~~CPSR_Reserved_Mask)

/-- The body of the function is commented out. -/
def registersWriteSpsr (r : Registers) (_mode : BitVec 8) (_value : BitVec 32) : Registers := r

section Access

variable {r : Registers} {i j : Nat} {v : BitVec 32} {reg mode : BitVec 8}

theorem Registers.get_set (h : i < NB_REGISTER) :
    (r.set i v).get j = if j = i then v else r.get j :=
  Block.get_set (by rw [r.alloc]; exact h)

@[simp] theorem Registers.watch_set : (r.set i v).watch = r.watch := rfl

theorem Registers.ext_get {r' : Registers} (hw : r.watch = r'.watch)
    (h : ∀ i < NB_REGISTER, r.get i = r'.get i) : r = r' := by
  obtain ⟨b, hb, w⟩ := r; obtain ⟨b', hb', w'⟩ := r'
  have : b = b' := Block.ext_get (hb.trans hb'.symm) fun i hi => h i (hb ▸ hi)
  subst this
  cases hw
  rfl

theorem Registers.check_of_lt (h : i < 16) : r.check i = .ok () := by
  unfold check
  split
  · exact if_neg (by omega)
  · rfl

theorem registersRead_of_lt (h : reg.toNat < 16) :
    registersRead r reg mode = .ok (r.get reg.toNat) := by
  unfold registersRead
  rw [Registers.check_of_lt h, ok_bind]
  exact Block.load_of_lt (by rw [r.alloc, NB_REGISTER]; omega)

theorem registersWrite_of_lt (h : reg.toNat < 16) :
    registersWrite r reg mode v = .ok (r.set reg.toNat v) := by
  unfold registersWrite
  rw [Registers.check_of_lt h, ok_bind]
  exact if_pos (by rw [r.alloc, NB_REGISTER]; omega)

@[simp] theorem registersReadCpsr_set (h : i < 16) :
    registersReadCpsr (r.set i v) = registersReadCpsr r := by
  rw [registersReadCpsr, Registers.get_set (by unfold NB_REGISTER; omega), if_neg (by omega)]
  rfl

theorem registersReadCpsr_write :
    registersReadCpsr (registersWriteCpsr r v) = v &&& ~~~CPSR_Reserved_Mask := by
  rw [registersReadCpsr, registersWriteCpsr, Registers.get_set (by decide), if_pos rfl,
    BitVec.and_assoc, BitVec.and_self]

theorem registersWriteCpsr_get (h : i ≠ 16) : (registersWriteCpsr r v).get i = r.get i := by
  rw [registersWriteCpsr, Registers.get_set (by decide), if_neg h]

end Access

end Armator.Sim
