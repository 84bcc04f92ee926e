import Armator.Sim.Util

/-!
# `memory.c`

A memory is an allocated block of bytes with the size it was created with. The
bound tests add to the address in 32 bits and compare with the `size_t` size; an
index is the 32-bit address plus an offset. The reads shift the bytes into the
caller's variable, so they take its old content and return the new one.
-/

namespace Armator.Sim

open Lib

/-- `struct memory_data`: the bytes and the size they were allocated with. -/
structure Memory where
  value : Block (BitVec 8)
  taille : Nat
  alloc : value.size = taille
  deriving DecidableEq

namespace Memory

/-- A memory with the given bytes. -/
def ofBytes (bytes : List (BitVec 8)) : Memory := ⟨⟨bytes⟩, bytes.length, rfl⟩

def get (mem : Memory) (i : Nat) : BitVec 8 := mem.value.get i

def set (mem : Memory) (i : Nat) (v : BitVec 8) : Memory where
  value := mem.value.set i v
  taille := mem.taille
  alloc := by rw [Block.size_set, mem.alloc]

/-- `mem->value[i]` -/
def load (mem : Memory) (i : BitVec 32) : Except Fault (BitVec 8) := mem.value.load i.toNat

/-- `mem->value[i] = v` -/
def store (mem : Memory) (i : BitVec 32) (v : BitVec 8) : Except Fault Memory :=
  if i.toNat < mem.value.size then .ok (mem.set i.toNat v)
  else .error (.outOfBounds i.toNat mem.value.size)

end Memory

/-- `malloc` leaves `contents` in the block. -/
def memoryCreate (contents : Nat → BitVec 8) (size : Nat) : Memory where
  value := ⟨(List.range size).map contents⟩
  taille := size
  alloc := by simp [Block.size]

def memoryGetSize (mem : Memory) : Nat := mem.taille

def memoryReadByte (mem : Memory) (address : BitVec 32) (value : BitVec 8) :
    Except Fault (Int × BitVec 8) :=
  if memoryGetSize mem < address.toNat then .ok (-1, value)
  else do
    let value ← mem.load address
    .ok (0, value)

/-- The loop of the wider reads: `k` bytes shifted into `value`. -/
def shiftIn {w : Nat} (mem : Memory) (address : BitVec 32) (k : Nat) (value : BitVec w) :
    Except Fault (BitVec w) :=
  (List.range k).foldlM (fun value i => do
    let byte ← mem.load (address + BitVec.ofNat 32 i)
    .ok ((value <<< 8) ||| byte.setWidth w)) value

def memoryReadHalf (mem : Memory) (address : BitVec 32) (value : BitVec 16) (be : BitVec 8) :
    Except Fault (Int × BitVec 16) :=
  if memoryGetSize mem < (address + 1).toNat then .ok (-1, value)
  else do
    let value ← shiftIn mem address 2 value
    .ok (0, if be = 0 then reverse2 value else value)

def memoryReadWord (mem : Memory) (address : BitVec 32) (value : BitVec 32) (be : BitVec 8) :
    Except Fault (Int × BitVec 32) :=
  if memoryGetSize mem < (address + 3).toNat then .ok (-1, value)
  else do
    let value ← shiftIn mem address 4 value
    .ok (0, if be = 0 then reverse4 value else value)

def memoryWriteByte (mem : Memory) (address : BitVec 32) (value : BitVec 8) :
    Except Fault (Int × Memory) :=
  if memoryGetSize mem < address.toNat then .ok (-1, mem)
  else do
    let mem ← mem.store address value
    .ok (0, mem)

def memoryWriteHalf (mem : Memory) (address : BitVec 32) (value : BitVec 16) (be : BitVec 8) :
    Except Fault (Int × Memory) :=
  if memoryGetSize mem < (address + 1).toNat then .ok (-1, mem)
  else if be ≠ 0 then do
    let mem ← mem.store address ((value >>> 8).setWidth 8)
    let mem ← mem.store (address + 1) (value.setWidth 8)
    .ok (0, mem)
  else do
    let mem ← mem.store address (value.setWidth 8)
    let mem ← mem.store (address + 1) ((value >>> 8).setWidth 8)
    .ok (0, mem)

def memoryWriteWord (mem : Memory) (address : BitVec 32) (value : BitVec 32) (be : BitVec 8) :
    Except Fault (Int × Memory) :=
  if memoryGetSize mem < (address + 3).toNat then .ok (-1, mem)
  else if be ≠ 0 then do
    let mem ← mem.store address ((value >>> 24).setWidth 8)
    let mem ← mem.store (address + 1) ((value >>> 16).setWidth 8)
    let mem ← mem.store (address + 2) ((value >>> 8).setWidth 8)
    let mem ← mem.store (address + 3) (value.setWidth 8)
    .ok (0, mem)
  else do
    let mem ← mem.store address (value.setWidth 8)
    let mem ← mem.store (address + 1) ((value >>> 8).setWidth 8)
    let mem ← mem.store (address + 2) ((value >>> 16).setWidth 8)
    let mem ← mem.store (address + 3) ((value >>> 24).setWidth 8)
    .ok (0, mem)

end Armator.Sim
