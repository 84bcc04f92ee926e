import Armator.Lib.Block

/-!
# The breakpoint table of `gdb_protocol.c`

The fields `breakpoints` and `breakpoints_number` of `struct gdb_protocol_data` and the
three functions on them. Indices are `int`; an access at a negative index faults like one
past the end. The loops are recursions on their local variables.
-/

namespace Armator.Sim

open Lib

def MAX_BREAKPOINTS_NUMBER : Int := 1024

structure Breakpoints where
  breakpoints : Block (BitVec 32)
  breakpointsNumber : Int
  alloc : breakpoints.size = 1024
  deriving DecidableEq

namespace Breakpoints

/-- `breakpoints[i]` -/
def load (gdb : Breakpoints) (i : Int) : Except Fault (BitVec 32) :=
  if 0 ≤ i then gdb.breakpoints.load i.toNat
  else .error (.outOfBounds i.natAbs gdb.breakpoints.size)

def set (gdb : Breakpoints) (i : Nat) (v : BitVec 32) : Breakpoints where
  breakpoints := gdb.breakpoints.set i v
  breakpointsNumber := gdb.breakpointsNumber
  alloc := by rw [Block.size_set, gdb.alloc]

/-- `breakpoints[i] = v` -/
def store (gdb : Breakpoints) (i : Int) (v : BitVec 32) : Except Fault Breakpoints :=
  if 0 ≤ i ∧ i.toNat < gdb.breakpoints.size then .ok (gdb.set i.toNat v)
  else .error (.outOfBounds i.natAbs gdb.breakpoints.size)

/-- What `gdb_init_data` sets up, the array holding whatever `malloc` left in it. -/
def init (junk : Nat → BitVec 32) : Breakpoints where
  breakpoints := ⟨(List.range 1024).map junk⟩
  breakpointsNumber := 0
  alloc := by simp [Block.size]

end Breakpoints

theorem middle_bounds {b e : Int} (h : b < e) :
    b ≤ (b + e) >>> (1 : Nat) ∧ (b + e) >>> (1 : Nat) < e := by
  rw [Int.shiftRight_eq_div_pow]
  omega

/-- The loop of `gdb_find_breakpoint`. -/
def findLoop (gdb : Breakpoints) (address : BitVec 32) (first last : Int) :
    Except Fault Int :=
  if h : first < last then
    have := middle_bounds h
    let middle := (first + last) >>> (1 : Nat)
    match gdb.load middle with
    | .error f => .error f
    | .ok v =>
      if address.toNat < v.toNat then findLoop gdb address first middle
      else if v.toNat < address.toNat then findLoop gdb address (middle + 1) last
      else .ok middle
  else .ok (-1)
termination_by (last - first).toNat
decreasing_by all_goals omega

def gdbFindBreakpoint (gdb : Breakpoints) (address : BitVec 32) : Except Fault Int :=
  findLoop gdb address 0 gdb.breakpointsNumber

/-- The `while` loop of `gdb_add_breakpoint`: the table and the final `j`. -/
def addLoop (address : BitVec 32) (gdb : Breakpoints) (j : Int) :
    Except Fault (Breakpoints × Int) :=
  if 0 < j then
    match gdb.load (j - 1) with
    | .error f => .error f
    | .ok v =>
      if address.toNat < v.toNat then
        match gdb.store j v with
        | .error f => .error f
        | .ok gdb => addLoop address gdb (j - 1)
      else .ok (gdb, j)
  else .ok (gdb, j)
termination_by j.toNat
decreasing_by omega

def gdbAddBreakpoint (gdb : Breakpoints) (address : BitVec 32) :
    Except Fault (Int × Breakpoints) :=
  if gdb.breakpointsNumber < MAX_BREAKPOINTS_NUMBER then do
    let position ← gdbFindBreakpoint gdb address
    if position ≠ -1 then .ok (1, gdb)
    else do
      let j := gdb.breakpointsNumber
      let gdb := { gdb with breakpointsNumber := gdb.breakpointsNumber + 1 }
      let (gdb, j) ← addLoop address gdb j
      let gdb ← gdb.store j address
      .ok (1, gdb)
  else .ok (0, gdb)

/-- The `for` loop of `gdb_remove_breakpoint`. -/
def removeLoop (last : Int) (gdb : Breakpoints) (j : Int) : Except Fault Breakpoints :=
  if j < last then
    match gdb.load (j + 1) with
    | .error f => .error f
    | .ok v =>
      match gdb.store j v with
      | .error f => .error f
      | .ok gdb => removeLoop last gdb (j + 1)
  else .ok gdb
termination_by (last - j).toNat
decreasing_by omega

def gdbRemoveBreakpoint (gdb : Breakpoints) (address : BitVec 32) :
    Except Fault (Int × Breakpoints) := do
  let position ← gdbFindBreakpoint gdb address
  if position = -1 then .ok (0, gdb)
  else do
    let last := gdb.breakpointsNumber - 1
    let gdb := { gdb with breakpointsNumber := last }
    let gdb ← removeLoop last gdb position
    .ok (1, gdb)

end Armator.Sim
