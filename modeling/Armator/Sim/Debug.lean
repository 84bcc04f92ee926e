import Armator.Lib.Block

/-!
# The debugged files of `debug.c`

The array `debugged_files` with its count `nb_debugged_files`, and the two functions on
them. The array holds the pointers it is given; a `Name` is the string behind one, which
stays as it is while the program runs. Before a cell is stored it is `NULL`.
-/

namespace Armator.Sim

open Lib

def MAX_FILES_NUMBER : Int := 64

/-- The string at a `char *`, without its NUL. -/
structure Name where
  chars : List (BitVec 8)
  noNul : 0 ∉ chars

/-- The difference of the first two `unsigned char` that differ, the NUL among them. -/
def strcmp : List (BitVec 8) → List (BitVec 8) → Int
  | [], [] => 0
  | [], d :: _ => -(d.toNat : Int)
  | c :: _, [] => c.toNat
  | c :: s, d :: t => if c = d then strcmp s t else (c.toNat : Int) - d.toNat

structure Debug where
  debuggedFiles : Block (Option Name)
  nbDebuggedFiles : Int
  alloc : debuggedFiles.size = 64

namespace Debug

/-- `debugged_files[i]` -/
def load (debug : Debug) (i : Int) : Except Fault (Option Name) :=
  if 0 ≤ i then debug.debuggedFiles.load i.toNat
  else .error (.outOfBounds i.natAbs debug.debuggedFiles.size)

def set (debug : Debug) (i : Nat) (p : Option Name) : Debug where
  debuggedFiles := debug.debuggedFiles.set i p
  nbDebuggedFiles := debug.nbDebuggedFiles
  alloc := by rw [Block.size_set, debug.alloc]

/-- `debugged_files[i] = p` -/
def store (debug : Debug) (i : Int) (p : Option Name) : Except Fault Debug :=
  if 0 ≤ i ∧ i.toNat < debug.debuggedFiles.size then .ok (debug.set i.toNat p)
  else .error (.outOfBounds i.natAbs debug.debuggedFiles.size)

/-- `strcmp(debugged_files[i], name)`; behind `NULL` there is nothing to read. -/
def compare (debug : Debug) (i : Int) (name : Name) : Except Fault Int := do
  match ← debug.load i with
  | none => .error (.outOfBounds 0 0)
  | some file => .ok (strcmp file.chars name.chars)

/-- The program starts with no file. -/
def init : Debug where
  debuggedFiles := ⟨List.replicate 64 none⟩
  nbDebuggedFiles := 0
  alloc := List.length_replicate

end Debug

/-- The `while` loop of `add_debug_to`: the final `i`. -/
def positionLoop (name : Name) (debug : Debug) (i : Int) : Except Fault Int :=
  if i < debug.nbDebuggedFiles ∧ i < MAX_FILES_NUMBER then
    match debug.compare i name with
    | .error f => .error f
    | .ok result => if result < 0 then positionLoop name debug (i + 1) else .ok i
  else .ok i
termination_by (MAX_FILES_NUMBER - i).toNat
decreasing_by omega

/-- The `for` loop of `add_debug_to`. -/
def shiftLoop (i : Int) (debug : Debug) (j : Int) : Except Fault Debug :=
  if i < j then
    match debug.load (j - 1) with
    | .error f => .error f
    | .ok p =>
      match debug.store j p with
      | .error f => .error f
      | .ok debug => shiftLoop i debug (j - 1)
  else .ok debug
termination_by (j - i).toNat
decreasing_by omega

def addDebugTo (debug : Debug) (name : Name) : Except Fault Debug := do
  let i ← positionLoop name debug 0
  if MAX_FILES_NUMBER ≤ i then .ok debug
  else do
    let debug ← shiftLoop i debug debug.nbDebuggedFiles
    let debug ← debug.store i (some name)
    .ok { debug with nbDebuggedFiles := debug.nbDebuggedFiles + 1 }

theorem tdiv_bounds {b e : Int} (h : b < e) : b ≤ (b + e).tdiv 2 ∧ (b + e).tdiv 2 ≤ e := by
  rw [Int.tdiv_eq_ediv, show Int.sign 2 = 1 from rfl]
  split <;> omega

/-- The loop of `__is_debugged` and the test behind it. -/
def searchLoop (debug : Debug) (name : Name) (first last : Int) : Except Fault Int :=
  if h : first < last then
    have := tdiv_bounds h
    let middle := (first + last).tdiv 2
    match debug.compare middle name with
    | .error f => .error f
    | .ok result =>
      if result < 0 then searchLoop debug name (middle + 1) last
      else if 0 < result then searchLoop debug name first (middle - 1)
      else .ok 1
  else if first = last then
    match debug.compare first name with
    | .error f => .error f
    | .ok result => .ok (if result = 0 then 1 else 0)
  else .ok 0
termination_by (last - first).toNat
decreasing_by all_goals omega

def isDebugged (debug : Debug) (name : Name) : Except Fault Int :=
  searchLoop debug name 0 (debug.nbDebuggedFiles - 1)

end Armator.Sim
