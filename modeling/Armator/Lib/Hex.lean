import Mathlib.Algebra.BigOperators.Group.List.Basic
import Mathlib.Data.Nat.Digits.Lemmas
import Mathlib.Tactic.IntervalCases

/-!
# Hexadecimal text

Bytes are ASCII codes. `hexText k v` is `v` in `k` lower-case digits, `hexVal` the number a
list of digits of either case stands for.
-/

namespace Armator.Lib

/-- The lower-case digit of `d`. -/
def hexDigit (d : Nat) : BitVec 8 := BitVec.ofNat 8 (if d < 10 then 48 + d else 87 + d)

/-- What a digit of either case stands for. -/
def digitVal (c : BitVec 8) : Option Nat :=
  if 48 ≤ c.toNat ∧ c.toNat ≤ 57 then some (c.toNat - 48)
  else if 97 ≤ c.toNat ∧ c.toNat ≤ 102 then some (c.toNat - 87)
  else if 65 ≤ c.toNat ∧ c.toNat ≤ 70 then some (c.toNat - 55)
  else none

def isHex (c : BitVec 8) : Bool := (digitVal c).isSome

/-- The `k` low digits of `v`, most significant first. -/
def hexText : Nat → Nat → List (BitVec 8)
  | 0, _ => []
  | k + 1, v => hexText k (v / 16) ++ [hexDigit (v % 16)]

/-- The number with the digits `ds`, most significant first. -/
def hexVal (ds : List (BitVec 8)) : Nat := ds.foldl (fun n c => 16 * n + (digitVal c).getD 0) 0

section Digits

variable {d k v : Nat} {c : BitVec 8}

theorem digitVal_hexDigit (h : d < 16) : digitVal (hexDigit d) = some d := by
  revert d
  decide

theorem isHex_hexDigit (h : d < 16) : isHex (hexDigit d) = true := by
  rw [isHex, digitVal_hexDigit h]
  rfl

theorem digitVal_lt (h : digitVal c = some d) : d < 16 := by
  unfold digitVal at h
  split at h
  · cases h; omega
  · split at h
    · cases h; omega
    · split at h
      · cases h; omega
      · cases h

@[simp] theorem length_hexText (k v : Nat) : (hexText k v).length = k := by
  induction k generalizing v with
  | zero => rfl
  | succ k ih => rw [hexText, List.length_append, ih, List.length_singleton]

theorem isHex_of_mem_hexText (h : c ∈ hexText k v) : isHex c = true := by
  induction k generalizing v with
  | zero => exact absurd h List.not_mem_nil
  | succ k ih =>
    rcases List.mem_append.mp h with h | h
    · exact ih h
    · rw [List.mem_singleton.mp h]
      exact isHex_hexDigit (Nat.mod_lt v (by decide))

theorem hexVal_append_singleton (ds : List (BitVec 8)) (c : BitVec 8) :
    hexVal (ds ++ [c]) = 16 * hexVal ds + (digitVal c).getD 0 := by
  rw [hexVal, List.foldl_append]
  rfl

theorem hexVal_hexText (k v : Nat) : hexVal (hexText k v) = v % 16 ^ k := by
  induction k generalizing v with
  | zero => rw [Nat.pow_zero, Nat.mod_one]; rfl
  | succ k ih =>
    rw [hexText, hexVal_append_singleton, ih, digitVal_hexDigit (Nat.mod_lt v (by decide)),
      Option.getD_some, Nat.pow_succ', Nat.mod_mul]
    omega

theorem hexVal_hexText_of_lt (h : v < 16 ^ k) : hexVal (hexText k v) = v := by
  rw [hexVal_hexText, Nat.mod_eq_of_lt h]

theorem hexVal_lt (ds : List (BitVec 8)) : hexVal ds < 16 ^ ds.length := by
  induction ds using List.reverseRecOn with
  | nil => decide
  | append_singleton ds c ih =>
    have hd : (digitVal c).getD 0 < 16 := by
      cases h : digitVal c with
      | none => decide
      | some d => exact digitVal_lt h
    rw [hexVal_append_singleton, List.length_append, List.length_singleton, Nat.pow_succ]
    omega

/-- A digit is neither a control character, nor a blank, nor punctuation. -/
theorem hex_range (h : isHex c = true) : 48 ≤ c.toNat ∧ c.toNat ≤ 102 ∧ c.toNat ≠ 88 := by
  unfold isHex digitVal at h
  split at h
  · omega
  · split at h
    · omega
    · split at h
      · omega
      · cases h

end Digits

end Armator.Lib
