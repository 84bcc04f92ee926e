import Mathlib.Data.Nat.Digits.Lemmas
import Mathlib.Tactic.Ring

/-!
# Byte orders

`leVal` is the number a list of bytes encodes with its first byte least
significant, `leBytes k` the `k` bytes of a number in that order; the other
byte order is the reversed list. `assemble` and `split` choose the order by a
flag: with `be` set the first byte is the most significant one. `pushByte` is a
step of a read that shifts the bytes into an accumulator.
-/

namespace Armator.Lib

/-- The number whose base-256 digits are `bs`, least significant first. -/
def leVal (bs : List (BitVec 8)) : Nat := Nat.ofDigits 256 (bs.map BitVec.toNat)

/-- The `k` low bytes of `v`, least significant first. -/
def leBytes : Nat → Nat → List (BitVec 8)
  | 0, _ => []
  | k + 1, v => BitVec.ofNat 8 v :: leBytes k (v / 256)

@[simp] theorem leVal_nil : leVal [] = 0 := rfl

@[simp] theorem leVal_cons (b : BitVec 8) (bs : List (BitVec 8)) :
    leVal (b :: bs) = b.toNat + 256 * leVal bs := by
  simp [leVal, Nat.ofDigits_cons]

theorem leVal_append (bs cs : List (BitVec 8)) :
    leVal (bs ++ cs) = leVal bs + 256 ^ bs.length * leVal cs := by
  simp [leVal, Nat.ofDigits_append]

theorem leVal_lt (bs : List (BitVec 8)) : leVal bs < 256 ^ bs.length := by
  induction bs with
  | nil => simp
  | cons b bs ih =>
    have := b.isLt
    simp only [leVal_cons, List.length_cons, pow_succ]
    omega

@[simp] theorem length_leBytes (k v : Nat) : (leBytes k v).length = k := by
  induction k generalizing v with
  | zero => rfl
  | succ k ih => simp [leBytes, ih]

theorem leVal_leBytes (k v : Nat) : leVal (leBytes k v) = v % 256 ^ k := by
  induction k generalizing v with
  | zero => simp [leBytes, Nat.mod_one]
  | succ k ih =>
    rw [leBytes, leVal_cons, ih, BitVec.toNat_ofNat, pow_succ' 256, Nat.mod_mul]

theorem leBytes_leVal (bs : List (BitVec 8)) : leBytes bs.length (leVal bs) = bs := by
  induction bs with
  | nil => rfl
  | cons b bs ih =>
    have hb := b.isLt
    rw [leVal_cons, List.length_cons, leBytes]
    congr 1
    · apply BitVec.eq_of_toNat_eq
      rw [BitVec.toNat_ofNat]
      omega
    · rw [show (b.toNat + 256 * leVal bs) / 256 = leVal bs by omega, ih]

/-- The bytes `bs` in increasing significance, given the byte order they stand in. -/
def ordered (be : Bool) (bs : List (BitVec 8)) : List (BitVec 8) := if be then bs.reverse else bs

/-- The `w`-bit value of bytes in address order. -/
def assemble (w : Nat) (be : Bool) (bs : List (BitVec 8)) : BitVec w :=
  BitVec.ofNat w (leVal (ordered be bs))

/-- The bytes of a value in address order. -/
def split (k : Nat) (be : Bool) (v : Nat) : List (BitVec 8) := ordered be (leBytes k v)

@[simp] theorem length_ordered (be : Bool) (bs : List (BitVec 8)) :
    (ordered be bs).length = bs.length := by
  cases be <;> simp [ordered]

@[simp] theorem length_split (k : Nat) (be : Bool) (v : Nat) : (split k be v).length = k := by
  simp [split]

@[simp] theorem ordered_ordered (be : Bool) (bs : List (BitVec 8)) :
    ordered be (ordered be bs) = bs := by
  cases be <;> simp [ordered]

theorem assemble_split {k w : Nat} (hw : w = 8 * k) (be : Bool) (v : BitVec w) :
    assemble w be (split k be v.toNat) = v := by
  subst hw
  apply BitVec.eq_of_toNat_eq
  rw [assemble, split, ordered_ordered, leVal_leBytes, BitVec.toNat_ofNat,
    show 256 ^ k = 2 ^ (8 * k) by rw [pow_mul]; norm_num, Nat.mod_mod, Nat.mod_eq_of_lt v.isLt]

theorem assemble_eq_iff {k w : Nat} (hw : w = 8 * k) (be : Bool) {bs : List (BitVec 8)}
    (hl : bs.length = k) (v : BitVec w) :
    assemble w be bs = v ↔ bs = split k be v.toNat := by
  constructor
  · rintro rfl
    subst hw
    have hlt : leVal (ordered be bs) < 2 ^ (8 * k) := by
      have h := leVal_lt (ordered be bs)
      rwa [length_ordered, hl, show 256 ^ k = 2 ^ (8 * k) by rw [pow_mul]; norm_num] at h
    have hbytes := leBytes_leVal (ordered be bs)
    rw [length_ordered, hl] at hbytes
    rw [split, assemble, BitVec.toNat_ofNat, Nat.mod_eq_of_lt hlt, hbytes, ordered_ordered]
  · rintro rfl
    exact assemble_split hw be v

theorem assemble_not (w : Nat) (be : Bool) (bs : List (BitVec 8)) :
    assemble w (!be) bs = assemble w be bs.reverse := by
  cases be <;> simp [assemble, ordered]

/-- The value with its `k` bytes in the opposite order. -/
def swapBytes {w : Nat} (k : Nat) (v : BitVec w) : BitVec w := assemble w true (leBytes k v.toNat)

theorem assemble_split_of_ne {k w : Nat} {be be' : Bool} (h : be ≠ be') (v : BitVec w) :
    assemble w be' (split k be v.toNat) = swapBytes k v := by
  cases be <;> cases be'
  · exact absurd rfl h
  · rfl
  · rw [swapBytes, split, ← Bool.not_true, assemble_not]
    simp [ordered]
  · exact absurd rfl h

/-! ## Shifting bytes in -/

/-- One step of a read that shifts bytes into an accumulator. -/
def pushByte {w : Nat} (v : BitVec w) (b : BitVec 8) : BitVec w := (v <<< 8) ||| b.setWidth w

theorem pushByte_toNat {w : Nat} (hw : 8 ≤ w) (v : BitVec w) (b : BitVec 8) :
    (pushByte v b).toNat = (v.toNat * 256 + b.toNat) % 2 ^ w := by
  obtain ⟨d, rfl⟩ := Nat.exists_eq_add_of_le hw
  have hb := b.isLt
  have hlt : v.toNat % 2 ^ d < 2 ^ d := Nat.mod_lt _ (Nat.two_pow_pos d)
  have hp : 2 ^ (8 + d) = 256 * 2 ^ d := pow_add 2 8 d
  have hdiv := Nat.div_add_mod v.toNat (2 ^ d)
  have hv : (v <<< 8).toNat = (v.toNat % 2 ^ d) <<< 8 := by
    rw [BitVec.toNat_shiftLeft, Nat.shiftLeft_eq, Nat.shiftLeft_eq, hp, Nat.mul_comm v.toNat,
      Nat.mul_mod_mul_left, Nat.mul_comm]
  have hs : v.toNat * 256 + b.toNat =
      (v.toNat % 2 ^ d) * 256 + b.toNat + 256 * 2 ^ d * (v.toNat / 2 ^ d) := by
    calc v.toNat * 256 + b.toNat
      _ = (2 ^ d * (v.toNat / 2 ^ d) + v.toNat % 2 ^ d) * 256 + b.toNat := by rw [hdiv]
      _ = _ := by ring
  have hsum : v.toNat % 2 ^ d * 256 + b.toNat < 256 * 2 ^ d := by omega
  rw [pushByte, BitVec.toNat_or, hv, BitVec.toNat_setWidth,
    Nat.mod_eq_of_lt (show b.toNat < 2 ^ (8 + d) by omega), ← Nat.shiftLeft_add_eq_or_of_lt hb,
    Nat.shiftLeft_eq, hs, hp, Nat.add_mul_mod_self_left, Nat.mod_eq_of_lt hsum]

theorem foldl_pushByte_toNat {w : Nat} (hw : 8 ≤ w) (v : BitVec w) (bs : List (BitVec 8)) :
    (bs.foldl pushByte v).toNat = (v.toNat * 256 ^ bs.length + leVal bs.reverse) % 2 ^ w := by
  induction bs generalizing v with
  | nil => simp [Nat.mod_eq_of_lt v.isLt]
  | cons b bs ih =>
    rw [List.foldl_cons, ih, pushByte_toNat hw, List.reverse_cons, leVal_append, List.length_cons,
      List.length_reverse, leVal_cons, leVal_nil, Nat.add_mod, Nat.mod_mul_mod, ← Nat.add_mod]
    congr 1
    ring

/-- A full width of bytes shifted in pushes the accumulator's old content out. -/
theorem foldl_pushByte {k : Nat} (hk : 0 < k) (v : BitVec (8 * k)) {bs : List (BitVec 8)}
    (hl : bs.length = k) : bs.foldl pushByte v = assemble (8 * k) true bs := by
  apply BitVec.eq_of_toNat_eq
  rw [foldl_pushByte_toNat (by omega), assemble, ordered, if_pos rfl, BitVec.toNat_ofNat, hl,
    show 256 ^ k = 2 ^ (8 * k) by rw [pow_mul]; norm_num, Nat.mul_add_mod_self_right]

end Armator.Lib
