import Armator.Proof.Access

/-!
# The access contract of `memory.h`

`Access` is a call of one of the six accessors. Its contract is the one the
header asks for: the call succeeds exactly when the bytes it names are inside the
memory, and a call that does not succeed changes nothing. The bound tests of the
code are off by one and wrap around, so the contract holds of an access exactly
when the test is exact at it (`TestExact`).
-/

namespace Armator.Sim

open Lib

/-- A call of an accessor with its arguments; `value` of a read is the content of
the caller's variable before the call. -/
inductive Access where
  | readByte (address : BitVec 32) (value : BitVec 8)
  | readHalf (address : BitVec 32) (value : BitVec 16) (be : BitVec 8)
  | readWord (address : BitVec 32) (value : BitVec 32) (be : BitVec 8)
  | writeByte (address : BitVec 32) (value : BitVec 8)
  | writeHalf (address : BitVec 32) (value : BitVec 16) (be : BitVec 8)
  | writeWord (address : BitVec 32) (value : BitVec 32) (be : BitVec 8)

namespace Access

def address : Access → BitVec 32
  | readByte a _ | readHalf a _ _ | readWord a _ _ => a
  | writeByte a _ | writeHalf a _ _ | writeWord a _ _ => a

def width : Access → Nat
  | readByte .. | writeByte .. => 1
  | readHalf .. | writeHalf .. => 2
  | readWord .. | writeWord .. => 4

/-- The caller's variable before the call. -/
def value : Access → BitVec 32
  | readByte _ v | writeByte _ v => v.setWidth 32
  | readHalf _ v _ | writeHalf _ v _ => v.setWidth 32
  | readWord _ v _ | writeWord _ v _ => v

/-- The return value, the caller's variable and the memory after the call. -/
def run (mem : Memory) : Access → Except Fault (Int × BitVec 32 × Memory)
  | readByte a v => do let (r, v) ← memoryReadByte mem a v; .ok (r, v.setWidth 32, mem)
  | readHalf a v be => do let (r, v) ← memoryReadHalf mem a v be; .ok (r, v.setWidth 32, mem)
  | readWord a v be => do let (r, v) ← memoryReadWord mem a v be; .ok (r, v, mem)
  | writeByte a v => do let (r, mem) ← memoryWriteByte mem a v; .ok (r, v.setWidth 32, mem)
  | writeHalf a v be => do
    let (r, mem) ← memoryWriteHalf mem a v be
    .ok (r, v.setWidth 32, mem)
  | writeWord a v be => do let (r, mem) ← memoryWriteWord mem a v be; .ok (r, v, mem)

/-- The bytes a write stores, in address order; a read stores none. -/
def stored : Access → List (BitVec 8)
  | readByte .. | readHalf .. | readWord .. => []
  | writeByte _ v => [v]
  | writeHalf _ v be => split 2 (be ≠ 0) v.toNat
  | writeWord _ v be => split 4 (be ≠ 0) v.toNat

/-- The caller's variable after a successful call that finds the bytes `bs`. -/
def answer (bs : List (BitVec 8)) : Access → BitVec 32
  | readByte .. => (assemble 8 true bs).setWidth 32
  | readHalf _ _ be => (assemble 16 (be ≠ 0) bs).setWidth 32
  | readWord _ _ be => assemble 32 (be ≠ 0) bs
  | writeByte _ v => v.setWidth 32
  | writeHalf _ v _ => v.setWidth 32
  | writeWord _ v _ => v

variable {mem : Memory} {x : Access}

theorem width_pos (x : Access) : 0 < x.width := by cases x <;> simp [width]

theorem width_le (x : Access) : x.width ≤ 4 := by cases x <;> simp [width]

theorem run_of_rejects (h : mem.Rejects x.address x.width) :
    x.run mem = .ok (-1, x.value, mem) := by
  cases x with
  | readByte a v => rw [run, memoryReadByte_of_rejects (by exact h)]; rfl
  | readHalf a v be => rw [run, memoryReadHalf_of_rejects (by exact h)]; rfl
  | readWord a v be => rw [run, memoryReadWord_of_rejects (by exact h)]; rfl
  | writeByte a v => rw [run, memoryWriteByte_eq, guardedWrite_of_rejects (by exact h)]; rfl
  | writeHalf a v be =>
    rw [run, memoryWriteHalf_eq, guardedWrite_of_rejects (by rw [length_split]; exact h)]; rfl
  | writeWord a v be =>
    rw [run, memoryWriteWord_eq, guardedWrite_of_rejects (by rw [length_split]; exact h)]; rfl

theorem run_of_holds (h : mem.Holds x.address x.width) :
    x.run mem =
      .ok (0, x.answer (mem.bytes x.address x.width), mem.write x.address x.stored) := by
  cases x with
  | readByte a v =>
    rw [run, memoryReadByte_of_holds (by exact h)]
    simp [answer, address, width, stored, Memory.write, Memory.bytes, span, byteIndex_zero,
      assemble, ordered]
  | readHalf a v be => rw [run, memoryReadHalf_of_holds (by exact h)]; rfl
  | readWord a v be => rw [run, memoryReadWord_of_holds (by exact h)]; rfl
  | writeByte a v =>
    rw [run, memoryWriteByte_eq, guardedWrite_of_holds (by simp) (by exact h)]; rfl
  | writeHalf a v be =>
    rw [run, memoryWriteHalf_eq, guardedWrite_of_holds (by simp) (by rw [length_split]; exact h)]
    rfl
  | writeWord a v be =>
    rw [run, memoryWriteWord_eq, guardedWrite_of_holds (by simp) (by rw [length_split]; exact h)]
    rfl

theorem run_fault (hr : ¬ mem.Rejects x.address x.width) (h : ¬ mem.Holds x.address x.width) :
    ∃ f, x.run mem = .error f := by
  cases x with
  | readByte a v =>
    obtain ⟨f, hf⟩ := memoryReadByte_fault (a := a) v hr h
    exact ⟨f, by rw [run, hf, error_bind]⟩
  | readHalf a v be =>
    obtain ⟨f, hf⟩ := memoryReadHalf_fault (a := a) v be hr h
    exact ⟨f, by rw [run, hf, error_bind]⟩
  | readWord a v be =>
    obtain ⟨f, hf⟩ := memoryReadWord_fault (a := a) v be hr h
    exact ⟨f, by rw [run, hf, error_bind]⟩
  | writeByte a v =>
    obtain ⟨f, hf⟩ := guardedWrite_fault (a := a) [v] hr h
    exact ⟨f, by rw [run, memoryWriteByte_eq, hf, error_bind]⟩
  | writeHalf a v be =>
    obtain ⟨f, hf⟩ := guardedWrite_fault (a := a) (split 2 (be ≠ 0) v.toNat)
      (by rw [length_split]; exact hr) (by rw [length_split]; exact h)
    exact ⟨f, by rw [run, memoryWriteHalf_eq, hf, error_bind]⟩
  | writeWord a v be =>
    obtain ⟨f, hf⟩ := guardedWrite_fault (a := a) (split 4 (be ≠ 0) v.toNat)
      (by rw [length_split]; exact hr) (by rw [length_split]; exact h)
    exact ⟨f, by rw [run, memoryWriteWord_eq, hf, error_bind]⟩

/-- The call returns 0 exactly when its bytes are inside the memory, touching
indices of the block only; every other call returns `-1` and leaves the memory and
the caller's variable as they were. -/
def Contract (mem : Memory) (x : Access) : Prop :=
  ((∃ v mem', x.run mem = .ok (0, v, mem')) ↔ x.address.toNat + x.width ≤ mem.taille) ∧
    (x.address.toNat + x.width ≤ mem.taille → mem.Holds x.address x.width) ∧
    (mem.taille < x.address.toNat + x.width → x.run mem = .ok (-1, x.value, mem))

/-- The bound test fires on an access of `k` bytes at `a` that does not fit in `n`
bytes: the access does not end one byte past the end, and if its last address wraps
around, the wrapped address is past the end too. -/
def TestExact (n a k : Nat) : Prop :=
  (a + k ≤ 2 ^ 32 → a + k ≠ n + 1) ∧ (2 ^ 32 < a + k → a + k ≤ n ∨ n + 2 ^ 32 + 1 < a + k)

instance (n a k : Nat) : Decidable (TestExact n a k) := inferInstanceAs (Decidable (_ ∧ _))

theorem testExact_iff {a : BitVec 32} {k : Nat} (hk : 0 < k) (hk' : k ≤ 4) :
    TestExact mem.taille a.toNat k ↔ (mem.taille < a.toNat + k → mem.Rejects a k) := by
  have ha := a.isLt
  rw [TestExact, Memory.Rejects, byteIndex_eq]
  omega

theorem holds_of_le {a : BitVec 32} {k : Nat} (h : a.toNat + k ≤ mem.taille) :
    mem.Holds a k := fun i hi => by
  rw [byteIndex_eq]
  exact lt_of_le_of_lt (Nat.mod_le _ _) (by omega)

/-- **The access contract**: an accessor meets it exactly where its bound test is exact. -/
theorem contract_iff_testExact (mem : Memory) (x : Access) :
    Contract mem x ↔ TestExact mem.taille x.address.toNat x.width := by
  rw [testExact_iff x.width_pos x.width_le]
  constructor
  · rintro ⟨-, -, hfail⟩ hn
    by_contra hr
    have hfail := hfail hn
    by_cases h : mem.Holds x.address x.width
    · rw [run_of_holds h] at hfail
      cases hfail
    · obtain ⟨f, hf⟩ := run_fault hr h
      rw [hf] at hfail
      cases hfail
  · intro hr
    refine ⟨⟨?_, fun hle => ⟨_, _, run_of_holds (holds_of_le hle)⟩⟩, holds_of_le,
      fun hn => run_of_rejects (hr hn)⟩
    rintro ⟨v, mem', hrun⟩
    by_contra hn
    rw [run_of_rejects (hr (Nat.not_le.mp hn))] at hrun
    cases hrun

/-- The byte read one past the end of a four-byte memory is let through. -/
theorem not_contract_one_past_end :
    ¬ Contract (.ofBytes [0x11, 0x22, 0x33, 0x44]) (.readByte 4 0) := by
  rintro ⟨-, -, hfail⟩
  exact absurd (hfail (by decide)) (by decide)

end Access

end Armator.Sim
