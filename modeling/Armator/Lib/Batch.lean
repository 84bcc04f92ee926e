import Mathlib.Algebra.Order.Floor.Div

/-!
# Sending in batches

Items are collected in a buffer of `B` places. The buffer is sent when an item finds it full,
and once more at the end if there is anything in it: `k` items make `⌈k / B⌉` batches.
-/

namespace Armator.Lib

/-- The number of batches sent and of items collected since. -/
structure Batch where
  sent : Nat
  pending : Nat

namespace Batch

/-- One more item. -/
def push (B : Nat) (s : Batch) : Batch :=
  if B ≤ s.pending then ⟨s.sent + 1, 1⟩ else ⟨s.sent, s.pending + 1⟩

/-- The end of the items. -/
def close (s : Batch) : Batch := if s.pending = 0 then s else ⟨s.sent + 1, 0⟩

/-- `k` items have come: the batches sent were full, and what is left is the last batch. -/
structure Counts (B k : Nat) (s : Batch) : Prop where
  total : k = B * s.sent + s.pending
  le : s.pending ≤ B
  pos : 0 < k → 0 < s.pending

section Counts

variable {B k : Nat} {s : Batch}

theorem counts_pending (h : k ≤ B) : Counts B k ⟨0, k⟩ :=
  ⟨by rw [Nat.mul_zero, Nat.zero_add], h, fun h => h⟩

theorem Counts.push (h : Counts B k s) (hB : 0 < B) : Counts B (k + 1) (push B s) := by
  have htotal := h.total
  unfold Batch.push
  split
  · -- the batch is full
    have hfull : s.pending = B := Nat.le_antisymm h.le ‹_›
    refine ⟨?_, hB, fun _ => Nat.one_pos⟩
    rw [htotal, hfull, Nat.mul_add, Nat.mul_one]
  · exact ⟨by dsimp only; omega, by dsimp only; omega, fun _ => Nat.succ_pos _⟩

/-- All items have been sent, in no more batches than needed. -/
theorem Counts.close (h : Counts B k s) (hB : 0 < B) : close s = ⟨k ⌈/⌉ B, 0⟩ := by
  have htotal := h.total
  unfold Batch.close
  split
  · rename_i h0
    have hk : k = 0 := by
      by_contra hne
      have := h.pos (Nat.pos_of_ne_zero hne)
      omega
    have hsent : s.sent = 0 := by
      rw [hk, h0, Nat.add_zero] at htotal
      exact (Nat.mul_eq_zero.mp htotal.symm).resolve_left hB.ne'
    have hceil : k ⌈/⌉ B = 0 := by rw [hk, zero_ceilDiv]
    exact congrArg₂ Batch.mk (hsent.trans hceil.symm) h0
  · rename_i h0
    have hle := h.le
    have hceil : k ⌈/⌉ B = s.sent + 1 := by
      refine Nat.le_antisymm ((ceilDiv_le_iff_le_mul hB).mpr ?_) (Nat.lt_of_not_le fun hge => ?_)
      · rw [Nat.mul_add, Nat.mul_one]
        omega
      · have := (ceilDiv_le_iff_le_mul hB).mp hge
        omega
    rw [hceil]

end Counts

end Batch

end Armator.Lib
