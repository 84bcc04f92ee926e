import Armator.Lib.Bytes
import Armator.Lib.Overlay
import Armator.Sim.Memory
import Mathlib.Tactic.IntervalCases

/-!
# The six accessors of `memory.c`

An access of `k` bytes at a 32-bit address touches the indices `span a k`, each
the address plus an offset in 32 bits. Every accessor does one of three things:

* it rejects the access (`Rejects`: the bound test of the code fires) and returns
  `-1` with everything unchanged;
* it touches indices of the block only (`Holds`) and returns 0, a read with the
  assembled bytes and a write with the bytes of the value stored;
* it faults on an index past the end of the block.
-/

namespace Armator.Sim

open Lib

/-- The 32-bit index of byte `i` of an access at `a`. -/
def byteIndex (a : BitVec 32) (i : Nat) : Nat := (a + BitVec.ofNat 32 i).toNat

/-- The indices an access of `k` bytes at `a` touches. -/
def span (a : BitVec 32) (k : Nat) : List Nat := (List.range k).map (byteIndex a)

namespace Memory

variable {mem : Memory} {a : BitVec 32} {i j k : Nat} {v : BitVec 8}

/-- The bound test of a `k`-byte accessor fires. -/
def Rejects (mem : Memory) (a : BitVec 32) (k : Nat) : Prop :=
  mem.taille < byteIndex a (k - 1)

instance : Decidable (mem.Rejects a k) := inferInstanceAs (Decidable (_ < _))

/-- Every index a `k`-byte access touches is inside the block. -/
def Holds (mem : Memory) (a : BitVec 32) (k : Nat) : Prop := ∀ i < k, byteIndex a i < mem.taille

instance : Decidable (mem.Holds a k) := Nat.decidableBallLT _ _

/-- The bytes a `k`-byte access at `a` covers, in address order. -/
def bytes (mem : Memory) (a : BitVec 32) (k : Nat) : List (BitVec 8) := (span a k).map mem.get

/-- The memory with `bs` stored from `a` on. -/
def write (mem : Memory) (a : BitVec 32) : List (BitVec 8) → Memory
  | [] => mem
  | b :: bs => (mem.set a.toNat b).write (a + 1) bs

theorem get_set (h : i < mem.taille) : (mem.set i v).get j = if j = i then v else mem.get j :=
  Block.get_set (by rw [mem.alloc]; exact h)

@[simp] theorem taille_set : (mem.set i v).taille = mem.taille := rfl

theorem load_of_lt (h : a.toNat < mem.taille) : mem.load a = .ok (mem.get a.toNat) :=
  Block.load_of_lt (by rw [mem.alloc]; exact h)

theorem load_of_le (h : mem.taille ≤ a.toNat) : ∃ f, mem.load a = .error f :=
  ⟨_, Block.load_of_le (by rw [mem.alloc]; exact h)⟩

theorem store_of_lt (h : a.toNat < mem.taille) : mem.store a v = .ok (mem.set a.toNat v) :=
  if_pos (by rw [mem.alloc]; exact h)

theorem store_of_le (h : mem.taille ≤ a.toNat) : ∃ f, mem.store a v = .error f :=
  ⟨_, if_neg (by rw [mem.alloc]; exact Nat.not_lt.mpr h)⟩

@[simp] theorem taille_write (bs : List (BitVec 8)) : (mem.write a bs).taille = mem.taille := by
  induction bs generalizing mem a with
  | nil => rfl
  | cons b bs ih => rw [write, ih, taille_set]

theorem Holds.not_rejects (h : mem.Holds a k) (hk : 0 < k) : ¬ mem.Rejects a k := by
  have := h (k - 1) (by omega)
  unfold Rejects; omega

end Memory

section Index

variable {a : BitVec 32} {i j k : Nat}

theorem byteIndex_zero : byteIndex a 0 = a.toNat := by simp [byteIndex]

theorem byteIndex_eq (a : BitVec 32) (i : Nat) : byteIndex a i = (a.toNat + i) % 2 ^ 32 := by
  rw [byteIndex, BitVec.toNat_add, BitVec.toNat_ofNat, Nat.add_mod_mod]

theorem byteIndex_of_lt (h : a.toNat + i < 2 ^ 32) : byteIndex a i = a.toNat + i := by
  rw [byteIndex_eq, Nat.mod_eq_of_lt h]

theorem byteIndex_succ (a : BitVec 32) (i : Nat) : byteIndex (a + 1) i = byteIndex a (i + 1) := by
  rw [byteIndex_eq, byteIndex_eq, BitVec.toNat_add, show (1 : BitVec 32).toNat = 1 from rfl,
    Nat.mod_add_mod, Nat.add_assoc, Nat.add_comm 1]

theorem span_succ : span a (k + 1) = a.toNat :: span (a + 1) k := by
  simp only [span, List.range_succ_eq_map, List.map_cons, List.map_map, byteIndex_zero]
  congr 1
  exact List.map_congr_left fun i _ => (byteIndex_succ a i).symm

theorem nodup_span (hk : k ≤ 2 ^ 32) : (span a k).Nodup := by
  refine List.Nodup.map_on (fun i hi j hj h => ?_) List.nodup_range
  rw [List.mem_range] at hi hj
  rw [byteIndex_eq, byteIndex_eq] at h
  have ha := a.isLt
  omega

end Index

namespace Memory

variable {mem : Memory} {a : BitVec 32} {k : Nat}

theorem holds_succ : mem.Holds a (k + 1) ↔ a.toNat < mem.taille ∧ mem.Holds (a + 1) k := by
  constructor
  · intro h
    refine ⟨byteIndex_zero ▸ h 0 (by omega), fun i hi => ?_⟩
    rw [byteIndex_succ]; exact h (i + 1) (by omega)
  · rintro ⟨h0, h⟩ i hi
    cases i with
    | zero => rwa [byteIndex_zero]
    | succ i => rw [← byteIndex_succ]; exact h i (by omega)

theorem bytes_succ : mem.bytes a (k + 1) = mem.get a.toNat :: mem.bytes (a + 1) k := by
  rw [bytes, span_succ, List.map_cons, bytes]

@[simp] theorem length_bytes : (mem.bytes a k).length = k := by simp [bytes, span]

theorem bytes_add (j : Nat) :
    mem.bytes a (j + k) = mem.bytes a j ++ mem.bytes (a + BitVec.ofNat 32 j) k := by
  have hadd (i : Nat) : byteIndex a (j + i) = byteIndex (a + BitVec.ofNat 32 j) i := by
    rw [byteIndex_eq, byteIndex_eq, BitVec.toNat_add, BitVec.toNat_ofNat, Nat.add_mod_mod,
      Nat.mod_add_mod, Nat.add_assoc]
  simp only [bytes, span, List.range_add, List.map_append, List.map_map]
  congr 1
  exact List.map_congr_left fun i _ => congrArg mem.get (hadd i)

theorem bytes_eq_iff {bs : List (BitVec 8)} (hl : bs.length = k) :
    mem.bytes a k = bs ↔ ∀ w ∈ (span a k).zip bs, mem.get w.1 = w.2 :=
  map_eq_iff_forall_mem_zip (by simp [span, hl])

theorem get_write {bs : List (BitVec 8)} (h : mem.Holds a bs.length) :
    (mem.write a bs).get = overlay mem.get ((span a bs.length).zip bs) := by
  induction bs generalizing mem a with
  | nil => rfl
  | cons b bs ih =>
    rw [List.length_cons] at h
    obtain ⟨h0, h1⟩ := holds_succ.mp h
    rw [write, ih (by exact h1), List.length_cons, span_succ, List.zip_cons_cons, overlay_cons]
    congr 1
    funext j
    rw [get_set h0, Function.update_apply]

theorem get_write_of_fits {bs : List (BitVec 8)} (h : a.toNat + bs.length ≤ 2 ^ 32)
    (hn : a.toNat + bs.length ≤ mem.taille) (x : Nat) :
    (mem.write a bs).get x =
      if a.toNat ≤ x ∧ x < a.toNat + bs.length then bs.getD (x - a.toNat) 0 else mem.get x := by
  induction bs generalizing mem a with
  | nil => rw [if_neg (by simp)]; rfl
  | cons b bs ih =>
    rw [List.length_cons] at h hn ⊢
    rw [write]
    cases bs with
    | nil =>
      rw [write, get_set (by omega)]
      by_cases e : x = a.toNat
      · subst e; simp
      · rw [if_neg e, if_neg (by simp; omega)]
    | cons c bs =>
      rw [List.length_cons] at h hn ih ⊢
      have ha : (a + 1).toNat = a.toNat + 1 := by
        rw [← byteIndex_zero, byteIndex_succ, byteIndex_of_lt (by omega)]
      rw [ih (by omega) (by rw [taille_set]; omega), get_set (by omega), ha]
      by_cases e : x = a.toNat
      · rw [if_neg (by omega), if_pos e, if_pos (by omega), e, Nat.sub_self]; rfl
      · by_cases hx : a.toNat + 1 ≤ x ∧ x < a.toNat + 1 + (bs.length + 1)
        · rw [if_pos hx, if_pos (by omega), show x - a.toNat = x - (a.toNat + 1) + 1 by omega]
          rfl
        · rw [if_neg hx, if_neg e, if_neg (by omega)]

theorem holds_of_fits (h : a.toNat + k ≤ 2 ^ 32) (hn : a.toNat + k ≤ mem.taille) :
    mem.Holds a k := fun i hi => by
  rw [byteIndex_of_lt (by omega)]; omega

theorem bytes_of_fits (h : a.toNat + k ≤ 2 ^ 32) :
    mem.bytes a k = (List.range k).map fun i => mem.get (a.toNat + i) := by
  rw [bytes, span, List.map_map]
  refine List.map_congr_left fun i hi => ?_
  rw [List.mem_range] at hi
  rw [Function.comp_apply, byteIndex_of_lt (by omega)]

end Memory

theorem memoryCreate_get {contents : Nat → BitVec 8} {n i : Nat} (h : i < n) :
    (memoryCreate contents n).get i = contents i := by
  simp [memoryCreate, Memory.get, Block.get, h]

/-! ## Reads -/

section Reads

variable {mem : Memory} {a : BitVec 32} {be : BitVec 8}

theorem shiftIn_succ {w k : Nat} (value : BitVec w) :
    shiftIn mem a (k + 1) value =
      (mem.load a >>= fun byte => shiftIn mem (a + 1) k (pushByte value byte)) := by
  have hcongr (i : Nat) : a + BitVec.ofNat 32 (i + 1) = a + 1 + BitVec.ofNat 32 i := by
    rw [BitVec.add_assoc]; congr 1
    apply BitVec.eq_of_toNat_eq; simp [Nat.add_comm]
  simp only [shiftIn, List.range_succ_eq_map, List.foldlM_cons, List.foldlM_map, hcongr]
  rw [show a + BitVec.ofNat 32 0 = a by simp]
  cases mem.load a <;> rfl

theorem shiftIn_of_holds {w k : Nat} {value : BitVec w} (h : mem.Holds a k) :
    shiftIn mem a k value = .ok ((mem.bytes a k).foldl pushByte value) := by
  induction k generalizing a value with
  | zero => rfl
  | succ k ih =>
    obtain ⟨h0, h1⟩ := Memory.holds_succ.mp h
    rw [shiftIn_succ, Memory.load_of_lt h0, ok_bind, ih h1, Memory.bytes_succ, List.foldl_cons]

theorem shiftIn_of_not_holds {w k : Nat} (value : BitVec w) (h : ¬ mem.Holds a k) :
    ∃ f, shiftIn mem a k value = .error f := by
  induction k generalizing a value with
  | zero => exact absurd (fun i hi => absurd hi (Nat.not_lt_zero i)) h
  | succ k ih =>
    rw [shiftIn_succ]
    by_cases h0 : a.toNat < mem.taille
    · rw [Memory.load_of_lt h0, ok_bind]
      exact ih _ fun h1 => h (Memory.holds_succ.mpr ⟨h0, h1⟩)
    · obtain ⟨f, hf⟩ := Memory.load_of_le (Nat.not_lt.mp h0)
      exact ⟨f, by rw [hf, error_bind]⟩

theorem ofNat_leVal_four (a b c d : BitVec 8) :
    BitVec.ofNat 32 (leVal [d, c, b, a]) = a ++ b ++ c ++ d := by
  have ha := a.isLt; have hb := b.isLt; have hc := c.isLt; have hd := d.isLt
  apply BitVec.eq_of_toNat_eq
  simp only [leVal_cons, leVal_nil, BitVec.toNat_ofNat, BitVec.toNat_append]
  rw [← Nat.shiftLeft_add_eq_or_of_lt hb, ← Nat.shiftLeft_add_eq_or_of_lt hc,
    ← Nat.shiftLeft_add_eq_or_of_lt hd]
  simp only [Nat.shiftLeft_eq]
  omega

theorem ofNat_leVal_two (a b : BitVec 8) : BitVec.ofNat 16 (leVal [b, a]) = a ++ b := by
  have ha := a.isLt; have hb := b.isLt
  apply BitVec.eq_of_toNat_eq
  simp only [leVal_cons, leVal_nil, BitVec.toNat_ofNat, BitVec.toNat_append]
  rw [← Nat.shiftLeft_add_eq_or_of_lt hb]
  simp only [Nat.shiftLeft_eq]
  omega

theorem reverse4_append (a b c d : BitVec 8) : reverse4 (a ++ b ++ c ++ d) = d ++ c ++ b ++ a := by
  apply BitVec.eq_of_getLsbD_eq
  intro i hi
  simp only [reverse4, BitVec.getLsbD_or, BitVec.getLsbD_shiftLeft, BitVec.getLsbD_and,
    BitVec.getLsbD_ushiftRight, BitVec.getLsbD_append]
  interval_cases i <;> simp

theorem reverse2_append (a b : BitVec 8) : reverse2 (a ++ b) = b ++ a := by
  apply BitVec.eq_of_getLsbD_eq
  intro i hi
  simp only [reverse2, BitVec.getLsbD_or, BitVec.getLsbD_shiftLeft, BitVec.getLsbD_and,
    BitVec.getLsbD_ushiftRight, BitVec.getLsbD_append]
  interval_cases i <;> simp

theorem assemble_two (x y : BitVec 8) :
    assemble 16 true [x, y] = x ++ y ∧ assemble 16 false [x, y] = y ++ x :=
  ⟨ofNat_leVal_two x y, ofNat_leVal_two y x⟩

theorem assemble_four (x y z t : BitVec 8) :
    assemble 32 true [x, y, z, t] = x ++ y ++ z ++ t ∧
      assemble 32 false [x, y, z, t] = t ++ z ++ y ++ x :=
  ⟨ofNat_leVal_four x y z t, ofNat_leVal_four t z y x⟩

/-- The macros `reverse_2` and `reverse_4` switch between the byte orders. -/
theorem reverse2_assemble (f : Bool) (bs : List (BitVec 8)) (h : bs.length = 2) :
    reverse2 (assemble 16 f bs) = assemble 16 (!f) bs := by
  obtain ⟨x, y, rfl⟩ := List.length_eq_two.mp h
  obtain ⟨ht, hf⟩ := assemble_two x y
  cases f
  · rw [Bool.not_false, hf, ht, reverse2_append]
  · rw [Bool.not_true, hf, ht, reverse2_append]

theorem reverse4_assemble (f : Bool) (bs : List (BitVec 8)) (h : bs.length = 4) :
    reverse4 (assemble 32 f bs) = assemble 32 (!f) bs := by
  obtain ⟨x, y, z, t, rfl⟩ : ∃ x y z t, bs = [x, y, z, t] := by
    match bs, h with
    | [x, y, z, t], _ => exact ⟨x, y, z, t, rfl⟩
  obtain ⟨ht, hf⟩ := assemble_four x y z t
  cases f
  · rw [Bool.not_false, hf, ht, reverse4_append]
  · rw [Bool.not_true, hf, ht, reverse4_append]

variable {k : Nat}

theorem memoryReadByte_of_rejects {value : BitVec 8} (h : mem.Rejects a 1) :
    memoryReadByte mem a value = .ok (-1, value) :=
  if_pos (byteIndex_zero ▸ h)

theorem memoryReadByte_of_not_rejects {value : BitVec 8} (h : ¬ mem.Rejects a 1) :
    memoryReadByte mem a value = (mem.load a >>= fun value => .ok (0, value)) :=
  if_neg (byteIndex_zero ▸ h)

theorem memoryReadByte_of_holds {value : BitVec 8} (h : mem.Holds a 1) :
    memoryReadByte mem a value = .ok (0, mem.get a.toNat) := by
  rw [memoryReadByte_of_not_rejects (h.not_rejects Nat.one_pos),
    Memory.load_of_lt (byteIndex_zero ▸ h 0 Nat.one_pos), ok_bind]

theorem memoryReadByte_fault (value : BitVec 8) (hr : ¬ mem.Rejects a 1)
    (h : ¬ mem.Holds a 1) : ∃ f, memoryReadByte mem a value = .error f := by
  have hle : mem.taille ≤ a.toNat := Nat.not_lt.mp fun h0 => h fun i hi => by
    rwa [show i = 0 by omega, byteIndex_zero]
  obtain ⟨f, hf⟩ := Memory.load_of_le hle
  exact ⟨f, by rw [memoryReadByte_of_not_rejects hr, hf, error_bind]⟩

/-- A read of `k` bytes once its bound test has passed, with `reverse` the macro that switches
between the byte orders. -/
theorem ordered_of_holds {reverse : BitVec (8 * k) → BitVec (8 * k)} {value : BitVec (8 * k)}
    (hk : 0 < k)
    (hreverse : ∀ f bs, bs.length = k → reverse (assemble (8 * k) f bs) = assemble (8 * k) (!f) bs)
    (h : mem.Holds a k) :
    (shiftIn mem a k value >>= fun value =>
      .ok ((0 : Int), if be = 0 then reverse value else value)) =
        .ok (0, assemble (8 * k) (be ≠ 0) (mem.bytes a k)) := by
  rw [shiftIn_of_holds h, ok_bind, foldl_pushByte hk value Memory.length_bytes]
  by_cases e : be = 0
  · rw [if_pos e, hreverse true _ Memory.length_bytes, decide_eq_false (not_not.mpr e)]
    rfl
  · rw [if_neg e, decide_eq_true e]

theorem bind_of_not_holds {w : Nat} {β : Type} (value : BitVec w)
    (f : BitVec w → Except Fault β) (h : ¬ mem.Holds a k) :
    ∃ e, (shiftIn mem a k value >>= f) = .error e := by
  obtain ⟨e, he⟩ := shiftIn_of_not_holds value h
  exact ⟨e, by rw [he, error_bind]⟩

theorem memoryReadHalf_of_rejects {value : BitVec 16} (h : mem.Rejects a 2) :
    memoryReadHalf mem a value be = .ok (-1, value) := if_pos h

theorem memoryReadHalf_of_not_rejects {value : BitVec 16} (h : ¬ mem.Rejects a 2) :
    memoryReadHalf mem a value be = (shiftIn mem a 2 value >>= fun value =>
      .ok (0, if be = 0 then reverse2 value else value)) := if_neg h

theorem memoryReadHalf_of_holds {value : BitVec 16} (h : mem.Holds a 2) :
    memoryReadHalf mem a value be = .ok (0, assemble 16 (be ≠ 0) (mem.bytes a 2)) := by
  have hk : 0 < 2 := by decide
  rw [memoryReadHalf_of_not_rejects (h.not_rejects hk)]
  exact ordered_of_holds hk reverse2_assemble h

theorem memoryReadHalf_fault (value : BitVec 16) (be : BitVec 8) (hr : ¬ mem.Rejects a 2)
    (h : ¬ mem.Holds a 2) : ∃ f, memoryReadHalf mem a value be = .error f := by
  rw [memoryReadHalf_of_not_rejects hr]
  exact bind_of_not_holds value _ h

theorem memoryReadWord_of_rejects {value : BitVec 32} (h : mem.Rejects a 4) :
    memoryReadWord mem a value be = .ok (-1, value) := if_pos h

theorem memoryReadWord_of_not_rejects {value : BitVec 32} (h : ¬ mem.Rejects a 4) :
    memoryReadWord mem a value be = (shiftIn mem a 4 value >>= fun value =>
      .ok (0, if be = 0 then reverse4 value else value)) := if_neg h

theorem memoryReadWord_of_holds {value : BitVec 32} (h : mem.Holds a 4) :
    memoryReadWord mem a value be = .ok (0, assemble 32 (be ≠ 0) (mem.bytes a 4)) := by
  have hk : 0 < 4 := by decide
  rw [memoryReadWord_of_not_rejects (h.not_rejects hk)]
  exact ordered_of_holds hk reverse4_assemble h

theorem memoryReadWord_fault (value : BitVec 32) (be : BitVec 8) (hr : ¬ mem.Rejects a 4)
    (h : ¬ mem.Holds a 4) : ∃ f, memoryReadWord mem a value be = .error f := by
  rw [memoryReadWord_of_not_rejects hr]
  exact bind_of_not_holds value _ h

end Reads

/-! ## Writes -/

section Writes

variable {mem : Memory} {a : BitVec 32} {be : BitVec 8}

/-- The stores of a write, in address order. -/
def storeAll (mem : Memory) (a : BitVec 32) : List (BitVec 8) → Except Fault Memory
  | [] => .ok mem
  | b :: bs => mem.store a b >>= fun mem => storeAll mem (a + 1) bs

theorem Memory.holds_set {i k : Nat} {v : BitVec 8} :
    (mem.set i v).Holds a k ↔ mem.Holds a k := Iff.rfl

theorem storeAll_of_holds {bs : List (BitVec 8)} (h : mem.Holds a bs.length) :
    storeAll mem a bs = .ok (mem.write a bs) := by
  induction bs generalizing mem a with
  | nil => rfl
  | cons b bs ih =>
    obtain ⟨h0, h1⟩ := Memory.holds_succ.mp h
    rw [storeAll, Memory.store_of_lt h0, ok_bind, ih (Memory.holds_set.mpr h1), Memory.write]

theorem storeAll_of_not_holds {bs : List (BitVec 8)} (h : ¬ mem.Holds a bs.length) :
    ∃ f, storeAll mem a bs = .error f := by
  induction bs generalizing mem a with
  | nil => exact absurd (fun i hi => absurd hi (Nat.not_lt_zero i)) h
  | cons b bs ih =>
    rw [storeAll]
    by_cases h0 : a.toNat < mem.taille
    · rw [Memory.store_of_lt h0, ok_bind]
      exact ih fun h1 => h (Memory.holds_succ.mpr ⟨h0, h1⟩)
    · obtain ⟨f, hf⟩ := Memory.store_of_le (v := b) (Nat.not_lt.mp h0)
      exact ⟨f, by rw [hf, error_bind]⟩

/-- What a writing accessor does with the bytes of its value in address order. -/
def guardedWrite (mem : Memory) (a : BitVec 32) (bs : List (BitVec 8)) :
    Except Fault (Int × Memory) :=
  if mem.Rejects a bs.length then .ok (-1, mem)
  else storeAll mem a bs >>= fun mem => .ok (0, mem)

theorem guardedWrite_of_rejects {bs : List (BitVec 8)} (h : mem.Rejects a bs.length) :
    guardedWrite mem a bs = .ok (-1, mem) := if_pos h

theorem guardedWrite_of_holds {bs : List (BitVec 8)} (hl : 0 < bs.length)
    (h : mem.Holds a bs.length) : guardedWrite mem a bs = .ok (0, mem.write a bs) := by
  rw [guardedWrite, if_neg (h.not_rejects hl), storeAll_of_holds h, ok_bind]

theorem guardedWrite_fault (bs : List (BitVec 8)) (hr : ¬ mem.Rejects a bs.length)
    (h : ¬ mem.Holds a bs.length) : ∃ f, guardedWrite mem a bs = .error f := by
  obtain ⟨f, hf⟩ := storeAll_of_not_holds h
  exact ⟨f, by rw [guardedWrite, if_neg hr, hf, error_bind]⟩

theorem memoryWriteByte_eq {value : BitVec 8} :
    memoryWriteByte mem a value = guardedWrite mem a [value] := by
  have hr : mem.Rejects a 1 ↔ memoryGetSize mem < a.toNat := by
    rw [Memory.Rejects, byteIndex_zero, memoryGetSize]
  simp only [guardedWrite, List.length_singleton, hr, memoryWriteByte, storeAll]
  split
  · rfl
  · cases mem.store a value <;> rfl

theorem split_two (value : BitVec 16) :
    split 2 true value.toNat = [(value >>> 8).setWidth 8, value.setWidth 8] ∧
      split 2 false value.toNat = [value.setWidth 8, (value >>> 8).setWidth 8] := by
  have h0 : BitVec.ofNat 8 value.toNat = value.setWidth 8 := by
    apply BitVec.eq_of_toNat_eq; simp
  have h1 : BitVec.ofNat 8 (value.toNat / 256) = (value >>> 8).setWidth 8 := by
    apply BitVec.eq_of_toNat_eq; simp [Nat.shiftRight_eq_div_pow]
  simp [split, ordered, leBytes, h0, h1]

theorem split_four (value : BitVec 32) :
    split 4 true value.toNat = [(value >>> 24).setWidth 8, (value >>> 16).setWidth 8,
        (value >>> 8).setWidth 8, value.setWidth 8] ∧
      split 4 false value.toNat = [value.setWidth 8, (value >>> 8).setWidth 8,
        (value >>> 16).setWidth 8, (value >>> 24).setWidth 8] := by
  have h0 : BitVec.ofNat 8 value.toNat = value.setWidth 8 := by
    apply BitVec.eq_of_toNat_eq; simp
  have h1 : BitVec.ofNat 8 (value.toNat / 256) = (value >>> 8).setWidth 8 := by
    apply BitVec.eq_of_toNat_eq; simp [Nat.shiftRight_eq_div_pow]
  have h2 : BitVec.ofNat 8 (value.toNat / 256 / 256) = (value >>> 16).setWidth 8 := by
    apply BitVec.eq_of_toNat_eq; simp [Nat.shiftRight_eq_div_pow, Nat.div_div_eq_div_mul]
  have h3 : BitVec.ofNat 8 (value.toNat / 256 / 256 / 256) = (value >>> 24).setWidth 8 := by
    apply BitVec.eq_of_toNat_eq; simp [Nat.shiftRight_eq_div_pow, Nat.div_div_eq_div_mul]
  simp [split, ordered, leBytes, h0, h1, h2, h3]

theorem ordered_write {k v : Nat} {P : Prop} [Decidable P]
    {big little : Except Fault (Int × Memory)} (hP : P ↔ mem.Rejects a k)
    (hbig : (storeAll mem a (split k true v) >>= fun mem => .ok (0, mem)) = big)
    (hlittle : (storeAll mem a (split k false v) >>= fun mem => .ok (0, mem)) = little) :
    (if P then .ok (-1, mem) else if be ≠ 0 then big else little) =
      guardedWrite mem a (split k (be ≠ 0) v) := by
  rw [guardedWrite, length_split, ← hbig, ← hlittle]
  by_cases e : be = 0 <;> simp only [e, hP, ne_eq, not_true_eq_false, not_false_eq_true, if_true,
    if_false, decide_true, decide_false]

theorem memoryWriteHalf_eq {value : BitVec 16} :
    memoryWriteHalf mem a value be = guardedWrite mem a (split 2 (be ≠ 0) value.toNat) := by
  obtain ⟨ht, hf⟩ := split_two value
  refine ordered_write Iff.rfl ?_ ?_
  · simp only [ht, storeAll, bind_assoc, ok_bind]
  · simp only [hf, storeAll, bind_assoc, ok_bind]

theorem memoryWriteWord_eq {value : BitVec 32} :
    memoryWriteWord mem a value be = guardedWrite mem a (split 4 (be ≠ 0) value.toNat) := by
  obtain ⟨ht, hf⟩ := split_four value
  have h2 : a + 1 + 1 = a + 2 := by rw [BitVec.add_assoc]; rfl
  have h3 : a + 2 + 1 = a + 3 := by rw [BitVec.add_assoc]; rfl
  refine ordered_write Iff.rfl ?_ ?_
  · simp only [ht, storeAll, bind_assoc, ok_bind, h2, h3]
  · simp only [hf, storeAll, bind_assoc, ok_bind, h2, h3]

end Writes

end Armator.Sim
