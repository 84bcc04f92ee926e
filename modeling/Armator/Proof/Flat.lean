import Armator.Lib.FlatArray
import Armator.Proof.Contract

/-!
# The memory refines a flat byte array

`runAll` makes a list of calls one after the other. `answers` says what the calls
return when each reads the bytes last written before it, and `RefinesFlat` that the
memory behaves so at every point of the run. The 32-bit indices of an access wrap
around, so a run refines the flat array while its accesses end inside the 32-bit
address space (`Fits`).
-/

namespace Armator.Sim

open Lib FlatArray

namespace Access

/-- The access as an operation on a flat byte array. -/
def op : Access → Op (BitVec 8)
  | readByte a _ => .read a.toNat 1
  | readHalf a _ _ => .read a.toNat 2
  | readWord a _ _ => .read a.toNat 4
  | writeByte a v => .write a.toNat (stored (writeByte a v))
  | writeHalf a v be => .write a.toNat (stored (writeHalf a v be))
  | writeWord a v be => .write a.toNat (stored (writeWord a v be))

/-- The access is inside a memory of `n` bytes and ends inside the address space. -/
def Fits (n : Nat) (x : Access) : Prop :=
  x.address.toNat + x.width ≤ n ∧ x.address.toNat + x.width ≤ 2 ^ 32

instance (n : Nat) (x : Access) : Decidable (x.Fits n) := inferInstanceAs (Decidable (_ ∧ _))

/-- The access writes byte `j`. -/
def Covers (x : Access) (j : Nat) : Prop :=
  x.stored ≠ [] ∧ x.address.toNat ≤ j ∧ j < x.address.toNat + x.width

/-- The return values and variables of the calls `xs` made after `past`, each
answered from the bytes last written before it. -/
def answers (init : Nat → BitVec 8) (past : List Access) : List Access → List (Int × BitVec 32)
  | [] => []
  | x :: xs =>
    (0, x.answer (cells (contents init (past.map op)) x.address.toNat x.width)) ::
      answers init (past ++ [x]) xs

/-- The calls `xs` one after the other: what each returns and leaves in the
caller's variable, and the final memory. -/
def runAll (mem : Memory) : List Access → Except Fault (List (Int × BitVec 32) × Memory)
  | [] => .ok ([], mem)
  | x :: xs => do
    let (r, v, mem) ← x.run mem
    let (rs, mem) ← runAll mem xs
    .ok ((r, v) :: rs, mem)

section Step

variable {mem : Memory} {x : Access}

theorem op_eq (x : Access) :
    (x.stored = [] ∧ x.op = .read x.address.toNat x.width) ∨
      (x.stored.length = x.width ∧ x.op = .write x.address.toNat x.stored) := by
  cases x with
  | readByte | readHalf | readWord => exact .inl ⟨rfl, rfl⟩
  | writeByte | writeHalf | writeWord => exact .inr ⟨by simp [stored, width], rfl⟩

theorem cell?_eq_none_of_not_covers {j : Nat} (h : ¬ x.Covers j) : x.op.cell? j = none := by
  rcases x.op_eq with ⟨-, ho⟩ | ⟨hl, ho⟩
  · rw [ho]; rfl
  · have hne : x.stored ≠ [] := by
      have := x.width_pos
      rw [← hl] at this
      exact List.ne_nil_of_length_pos this
    have hj : ¬ (x.address.toNat ≤ j ∧ j < x.address.toNat + x.width) := fun hj => h ⟨hne, hj⟩
    rw [ho, Op.cell?]
    by_cases ha : x.address.toNat ≤ j
    · rw [if_pos ha, List.getElem?_eq_none (by omega)]
    · rw [if_neg ha]

theorem run_of_fits (h : x.Fits mem.taille) :
    ∃ mem', x.run mem = .ok (0, x.answer (cells mem.get x.address.toNat x.width), mem') ∧
      mem'.taille = mem.taille ∧ mem'.get = x.op.apply mem.get := by
  refine ⟨mem.write x.address x.stored, ?_, Memory.taille_write _, ?_⟩
  · rw [run_of_holds (Memory.holds_of_fits h.2 h.1), Memory.bytes_of_fits h.2]
    rfl
  · rcases x.op_eq with ⟨hs, ho⟩ | ⟨hl, ho⟩
    · rw [hs, ho, apply_read]; rfl
    · funext j
      obtain ⟨hn, hw⟩ := h
      rw [← hl] at hn hw
      rw [ho, apply_write _ _ _ 0, Memory.get_write_of_fits hw hn]

end Step

section Run

variable {mem : Memory} {init : Nat → BitVec 8}

/-- The run from a memory that `past` has left: an induction on the calls, the
memory always being the flat array of the calls made so far. -/
theorem runAll_of_fits {past xs : List Access} (hm : mem.get = contents init (past.map op))
    (h : ∀ x ∈ xs, x.Fits mem.taille) :
    ∃ mem', runAll mem xs = .ok (answers init past xs, mem') ∧ mem'.taille = mem.taille ∧
      mem'.get = contents init ((past ++ xs).map op) := by
  induction xs generalizing mem past with
  | nil => exact ⟨mem, rfl, rfl, by rw [List.append_nil, hm]⟩
  | cons x xs ih =>
    obtain ⟨m₁, hrun, ht, hget⟩ := run_of_fits (h x List.mem_cons_self)
    have hm₁ : m₁.get = contents init ((past ++ [x]).map op) := by
      rw [hget, hm, List.map_append, List.map_singleton, contents_snoc]
    obtain ⟨m₂, hrest, ht₂, hget₂⟩ :=
      ih hm₁ fun y hy => ht ▸ h y (List.mem_cons_of_mem _ hy)
    refine ⟨m₂, ?_, ht₂.trans ht, by rw [hget₂, List.append_assoc]; rfl⟩
    rw [runAll, hrun, ok_bind, hm]
    simp only [hrest, ok_bind]
    rfl

theorem answers_append (past xs ys : List Access) :
    answers init past (xs ++ ys) = answers init past xs ++ answers init (past ++ xs) ys := by
  induction xs generalizing past with
  | nil => simp [answers]
  | cons x xs ih => simp [answers, ih]

@[simp] theorem length_answers (past xs : List Access) :
    (answers init past xs).length = xs.length := by
  induction xs generalizing past with
  | nil => rfl
  | cons x xs ih => simp [answers, ih]

theorem answers_getElem? (pre : List Access) (x : Access) (post : List Access) :
    (answers init [] (pre ++ x :: post))[pre.length]? =
      some (0, x.answer (cells (contents init (pre.map op)) x.address.toNat x.width)) := by
  rw [answers_append, List.getElem?_append_right (by simp), length_answers, Nat.sub_self,
    List.nil_append]
  rfl

theorem cells_written (pre : List Access) {mid : List Access} {x : Access}
    (hx : 0 < x.stored.length) (h : ∀ y ∈ mid, ∀ i < x.width, ¬ y.Covers (x.address.toNat + i)) :
    cells (contents init ((pre ++ x :: mid).map op)) x.address.toNat x.width = x.stored := by
  obtain ⟨hl, ho⟩ := x.op_eq.resolve_left fun hs => List.ne_nil_of_length_pos hx hs.1
  rw [List.map_append, List.map_cons, ho, ← hl]
  refine cells_contents_write fun o hmem i hi => ?_
  obtain ⟨y, hy, rfl⟩ := List.mem_map.mp hmem
  exact cell?_eq_none_of_not_covers (h y hy i (hl ▸ hi))

theorem answers_written (pre mid post : List Access) {x y : Access} (hx : 0 < x.stored.length)
    (ha : y.address = x.address) (hw : y.width = x.width)
    (h : ∀ z ∈ mid, ∀ i < x.width, ¬ z.Covers (x.address.toNat + i)) :
    (answers init [] (pre ++ x :: mid ++ y :: post))[pre.length + 1 + mid.length]? =
      some (0, y.answer x.stored) := by
  have hlen : pre.length + 1 + mid.length = (pre ++ x :: mid).length := by
    rw [List.length_append, List.length_cons]; omega
  rw [hlen, answers_getElem?, ha, hw, cells_written pre hx h]

end Run

/-- The run of `xs` behaves as a flat byte array does. -/
structure RefinesFlat (mem : Memory) (xs : List Access) : Prop where
  /-- Every call succeeds and reads the bytes last written before it. -/
  run : ∃ mem', runAll mem xs = .ok (answers mem.get [] xs, mem') ∧
    mem'.taille = mem.taille ∧ mem'.get = contents mem.get (xs.map op)
  /-- At every point of the run a call changes only the bytes it writes. -/
  frame : ∀ pre x post, xs = pre ++ x :: post →
    ∃ rs m r v m', runAll mem pre = .ok (rs, m) ∧ x.run m = .ok (r, v, m') ∧
      ∀ j, ¬ x.Covers j → m'.get j = m.get j
  /-- A half reads back as it was written, or swapped when the flags differ. -/
  half : ∀ pre a v be mid out be' post,
    xs = pre ++ .writeHalf a v be :: mid ++ .readHalf a out be' :: post →
    (∀ y ∈ mid, ∀ i < 2, ¬ y.Covers (a.toNat + i)) →
    ∃ rs mem', runAll mem xs = .ok (rs, mem') ∧ rs[pre.length + 1 + mid.length]? =
      some (0, (if (be ≠ 0) = (be' ≠ 0) then v else swapBytes 2 v).setWidth 32)
  /-- So does a word. -/
  word : ∀ pre a v be mid out be' post,
    xs = pre ++ .writeWord a v be :: mid ++ .readWord a out be' :: post →
    (∀ y ∈ mid, ∀ i < 4, ¬ y.Covers (a.toNat + i)) →
    ∃ rs mem', runAll mem xs = .ok (rs, mem') ∧ rs[pre.length + 1 + mid.length]? =
      some (0, if (be ≠ 0) = (be' ≠ 0) then v else swapBytes 4 v)

theorem assemble_split_ite {k w : Nat} (hw : w = 8 * k) (be be' : BitVec 8) (v : BitVec w) :
    assemble w (be' ≠ 0) (split k (be ≠ 0) v.toNat) =
      if (be ≠ 0) = (be' ≠ 0) then v else swapBytes k v := by
  by_cases h : (be ≠ 0) = (be' ≠ 0)
  · have h' : decide (be ≠ 0) = decide (be' ≠ 0) := by simp only [h]
    rw [if_pos h, h', assemble_split hw]
  · have h' : decide (be ≠ 0) ≠ decide (be' ≠ 0) := fun e =>
      h (propext (decide_eq_decide.mp e))
    rw [if_neg h, assemble_split_of_ne h']

/-- **Refinement**: a run of accesses that fit behaves as a flat byte array does. -/
theorem runAll_refines_flat (mem : Memory) (xs : List Access) (h : ∀ x ∈ xs, x.Fits mem.taille) :
    RefinesFlat mem xs := by
  have h0 : mem.get = contents mem.get (List.map op []) := rfl
  obtain ⟨mem', hrun, ht, hget⟩ := runAll_of_fits h0 h
  refine ⟨⟨mem', hrun, ht, hget⟩, ?_, ?_, ?_⟩
  · rintro pre x post rfl
    obtain ⟨m, hpre, htm, -⟩ := runAll_of_fits h0 fun y hy => h y (List.mem_append_left _ hy)
    obtain ⟨m', hx, -, hget'⟩ :=
      run_of_fits (htm ▸ h x (List.mem_append_right _ List.mem_cons_self))
    refine ⟨_, m, _, _, m', hpre, hx, fun j hj => ?_⟩
    rw [hget', apply_of_cell?_eq_none (cell?_eq_none_of_not_covers hj)]
  · rintro pre a v be mid out be' post rfl hmid
    refine ⟨_, mem', hrun, ?_⟩
    rw [answers_written pre mid post (x := .writeHalf a v be) (y := .readHalf a out be')
      (by simp [stored]) rfl rfl hmid, answer, stored, assemble_split_ite (k := 2) rfl]
  · rintro pre a v be mid out be' post rfl hmid
    refine ⟨_, mem', hrun, ?_⟩
    rw [answers_written pre mid post (x := .writeWord a v be) (y := .readWord a out be')
      (by simp [stored]) rfl rfl hmid, answer, stored, assemble_split_ite (k := 4) rfl]

/-- Overlapping accesses of all three widths with both flags. -/
theorem runAll_refines_flat_overlapping :
    RefinesFlat (.ofBytes [1, 2, 3, 4, 5, 6]) [.writeWord 1 0xA1B2C3D4 1, .writeHalf 2 0xE5F6 0,
      .readWord 0 0x77777777 0, .writeByte 3 9, .readHalf 2 0x8888 1, .readByte 5 0] :=
  runAll_refines_flat _ _ (by decide)

/-- A half written at the last 32-bit address of a larger memory puts its second
byte at address 0. -/
theorem not_refinesFlat_last_address :
    (∀ x ∈ [writeHalf 0xFFFFFFFF 0x0101 1],
        x.address.toNat + x.width ≤ (memoryCreate (fun _ => 0) (2 ^ 32 + 1)).taille) ∧
      ¬ RefinesFlat (memoryCreate (fun _ => 0) (2 ^ 32 + 1)) [writeHalf 0xFFFFFFFF 0x0101 1] := by
  constructor
  · rintro x hx
    rw [List.mem_singleton] at hx
    subst hx
    exact Nat.le_refl _
  · intro h
    generalize hmem : memoryCreate (fun _ => 0) (2 ^ 32 + 1) = mem at h
    have ht : mem.taille = 2 ^ 32 + 1 := by rw [← hmem]; rfl
    have h0 : mem.get 0 = 0 := by rw [← hmem]; exact memoryCreate_get (by omega)
    have hholds : mem.Holds 0xFFFFFFFF 2 := fun i _ => by
      have := (0xFFFFFFFF + BitVec.ofNat 32 i : BitVec 32).isLt
      rw [byteIndex, ht]; omega
    obtain ⟨rs, m, r, v, m', hpre, hrun, hframe⟩ :=
      h.frame [] (writeHalf 0xFFFFFFFF 0x0101 1) [] rfl
    cases hpre
    rw [run_of_holds (by exact hholds)] at hrun
    cases hrun
    have hkeep := hframe 0 fun hc => absurd hc.2.1 (by decide)
    rw [h0, Memory.get_write (by exact hholds)] at hkeep
    have hlost : overlay mem.get [(0xFFFFFFFF, 1), (0, 1)] 0 = 0 := hkeep
    simp at hlost

end Access

end Armator.Sim
