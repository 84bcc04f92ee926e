import Mathlib.Data.Option.Basic

/-!
# Flat arrays

What a memory is for, over cells of any type: a read at an address returns the
cells last written there. `lastWritten ops x` looks up the newest operation of a
history that wrote cell `x`, `contents init ops` is the array the history leaves,
with `init` where it never wrote.
-/

namespace Armator.Lib.FlatArray

variable {β : Type}

/-- An operation on a flat array: `k` cells read from `a` on, or cells written
from `a` on. -/
inductive Op (β : Type) where
  | read (a k : Nat)
  | write (a : Nat) (bs : List β)

/-- What an operation writes to cell `x`, if anything. -/
def Op.cell? : Op β → Nat → Option β
  | read .., _ => none
  | write a bs, x => if a ≤ x then bs[x - a]? else none

/-- What the newest operation writing cell `x` wrote there. -/
def lastWritten : List (Op β) → Nat → Option β
  | [], _ => none
  | op :: ops, x => (lastWritten ops x).or (op.cell? x)

/-- The array after the operations `ops` on `init`. -/
def contents (init : Nat → β) (ops : List (Op β)) (x : Nat) : β :=
  (lastWritten ops x).getD (init x)

/-- One operation on the array `f`. -/
def Op.apply (f : Nat → β) (op : Op β) (x : Nat) : β := (op.cell? x).getD (f x)

/-- The `k` cells of an array from `a` on. -/
def cells (f : Nat → β) (a k : Nat) : List β := (List.range k).map fun i => f (a + i)

@[simp] theorem contents_nil (init : Nat → β) : contents init [] = init := rfl

theorem lastWritten_append (ops ops' : List (Op β)) (x : Nat) :
    lastWritten (ops ++ ops') x = (lastWritten ops' x).or (lastWritten ops x) := by
  induction ops with
  | nil => simp [lastWritten]
  | cons op ops ih => rw [List.cons_append, lastWritten, ih, lastWritten, Option.or_assoc]

theorem contents_snoc (init : Nat → β) (ops : List (Op β)) (op : Op β) :
    contents init (ops ++ [op]) = op.apply (contents init ops) := by
  funext x
  rw [contents, lastWritten_append, Op.apply, contents]
  simp only [lastWritten, Option.none_or]
  cases op.cell? x <;> rfl

@[simp] theorem apply_read (f : Nat → β) (a k : Nat) : (Op.read a k).apply f = f := rfl

theorem apply_write (f : Nat → β) (a : Nat) (bs : List β) (d : β) (x : Nat) :
    (Op.write a bs).apply f x =
      if a ≤ x ∧ x < a + bs.length then bs.getD (x - a) d else f x := by
  simp only [Op.apply, Op.cell?]
  by_cases ha : a ≤ x
  · by_cases hx : x < a + bs.length
    · rw [if_pos ha, if_pos ⟨ha, hx⟩, List.getD_eq_getElem?_getD,
        List.getElem?_eq_getElem (by omega)]
      rfl
    · rw [if_pos ha, if_neg (by omega), List.getElem?_eq_none (by omega)]
      rfl
  · rw [if_neg ha, if_neg (by omega)]
    rfl

theorem apply_of_cell?_eq_none {f : Nat → β} {op : Op β} {x : Nat} (h : op.cell? x = none) :
    op.apply f x = f x := by
  rw [Op.apply, h]; rfl

theorem lastWritten_eq_none {ops : List (Op β)} {x : Nat} (h : ∀ op ∈ ops, op.cell? x = none) :
    lastWritten ops x = none := by
  induction ops with
  | nil => rfl
  | cons op ops ih =>
    rw [lastWritten, ih fun o ho => h o (List.mem_cons_of_mem _ ho), h op List.mem_cons_self]
    rfl

/-- A block of cells keeps what was written to it while no operation writes there. -/
theorem cells_contents_write {init : Nat → β} {pre mid : List (Op β)} {a : Nat} {bs : List β}
    (h : ∀ op ∈ mid, ∀ i < bs.length, op.cell? (a + i) = none) :
    cells (contents init (pre ++ .write a bs :: mid)) a bs.length = bs := by
  refine List.ext_getElem (by simp [cells]) fun i hi hi' => ?_
  have hmid : lastWritten mid (a + i) = none := lastWritten_eq_none fun op ho => h op ho i hi'
  have hcell : (Op.write a bs).cell? (a + i) = some bs[i] := by
    rw [Op.cell?, if_pos (Nat.le_add_right a i), Nat.add_sub_cancel_left,
      List.getElem?_eq_getElem hi']
  simp only [cells, List.getElem_map, List.getElem_range]
  rw [contents, lastWritten_append, lastWritten, hmid, hcell]
  rfl

end Armator.Lib.FlatArray
