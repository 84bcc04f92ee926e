import Mathlib.Data.Finset.Card
import Mathlib.Data.List.GetD
import Mathlib.Data.List.Sort
import Mathlib.Data.List.TakeWhile
import Mathlib.Order.Lattice

/-!
# Sorted arrays

The first `n` cells of an array are a function `f` on the indices below `n`. A search for
`a` narrows a `Window f n a lo hi`: the cells below `lo` hold smaller values and those from
`hi` on greater ones, so `a` is in between or nowhere. `insertAt` and `removeAt` are what
shifting the tail of the array by one cell leaves.
-/

namespace Armator.Lib

section Order

variable {α : Type} [LinearOrder α] {f : Nat → α} {n lo hi : Nat} {a : α}

/-- The first `n` values are strictly increasing. -/
def Ascending (f : Nat → α) (n : Nat) : Prop := ∀ i j, i < j → j < n → f i < f j

theorem Ascending.inj (hs : Ascending f n) {i j : Nat} (hi : i < n) (hj : j < n)
    (h : f i = f j) : i = j := by
  rcases Nat.lt_trichotomy i j with hlt | he | hgt
  · exact absurd h (ne_of_lt (hs i j hlt hj))
  · exact he
  · exact absurd h (ne_of_gt (hs j i hgt hi))

/-- The first `n` values do not decrease. -/
def Rising (f : Nat → α) (n : Nat) : Prop := ∀ i j, i < j → j < n → f i ≤ f j

theorem Ascending.rising (hs : Ascending f n) : Rising f n :=
  fun i j hij hj => le_of_lt (hs i j hij hj)

/-- Outside the cells `lo … hi - 1` there are only smaller values below and greater above. -/
structure Window (f : Nat → α) (n : Nat) (a : α) (lo hi : Nat) : Prop where
  below : ∀ i, i < lo → f i < a
  above : ∀ i, hi ≤ i → i < n → a < f i

theorem Window.whole (f : Nat → α) (n : Nat) (a : α) : Window f n a 0 n :=
  ⟨fun i hi => absurd hi (Nat.not_lt_zero i), fun _ h h' => absurd h' (Nat.not_lt.mpr h)⟩

/-- A smaller value in the middle moves the lower end past it. -/
theorem Rising.raise (hs : Rising f n) (w : Window f n a lo hi) {m : Nat} (hm : m < n)
    (h : f m < a) : Window f n a (m + 1) hi := by
  refine ⟨fun i hi => ?_, w.above⟩
  rcases Nat.lt_or_eq_of_le (Nat.le_of_lt_succ hi) with hlt | rfl
  · exact (hs i m hlt hm).trans_lt h
  · exact h

/-- A greater value in the middle moves the upper end onto it. -/
theorem Rising.lower (hs : Rising f n) (w : Window f n a lo hi) {m : Nat} (h : a < f m) :
    Window f n a lo m := by
  refine ⟨w.below, fun i hi hn => ?_⟩
  rcases Nat.lt_or_eq_of_le hi with hlt | rfl
  · exact h.trans_le (hs m i hlt hn)
  · exact h

theorem Window.raise (w : Window f n a lo hi) (hs : Ascending f n) {m : Nat} (hm : m < n)
    (h : f m < a) : Window f n a (m + 1) hi :=
  hs.rising.raise w hm h

theorem Window.lower (w : Window f n a lo hi) (hs : Ascending f n) {m : Nat}
    (h : a < f m) : Window f n a lo m :=
  hs.rising.lower w h

theorem Window.inside (w : Window f n a lo hi) {i : Nat} (hin : i < n) (h : f i = a) :
    lo ≤ i ∧ i < hi := by
  constructor
  · exact Nat.le_of_not_lt fun hl => absurd h (ne_of_lt (w.below i hl))
  · exact Nat.lt_of_not_le fun hl => absurd h (ne_of_gt (w.above i hl hin))

theorem Window.absent (w : Window f n a lo hi) (h : hi ≤ lo) : ∀ i < n, f i ≠ a := by
  intro i hin heq
  have := w.inside hin heq
  omega

end Order

section Shift

variable {β : Type}

/-- `a` put at `j`, the cells from `j` on moved up. -/
def insertAt (f : Nat → β) (j : Nat) (a : β) (i : Nat) : β :=
  if i < j then f i else if i = j then a else f (i - 1)

/-- The cell `j` taken out, the cells above it moved down. -/
def removeAt (f : Nat → β) (j i : Nat) : β := if i < j then f i else f (i + 1)

variable [DecidableEq β] {f : Nat → β} {n j : Nat} {a : β}

/-- The values of the first `n` cells. -/
def elems (f : Nat → β) (n : Nat) : Finset β := (Finset.range n).image f

theorem mem_elems {x : β} : x ∈ elems f n ↔ ∃ i < n, f i = x := by
  unfold elems
  rw [Finset.mem_image]
  exact exists_congr fun i => and_congr_left fun _ => Finset.mem_range

theorem elems_congr {g : Nat → β} (h : ∀ i < n, f i = g i) : elems f n = elems g n :=
  Finset.image_congr fun i hi => h i (Finset.mem_range.mp hi)

theorem elems_insertAt (hj : j ≤ n) : elems (insertAt f j a) (n + 1) = insert a (elems f n) := by
  ext x
  rw [Finset.mem_insert, mem_elems, mem_elems]
  refine ⟨fun ⟨i, hi, hx⟩ => ?_, fun h => ?_⟩
  · unfold insertAt at hx
    by_cases hlt : i < j
    · rw [if_pos hlt] at hx
      exact .inr ⟨i, by omega, hx⟩
    · rw [if_neg hlt] at hx
      by_cases he : i = j
      · rw [if_pos he] at hx
        exact .inl hx.symm
      · rw [if_neg he] at hx
        exact .inr ⟨i - 1, by omega, hx⟩
  · unfold insertAt
    rcases h with rfl | ⟨i, hi, hx⟩
    · exact ⟨j, by omega, by rw [if_neg (Nat.lt_irrefl j), if_pos rfl]⟩
    · by_cases hlt : i < j
      · exact ⟨i, by omega, by rw [if_pos hlt, hx]⟩
      · refine ⟨i + 1, by omega, ?_⟩
        rw [if_neg (by omega), if_neg (by omega), Nat.add_sub_cancel, hx]

theorem elems_removeAt (hj : j ≤ n) (hinj : ∀ i ≤ n, f i = f j → i = j) :
    elems (removeAt f j) n = (elems f (n + 1)).erase (f j) := by
  ext x
  rw [Finset.mem_erase, mem_elems, mem_elems]
  refine ⟨fun ⟨i, hi, hx⟩ => ?_, fun ⟨hne, i, hi, hx⟩ => ?_⟩
  · unfold removeAt at hx
    by_cases hlt : i < j
    · rw [if_pos hlt] at hx
      refine ⟨fun h => ?_, i, by omega, hx⟩
      have := hinj i (by omega) (hx.trans h)
      omega
    · rw [if_neg hlt] at hx
      refine ⟨fun h => ?_, i + 1, by omega, hx⟩
      have := hinj (i + 1) (by omega) (hx.trans h)
      omega
  · have hij : i ≠ j := fun h => hne (by rw [← hx, h])
    unfold removeAt
    by_cases hlt : i < j
    · exact ⟨i, by omega, by rw [if_pos hlt, hx]⟩
    · refine ⟨i - 1, by omega, ?_⟩
      rw [if_neg (by omega), Nat.sub_add_cancel (by omega), hx]

theorem card_elems (hinj : ∀ i < n, ∀ k < n, f i = f k → i = k) : (elems f n).card = n := by
  unfold elems
  rw [Finset.card_image_of_injOn, Finset.card_range]
  exact fun i hi k hk h =>
    hinj i (Finset.mem_range.mp hi) k (Finset.mem_range.mp hk) h

end Shift

section Sorted

variable {α : Type} [LinearOrder α] {f : Nat → α} {n j : Nat} {a : α}

theorem Ascending.insertAt (hs : Ascending f n) (w : Window f n a j j) (hj : j ≤ n) :
    Ascending (insertAt f j a) (n + 1) := by
  intro i k hik hk
  unfold Lib.insertAt
  by_cases hij : i < j
  · rw [if_pos hij]
    by_cases hkj : k < j
    · rw [if_pos hkj]
      exact hs i k hik (by omega)
    · rw [if_neg hkj]
      by_cases he : k = j
      · rw [if_pos he]
        exact w.below i hij
      · rw [if_neg he]
        exact hs i (k - 1) (by omega) (by omega)
  · rw [if_neg hij, if_neg (show ¬ k < j by omega), if_neg (show ¬ k = j by omega)]
    by_cases he : i = j
    · rw [if_pos he]
      exact w.above (k - 1) (by omega) (by omega)
    · rw [if_neg he]
      exact hs (i - 1) (k - 1) (by omega) (by omega)

theorem Ascending.removeAt (hs : Ascending f (n + 1)) : Ascending (removeAt f j) n := by
  intro i k hik hk
  unfold Lib.removeAt
  by_cases hij : i < j
  · rw [if_pos hij]
    by_cases hkj : k < j
    · rw [if_pos hkj]
      exact hs i k hik (by omega)
    · rw [if_neg hkj]
      exact hs i (k + 1) (by omega) (by omega)
  · rw [if_neg hij, if_neg (show ¬ k < j by omega)]
    exact hs (i + 1) (k + 1) (by omega) (by omega)

/-! ## Sorted lists -/

omit [LinearOrder α] in
theorem getElem?_insertion (A B : List α) (k : Nat) :
    (A ++ a :: B)[k]? = Lib.insertAt (fun i => (A ++ B)[i]?) A.length (some a) k := by
  unfold Lib.insertAt
  dsimp only
  by_cases hlt : k < A.length
  · rw [if_pos hlt, List.getElem?_append_left hlt, List.getElem?_append_left hlt]
  · rw [if_neg hlt, List.getElem?_append_right (by omega)]
    by_cases he : k = A.length
    · rw [if_pos he, he, Nat.sub_self, List.getElem?_cons_zero]
    · rw [if_neg he, List.getElem?_append_right (by omega), List.getElem?_cons,
        if_neg (by omega), Nat.sub_right_comm]

theorem rising_of_pairwise {l : List α} (d : α) (h : l.Pairwise (· ≤ ·)) :
    Rising (fun i => l.getD i d) l.length := by
  intro i j hij hj
  dsimp only
  rw [List.getD_eq_getElem _ _ (hij.trans hj), List.getD_eq_getElem _ _ hj]
  exact List.pairwise_iff_getElem.mp h i j (hij.trans hj) hj hij

theorem exists_insertion (l : List α) (a : α) :
    ∃ A B, l = A ++ B ∧ l.orderedInsert (· ≤ ·) a = A ++ a :: B ∧ (∀ x ∈ A, x < a) ∧
      ∀ x ∈ B.head?, a ≤ x := by
  refine ⟨l.takeWhile fun b => ¬ a ≤ b, l.dropWhile fun b => ¬ a ≤ b,
    List.takeWhile_append_dropWhile.symm, List.orderedInsert_eq_take_drop _ a l,
    fun x hx => ?_, fun x hx => ?_⟩
  · have h := List.mem_takeWhile_imp hx
    exact lt_of_not_ge (of_decide_eq_true h)
  · have h := List.head?_dropWhile_not (fun b => decide ¬ a ≤ b) l
    rw [Option.mem_def.mp hx] at h
    exact Classical.not_not.mp (of_decide_eq_false h)

end Sorted

end Armator.Lib
