import Armator.Lib.SortedArray
import Armator.Sim.Breakpoints

/-!
# The breakpoint table is a finite set

`Represents t s`: the first cells of the table `t` are the elements of the set `s` in
strictly increasing order, and there are at most 1024 of them. Adding and removing keep
this, for the set the same requests lead to, because the search that precedes them finds
what is there.
-/

namespace Armator.Sim

open Lib

namespace Breakpoints

def value (t : Breakpoints) (i : Nat) : BitVec 32 := t.breakpoints.get i

/-- The order the code compares with. -/
def key (t : Breakpoints) (i : Nat) : Nat := (t.value i).toNat

/-- The first `n` cells are in use and strictly increasing. -/
structure Ordered (t : Breakpoints) (n : Nat) : Prop where
  number : t.breakpointsNumber = n
  le : n ≤ 1024
  ascending : Ascending t.key n

/-- What a search for `a` in the first `n` cells may return. -/
def Finds (t : Breakpoints) (n : Nat) (a : BitVec 32) (r : Int) : Prop :=
  (∃ i : Nat, i < n ∧ r = i ∧ t.value i = a) ∨ r = -1 ∧ ∀ i < n, t.value i ≠ a

section Cells

variable {t : Breakpoints} {n i j : Nat} {a v : BitVec 32}

theorem load_of_lt (h : i < 1024) : t.load i = .ok (t.value i) := by
  rw [load, if_pos (Int.natCast_nonneg i), Int.toNat_natCast,
    Block.load_of_lt (by rw [t.alloc]; exact h), value]

theorem store_of_lt (h : i < 1024) : t.store i v = .ok (t.set i v) := by
  rw [store, Int.toNat_natCast, if_pos ⟨Int.natCast_nonneg i, by rw [t.alloc]; exact h⟩]

theorem value_set (h : i < 1024) : (t.set i v).value j = if j = i then v else t.value j :=
  Block.get_set (by rw [t.alloc]; exact h)

theorem key_ne_iff : t.key i ≠ a.toNat ↔ t.value i ≠ a := by
  unfold key
  rw [ne_eq, BitVec.toNat_inj]

theorem Ordered.inj (h : t.Ordered n) (hi : i < n) (hj : j < n) (hv : t.value i = t.value j) :
    i = j :=
  h.ascending.inj hi hj (congrArg BitVec.toNat hv)

end Cells

/-! ## Searching -/

section Find

variable {t : Breakpoints} {n lo hi : Nat} {a : BitVec 32}

/-- The search keeps a window around the address: an induction on its width. -/
theorem findLoop_finds (h : t.Ordered n) (w : Window t.key n a.toNat lo hi) (hn : hi ≤ n) :
    ∃ r, findLoop t a lo hi = .ok r ∧ t.Finds n a r := by
  obtain ⟨d, hd⟩ : ∃ d, d = hi - lo := ⟨_, rfl⟩
  induction d using Nat.strong_induction_on generalizing lo hi with
  | h d ih =>
    have hle := h.le
    rw [findLoop]
    by_cases hlt : lo < hi
    · obtain ⟨m, hm⟩ : ∃ m : Nat, ((lo : Int) + hi) >>> (1 : Nat) = m :=
        Int.eq_ofNat_of_zero_le (by rw [Int.shiftRight_eq_div_pow]; omega)
      have hmid := middle_bounds (show (lo : Int) < hi by omega)
      rw [dif_pos (show (lo : Int) < hi by omega)]
      simp only [hm] at hmid ⊢
      rw [load_of_lt (show m < 1024 by omega)]
      dsimp only
      by_cases hgt : a.toNat < (t.value m).toNat
      · rw [if_pos hgt]
        exact ih (m - lo) (by omega) (w.lower h.ascending hgt) (by omega) rfl
      · rw [if_neg hgt]
        by_cases hls : (t.value m).toNat < a.toNat
        · rw [if_pos hls]
          exact ih (hi - (m + 1)) (by omega) (w.raise h.ascending (by omega) hls) hn rfl
        · rw [if_neg hls]
          have heq : t.value m = a := BitVec.eq_of_toNat_eq (by omega)
          exact ⟨m, rfl, .inl ⟨m, by omega, rfl, heq⟩⟩
    · rw [dif_neg (by omega)]
      refine ⟨-1, rfl, .inr ⟨rfl, fun i hi' => ?_⟩⟩
      exact key_ne_iff.mp (w.absent (Nat.not_lt.mp hlt) i hi')

theorem gdbFindBreakpoint_finds (h : t.Ordered n) (a : BitVec 32) :
    ∃ r, gdbFindBreakpoint t a = .ok r ∧ t.Finds n a r := by
  unfold gdbFindBreakpoint
  rw [h.number]
  exact findLoop_finds h (.whole t.key n a.toNat) (Nat.le_refl n)

end Find

/-! ## Adding -/

section Add

variable {t : Breakpoints} {n : Nat} {a : BitVec 32}

/-- The loop moves the greater cells below `j` up by one, down to the first cell that is
not greater: an induction on `j`. -/
theorem addLoop_eq (a : BitVec 32) (t : Breakpoints) {j : Nat} (hj : j < 1024) :
    ∃ t' : Breakpoints, ∃ k : Nat, addLoop a t j = .ok (t', (k : Int)) ∧ k ≤ j ∧
      t'.breakpointsNumber = t.breakpointsNumber ∧
      (∀ i, t'.value i = if i ≤ k ∨ j < i then t.value i else t.value (i - 1)) ∧
      (∀ i, k ≤ i → i < j → a.toNat < t.key i) ∧ (0 < k → ¬ a.toNat < t.key (k - 1)) := by
  induction j generalizing t with
  | zero =>
    refine ⟨t, 0, ?_, Nat.le_refl 0, rfl, fun i => ?_, fun i _ hi => ?_, fun h => ?_⟩
    · rw [addLoop, if_neg (by omega)]
    · rw [if_pos (by omega)]
    · omega
    · omega
  | succ j ih =>
    have hcast : ((j + 1 : Nat) : Int) - 1 = j := by omega
    rw [addLoop, if_pos (by omega), hcast, load_of_lt (by omega)]
    dsimp only
    by_cases hlt : a.toNat < (t.value j).toNat
    · rw [if_pos hlt, store_of_lt hj]
      dsimp only
      have hset {i : Nat} : (t.set (j + 1) (t.value j)).value i =
          if i = j + 1 then t.value j else t.value i := value_set hj
      obtain ⟨t', k, hrun, hk, hnum, hval, habove, hstop⟩ :=
        ih (t.set (j + 1) (t.value j)) (by omega)
      refine ⟨t', k, hrun, by omega, hnum, fun i => ?_, fun i hki hij => ?_, fun hk0 => ?_⟩
      · rw [hval i, hset, hset]
        by_cases he : i = j + 1
        · rw [if_pos (show i ≤ k ∨ j < i by omega), if_pos he,
            if_neg (show ¬ (i ≤ k ∨ j + 1 < i) by omega), he, Nat.add_sub_cancel]
        · rw [if_neg he]
          by_cases hc : i ≤ k ∨ j < i
          · rw [if_pos hc, if_pos (by omega)]
          · rw [if_neg hc, if_neg (by omega), if_neg (by omega)]
      · by_cases he : i = j
        · rw [he]
          exact hlt
        · have h := habove i hki (by omega)
          rwa [key, hset, if_neg (by omega)] at h
      · have h := hstop hk0
        rwa [key, hset, if_neg (by omega)] at h
    · rw [if_neg hlt]
      refine ⟨t, j + 1, rfl, Nat.le_refl _, rfl, fun i => ?_, fun i hi hi' => ?_, fun _ => hlt⟩
      · rw [if_pos (by omega)]
      · omega

theorem gdbAddBreakpoint_spec (h : t.Ordered n) (hn : n < 1024) (a : BitVec 32) :
    ∃ t' n', gdbAddBreakpoint t a = .ok (1, t') ∧ t'.Ordered n' ∧
      elems t'.value n' = insert a (elems t.value n) := by
  obtain ⟨r, hr, hfind⟩ := gdbFindBreakpoint_finds h a
  rw [gdbAddBreakpoint, if_pos (by rw [h.number, MAX_BREAKPOINTS_NUMBER]; omega), hr, ok_bind]
  rcases hfind with ⟨i, hi, rfl, hv⟩ | ⟨rfl, habsent⟩
  · refine ⟨t, n, if_pos (by omega), h, ?_⟩
    rw [Finset.insert_eq_of_mem]
    exact mem_elems.mpr ⟨i, hi, hv⟩
  · rw [if_neg (by decide)]
    dsimp only
    rw [h.number]
    obtain ⟨t', k, hrun, hk, hnum, hval, habove, hstop⟩ :=
      addLoop_eq a { t with breakpointsNumber := (n : Int) + 1 } hn
    rw [hrun, ok_bind]
    dsimp only
    rw [store_of_lt (by omega), ok_bind]
    have hset {i : Nat} (hi : i < n + 1) : (t'.set k a).value i = insertAt t.value k a i := by
      rw [value_set (by omega), hval i, insertAt]
      by_cases hik : i = k
      · rw [if_pos hik, if_neg (by omega), if_pos hik]
      · rw [if_neg hik]
        by_cases hlt : i < k
        · rw [if_pos (by omega), if_pos hlt]; rfl
        · rw [if_neg (by omega), if_neg hlt, if_neg hik]; rfl
    have hwin : Window t.key n a.toNat k k := by
      refine ⟨fun i hi => ?_, fun i hi hin => habove i hi hin⟩
      have hle : ¬ a.toNat < t.key (k - 1) := hstop (by omega)
      have hne : t.key (k - 1) ≠ a.toNat := key_ne_iff.mpr (habsent (k - 1) (by omega))
      by_cases he : i = k - 1
      · rw [he]
        omega
      · have := h.ascending i (k - 1) (by omega) (by omega)
        omega
    refine ⟨_, n + 1, rfl, ⟨hnum, hn, fun i j hij hj => ?_⟩, ?_⟩
    · have hkey {i : Nat} (hi : i < n + 1) : (t'.set k a).key i = insertAt t.key k a.toNat i := by
        rw [key, hset hi, insertAt, insertAt, apply_ite BitVec.toNat, apply_ite BitVec.toNat]
        rfl
      rw [hkey (by omega), hkey hj]
      exact h.ascending.insertAt hwin hk i j hij hj
    · rw [elems_congr fun i hi => hset hi, elems_insertAt hk]

theorem gdbAddBreakpoint_full (h : t.Ordered n) (hn : ¬ n < 1024) (a : BitVec 32) :
    gdbAddBreakpoint t a = .ok (0, t) := by
  have hle := h.le
  rw [gdbAddBreakpoint, if_neg (by rw [h.number, MAX_BREAKPOINTS_NUMBER]; omega)]

end Add

/-! ## Removing -/

section Remove

variable {t : Breakpoints} {n : Nat} {a : BitVec 32}

/-- The loop moves the cells above `j` down by one: an induction on how many there are. -/
theorem removeLoop_eq (t : Breakpoints) {j last : Nat} (hlast : last < 1024) (hj : j ≤ last) :
    ∃ t', removeLoop last t j = .ok t' ∧ t'.breakpointsNumber = t.breakpointsNumber ∧
      ∀ i, t'.value i = if j ≤ i ∧ i < last then t.value (i + 1) else t.value i := by
  obtain ⟨d, hd⟩ : ∃ d, d = last - j := ⟨_, rfl⟩
  induction d generalizing t j with
  | zero =>
    refine ⟨t, ?_, rfl, fun i => ?_⟩
    · rw [removeLoop, if_neg (by omega)]
    · rw [if_neg (by omega)]
  | succ d ih =>
    have hcast : (j : Int) + 1 = (j + 1 : Nat) := by omega
    have hset {i : Nat} : (t.set j (t.value (j + 1))).value i =
        if i = j then t.value (j + 1) else t.value i := value_set (by omega)
    rw [removeLoop, if_pos (by omega), hcast, load_of_lt (by omega)]
    dsimp only
    rw [store_of_lt (by omega)]
    obtain ⟨t', hrun, hnum, hval⟩ :=
      ih (t.set j (t.value (j + 1))) (show j + 1 ≤ last by omega) (by omega)
    refine ⟨t', hrun, hnum, fun i => ?_⟩
    rw [hval i, hset, hset]
    by_cases he : i = j
    · rw [if_neg (by omega), if_pos he, if_pos (by omega), he]
    · rw [if_neg he]
      by_cases hc : j + 1 ≤ i ∧ i < last
      · rw [if_pos hc, if_neg (by omega), if_pos (by omega)]
      · rw [if_neg hc, if_neg (by omega)]

theorem gdbRemoveBreakpoint_spec (h : t.Ordered n) (a : BitVec 32) :
    ∃ t' n', gdbRemoveBreakpoint t a = .ok (if a ∈ elems t.value n then 1 else 0, t') ∧
      t'.Ordered n' ∧ elems t'.value n' = (elems t.value n).erase a := by
  obtain ⟨r, hr, hfind⟩ := gdbFindBreakpoint_finds h a
  rw [gdbRemoveBreakpoint, hr, ok_bind]
  rcases hfind with ⟨k, hk, rfl, hv⟩ | ⟨rfl, habsent⟩
  · have hmem : a ∈ elems t.value n := mem_elems.mpr ⟨k, hk, hv⟩
    have hle := h.le
    have hlast : (n : Int) - 1 = (n - 1 : Nat) := by omega
    rw [if_neg (by omega), if_pos hmem]
    dsimp only
    rw [h.number, hlast]
    obtain ⟨t', hrun, hnum, hval⟩ := removeLoop_eq
      { t with breakpointsNumber := ((n - 1 : Nat) : Int) } (show n - 1 < 1024 by omega)
      (show k ≤ n - 1 by omega)
    rw [hrun, ok_bind]
    have hrem {i : Nat} (hi : i < n - 1) : t'.value i = removeAt t.value k i := by
      rw [hval i, removeAt]
      by_cases hik : i < k
      · rw [if_neg (by omega), if_pos hik]; rfl
      · rw [if_pos (by omega), if_neg hik]; rfl
    have hn : n - 1 + 1 = n := by omega
    refine ⟨t', n - 1, rfl, ⟨hnum, by omega, fun i j hij hj => ?_⟩, ?_⟩
    · have hkey {i : Nat} (hi : i < n - 1) : t'.key i = removeAt t.key k i := by
        rw [key, hrem hi, removeAt, removeAt, apply_ite BitVec.toNat]
        rfl
      rw [hkey (by omega), hkey hj]
      exact Ascending.removeAt (by rw [hn]; exact h.ascending) i j hij hj
    · have herase := elems_removeAt (f := t.value) (n := n - 1) (j := k) (by omega)
        fun i hi hv => h.inj (by omega) hk hv
      rw [elems_congr fun i hi => hrem hi, herase, hn, hv]
  · have hmem : a ∉ elems t.value n := fun hm => by
      obtain ⟨i, hi, hv⟩ := mem_elems.mp hm
      exact habsent i hi hv
    refine ⟨t, n, ?_, h, (Finset.erase_eq_of_notMem hmem).symm⟩
    rw [if_pos rfl, if_neg hmem]

end Remove

/-! ## Runs -/

/-- A call that changes the table. -/
inductive Request where
  | add (address : BitVec 32)
  | remove (address : BitVec 32)
  deriving DecidableEq, Repr

namespace Request

def run (t : Breakpoints) : Request → Except Fault (Int × Breakpoints)
  | add a => gdbAddBreakpoint t a
  | remove a => gdbRemoveBreakpoint t a

/-- The same request on a set of at most 1024 elements. -/
def apply (s : Finset (BitVec 32)) : Request → Int × Finset (BitVec 32)
  | add a => if s.card < 1024 then (1, insert a s) else (0, s)
  | remove a => (if a ∈ s then 1 else 0, s.erase a)

/-- The results of the calls in order, and the table they leave. -/
def runAll (t : Breakpoints) : List Request → Except Fault (List Int × Breakpoints)
  | [] => .ok ([], t)
  | q :: qs => do
    let (r, t) ← q.run t
    let (rs, t) ← runAll t qs
    .ok (r :: rs, t)

def applyAll (s : Finset (BitVec 32)) : List Request → List Int × Finset (BitVec 32)
  | [] => ([], s)
  | q :: qs => ((q.apply s).1 :: (applyAll (q.apply s).2 qs).1, (applyAll (q.apply s).2 qs).2)

end Request

/-- The cells in use are the elements of `s` in increasing order. -/
def Represents (t : Breakpoints) (s : Finset (BitVec 32)) : Prop :=
  ∃ n, t.Ordered n ∧ elems t.value n = s

section Run

variable {t : Breakpoints} {s : Finset (BitVec 32)}

theorem represents_init (junk : Nat → BitVec 32) : (init junk).Represents ∅ :=
  ⟨0, ⟨rfl, Nat.zero_le _, fun _ j _ hj => absurd hj (Nat.not_lt_zero j)⟩, rfl⟩

theorem Ordered.card {n : Nat} (h : t.Ordered n) : (elems t.value n).card = n :=
  card_elems fun _ hi _ hk hv => h.inj hi hk hv

theorem run_represents (h : t.Represents s) (q : Request) :
    ∃ t', q.run t = .ok ((q.apply s).1, t') ∧ t'.Represents (q.apply s).2 := by
  obtain ⟨n, ho, rfl⟩ := h
  cases q with
  | add a =>
    unfold Request.run Request.apply
    dsimp only
    rw [ho.card]
    by_cases hn : n < 1024
    · rw [if_pos hn]
      obtain ⟨t', n', hrun, ho', helems⟩ := gdbAddBreakpoint_spec ho hn a
      exact ⟨t', hrun, n', ho', helems⟩
    · rw [if_neg hn]
      exact ⟨t, gdbAddBreakpoint_full ho hn a, n, ho, rfl⟩
  | remove a =>
    obtain ⟨t', n', hrun, ho', helems⟩ := gdbRemoveBreakpoint_spec ho a
    exact ⟨t', hrun, n', ho', helems⟩

theorem runAll_represents (h : t.Represents s) (qs : List Request) :
    ∃ t', Request.runAll t qs = .ok ((Request.applyAll s qs).1, t') ∧
      t'.Represents (Request.applyAll s qs).2 := by
  induction qs generalizing t s with
  | nil => exact ⟨t, rfl, h⟩
  | cons q qs ih =>
    obtain ⟨t₁, hrun, h₁⟩ := run_represents h q
    obtain ⟨t₂, hruns, h₂⟩ := ih h₁
    refine ⟨t₂, ?_, h₂⟩
    rw [Request.runAll, hrun, ok_bind]
    dsimp only
    rw [hruns]
    rfl

end Run

/-- The table holds the set `s`, and the calls see it. -/
structure Faithful (t : Breakpoints) (s : Finset (BitVec 32)) : Prop where
  nonneg : 0 ≤ t.breakpointsNumber
  le : t.breakpointsNumber ≤ MAX_BREAKPOINTS_NUMBER
  increasing : ∀ i j : Nat, i < j → (j : Int) < t.breakpointsNumber →
    (t.value i).toNat < (t.value j).toNat
  entries : ∀ a, a ∈ s ↔ ∃ i : Nat, (i : Int) < t.breakpointsNumber ∧ t.value i = a
  found : ∀ a ∈ s, ∃ i : Nat, gdbFindBreakpoint t a = .ok i ∧
    ∀ k : Nat, (k : Int) < t.breakpointsNumber ∧ t.value k = a ↔ k = i
  absent : ∀ a ∉ s, gdbFindBreakpoint t a = .ok (-1)
  removed : ∀ a, ∃ t', gdbRemoveBreakpoint t a = .ok (if a ∈ s then 1 else 0, t')

section Faithful

variable {t : Breakpoints} {s : Finset (BitVec 32)}

theorem Represents.faithful (h : t.Represents s) : t.Faithful s := by
  obtain ⟨n, ho, rfl⟩ := h
  have hle := ho.le
  have hlt {k : Nat} : (k : Int) < t.breakpointsNumber ↔ k < n := by rw [ho.number]; omega
  refine ⟨?_, ?_, fun i j hij hj => ?_, fun a => ?_, fun a ha => ?_, fun a ha => ?_, fun a => ?_⟩
  · rw [ho.number]; omega
  · rw [ho.number, MAX_BREAKPOINTS_NUMBER]; omega
  · exact ho.ascending i j hij (hlt.mp hj)
  · rw [mem_elems]
    exact exists_congr fun i => and_congr_left fun _ => hlt.symm
  · obtain ⟨r, hr, ⟨i, hi, rfl, hv⟩ | ⟨-, hno⟩⟩ := gdbFindBreakpoint_finds ho a
    · refine ⟨i, hr, fun k => ⟨fun ⟨hk, hka⟩ => ?_, fun hk => ?_⟩⟩
      · exact ho.inj (hlt.mp hk) hi (hka.trans hv.symm)
      · rw [hk]
        exact ⟨hlt.mpr hi, hv⟩
    · obtain ⟨i, hi, hv⟩ := mem_elems.mp ha
      exact absurd hv (hno i hi)
  · obtain ⟨r, hr, ⟨i, hi, -, hv⟩ | ⟨rfl, -⟩⟩ := gdbFindBreakpoint_finds ho a
    · exact absurd (mem_elems.mpr ⟨i, hi, hv⟩) ha
    · exact hr
  · obtain ⟨t', -, hrun, -⟩ := gdbRemoveBreakpoint_spec ho a
    exact ⟨t', hrun⟩

/-- **The table is a set**: every run of calls on the empty table returns what the set
returns, and leaves a table that holds it. -/
theorem runAll_faithful (junk : Nat → BitVec 32) (qs : List Request) :
    ∃ t, Request.runAll (init junk) qs = .ok ((Request.applyAll ∅ qs).1, t) ∧
      t.Faithful (Request.applyAll ∅ qs).2 := by
  obtain ⟨t, hrun, ht⟩ := runAll_represents (represents_init junk) qs
  exact ⟨t, hrun, ht.faithful⟩

end Faithful

end Breakpoints

end Armator.Sim
