import Armator.Lib.SortedArray
import Armator.Sim.Debug
import Mathlib.Order.Basic
import Mathlib.Data.List.Lex

/-!
# The debugged files are a sorted list

`Stores t l`: the cells in use hold the names of the list `l` in order. As long as a cell is
free, `add_debug_to` is the insertion into a sorted list and `__is_debugged` decides
membership. With all 64 cells in use the capacity is tested on the place found for the name:
a name behind all others is dropped, any other is shifted in past the end of the array.
-/

namespace Armator.Sim

open Lib

/-! ## The order of `strcmp` -/

section Order

theorem strcmp_swap (s t : List (BitVec 8)) : strcmp t s = -strcmp s t := by
  induction s generalizing t with
  | nil => cases t <;> simp [strcmp]
  | cons c s ih =>
    cases t with
    | nil => rfl
    | cons d t =>
      rw [strcmp, strcmp]
      by_cases hcd : c = d
      · rw [if_pos hcd, if_pos hcd.symm, ih]
      · rw [if_neg hcd, if_neg (Ne.symm hcd)]
        omega

/-- `strcmp` compares the strings as lists of numbers: an induction on the first. -/
theorem strcmp_lt_iff {s t : List (BitVec 8)} (ht : 0 ∉ t) :
    strcmp s t < 0 ↔ s.map BitVec.toNat < t.map BitVec.toNat := by
  induction s generalizing t with
  | nil =>
    cases t with
    | nil => simp [strcmp]
    | cons d t =>
      have hd : d.toNat ≠ 0 := fun h0 => ht (List.mem_cons.mpr (.inl (by
        rw [← BitVec.toNat_inj, h0]
        rfl)))
      refine iff_of_true ?_ (List.nil_lt_cons _ _)
      rw [strcmp]
      omega
  | cons c s ih =>
    cases t with
    | nil =>
      refine iff_of_false ?_ (List.not_lt_nil _)
      rw [strcmp]
      omega
    | cons d t =>
      have htail : 0 ∉ t := fun hm => ht (List.mem_cons_of_mem d hm)
      rw [strcmp, List.map_cons, List.map_cons, List.cons_lt_cons_iff]
      by_cases hcd : c = d
      · rw [if_pos hcd, ih htail, hcd]
        simp
      · have hne : c.toNat ≠ d.toNat := fun h => hcd (BitVec.eq_of_toNat_eq h)
        rw [if_neg hcd]
        omega

def Name.key (a : Name) : List Nat := a.chars.map BitVec.toNat

theorem Name.key_injective : Function.Injective Name.key := by
  intro a b h
  have hchars := List.map_injective_iff.mpr (fun _ _ => BitVec.eq_of_toNat_eq) h
  cases a
  cases b
  cases hchars
  rfl

/-- Names in the order of `strcmp`. -/
instance : LinearOrder Name := LinearOrder.lift' Name.key Name.key_injective

instance : Inhabited Name := ⟨⟨[], List.not_mem_nil⟩⟩

variable {a b : Name}

theorem strcmp_neg_iff : strcmp a.chars b.chars < 0 ↔ a < b := strcmp_lt_iff b.noNul

theorem strcmp_pos_iff : 0 < strcmp a.chars b.chars ↔ b < a := by
  rw [← strcmp_neg_iff, strcmp_swap a.chars b.chars]
  omega

theorem strcmp_nonpos_iff : strcmp a.chars b.chars ≤ 0 ↔ a ≤ b := by
  rw [← not_lt, ← not_lt, strcmp_pos_iff]

theorem strcmp_eq_zero_iff : strcmp a.chars b.chars = 0 ↔ a = b := by
  rw [le_antisymm_iff (a := a), ← strcmp_nonpos_iff, ← strcmp_nonpos_iff,
    strcmp_swap a.chars b.chars]
  omega

end Order

namespace Debug

/-- The cells in use hold the names of `l` in order. -/
structure Stores (t : Debug) (l : List Name) : Prop where
  number : t.nbDebuggedFiles = l.length
  cell : ∀ i < l.length, t.debuggedFiles.get i = l[i]?

section Cells

variable {t : Debug} {l A B : List Name} {name : Name} {i j k : Nat} {p : Option Name}

theorem load_of_lt (h : i < 64) : t.load i = .ok (t.debuggedFiles.get i) := by
  rw [load, if_pos (Int.natCast_nonneg i), Int.toNat_natCast,
    Block.load_of_lt (by rw [t.alloc]; exact h)]

theorem store_of_lt (h : i < 64) : t.store i p = .ok (t.set i p) := by
  rw [store, Int.toNat_natCast, if_pos ⟨Int.natCast_nonneg i, by rw [t.alloc]; exact h⟩]

theorem get_set (h : i < 64) :
    (t.set i p).debuggedFiles.get j = if j = i then p else t.debuggedFiles.get j :=
  Block.get_set (by rw [t.alloc]; exact h)

theorem Stores.compare (h : t.Stores l) (hle : l.length ≤ 64) (hi : i < l.length) :
    t.compare i name = .ok (strcmp l[i].chars name.chars) := by
  rw [Debug.compare, load_of_lt (by omega), ok_bind, h.cell i hi,
    List.getElem?_eq_getElem hi]

/-- The first loop stops behind the smaller names: an induction on how many there are from
`i` on. -/
theorem positionLoop_eq (h : t.Stores (A ++ B)) (hle : (A ++ B).length ≤ 64)
    (hA : ∀ x ∈ A, x < name) (hB : ∀ x ∈ B.head?, name ≤ x) (hi : i ≤ A.length) :
    positionLoop name t i = .ok (A.length : Int) := by
  have hlen : (A ++ B).length = A.length + B.length := List.length_append
  obtain ⟨d, hd⟩ : ∃ d, d = A.length - i := ⟨_, rfl⟩
  induction d generalizing i with
  | zero =>
    have he : i = A.length := by omega
    rw [positionLoop, h.number, MAX_FILES_NUMBER, he]
    cases B with
    | nil => rw [if_neg (by rw [List.append_nil]; omega)]
    | cons b B =>
      rw [List.length_cons] at hlen
      rw [if_pos (by omega), h.compare hle (by omega)]
      have hb : ¬ strcmp b.chars name.chars < 0 := by
        rw [strcmp_neg_iff]
        exact not_lt.mpr (hB b rfl)
      simp only [List.getElem_append_right (Nat.le_refl A.length), Nat.sub_self,
        List.getElem_cons_zero]
      rw [if_neg hb]
  | succ d ih =>
    have hlt : i < A.length := by omega
    rw [positionLoop, h.number, MAX_FILES_NUMBER, if_pos (by omega), h.compare hle (by omega),
      List.getElem_append_left hlt]
    dsimp only
    rw [if_pos (strcmp_neg_iff.mpr (hA _ (List.getElem_mem hlt)))]
    exact ih (i := i + 1) (by omega) (by omega)

/-- The second loop moves the cells from `i` on up by one: an induction on how many there
are. -/
theorem shiftLoop_eq (t : Debug) (hij : i ≤ j) (hj : j < 64) :
    ∃ t', shiftLoop i t j = .ok t' ∧ t'.nbDebuggedFiles = t.nbDebuggedFiles ∧
      ∀ k, t'.debuggedFiles.get k =
        if i < k ∧ k ≤ j then t.debuggedFiles.get (k - 1) else t.debuggedFiles.get k := by
  obtain ⟨d, hd⟩ : ∃ d, d = j - i := ⟨_, rfl⟩
  induction d generalizing t j with
  | zero =>
    refine ⟨t, ?_, rfl, fun k => ?_⟩
    · rw [shiftLoop, if_neg (by omega)]
    · rw [if_neg (by omega)]
  | succ d ih =>
    have hcast : (j : Int) - 1 = (j - 1 : Nat) := by omega
    obtain ⟨t', hrun, hnum, hcell⟩ := ih (t.set j (t.debuggedFiles.get (j - 1)))
      (show i ≤ j - 1 by omega) (by omega) (by omega)
    refine ⟨t', ?_, hnum, fun k => ?_⟩
    · rw [shiftLoop, if_pos (by omega), hcast, load_of_lt (by omega)]
      dsimp only
      rw [store_of_lt hj]
      exact hrun
    · rw [hcell k, get_set hj, get_set hj]
      by_cases he : k = j
      · rw [if_neg (by omega), if_pos he, if_pos (by omega), he]
      · rw [if_neg he]
        by_cases hc : i < k ∧ k ≤ j - 1
        · rw [if_pos hc, if_neg (by omega), if_pos (by omega)]
        · rw [if_neg hc, if_neg (by omega)]

theorem shiftLoop_full (hi : i < 64) : shiftLoop i t 64 = .error (.outOfBounds 64 64) := by
  have hcast : (64 : Int) - 1 = (63 : Nat) := rfl
  have hstore : t.store 64 (t.debuggedFiles.get 63) = .error (.outOfBounds 64 64) := by
    rw [store, if_neg (by rw [t.alloc]; decide), t.alloc]
    rfl
  rw [shiftLoop, if_pos (by omega), hcast, load_of_lt (by decide)]
  dsimp only
  rw [hstore]

/-- A free cell: the name is inserted in front of the first that is not smaller. -/
theorem addDebugTo_eq (h : t.Stores l) (hlt : l.length < 64) (name : Name) :
    ∃ t', addDebugTo t name = .ok t' ∧ t'.Stores (l.orderedInsert (· ≤ ·) name) := by
  obtain ⟨A, B, rfl, hins, hA, hB⟩ := exists_insertion l name
  have hlen : (A ++ B).length = A.length + B.length := List.length_append
  have hpos := positionLoop_eq h (Nat.le_of_lt hlt) hA hB (Nat.zero_le _)
  obtain ⟨t', hrun, hnum, hcell⟩ := shiftLoop_eq t (show A.length ≤ (A ++ B).length by omega) hlt
  have hadd : addDebugTo t name =
      .ok { t'.set A.length (some name) with nbDebuggedFiles := t'.nbDebuggedFiles + 1 } := by
    rw [addDebugTo, show (0 : Int) = (0 : Nat) from rfl, hpos, ok_bind, MAX_FILES_NUMBER,
      if_neg (by omega), h.number, hrun, ok_bind, store_of_lt (by omega), ok_bind]
    rfl
  refine ⟨_, hadd, ?_, fun k hk => ?_⟩
  · change t'.nbDebuggedFiles + 1 = _
    rw [List.orderedInsert_length, hnum, h.number]
    omega
  · rw [List.orderedInsert_length] at hk
    change (t'.set A.length (some name)).debuggedFiles.get k = _
    rw [hins, getElem?_insertion, get_set (by omega), hcell k, Lib.insertAt]
    by_cases he : k = A.length
    · rw [if_pos he, if_neg (by omega), if_pos he]
    · rw [if_neg he]
      by_cases hlt : k < A.length
      · rw [if_neg (by omega), if_pos hlt, h.cell k (by omega)]
      · rw [if_pos (by omega), if_neg hlt, if_neg he, h.cell (k - 1) (by omega)]

/-- No free cell: a name behind all others is dropped, any other is shifted in past the
end. -/
theorem addDebugTo_full (h : t.Stores l) (hl : l.length = 64) (name : Name) :
    addDebugTo t name =
      if ∀ s ∈ l, s < name then .ok t else .error (.outOfBounds 64 64) := by
  obtain ⟨A, B, rfl, -, hA, hB⟩ := exists_insertion l name
  have hlen : (A ++ B).length = A.length + B.length := List.length_append
  have hpos := positionLoop_eq h (Nat.le_of_eq hl) hA hB (Nat.zero_le _)
  rw [addDebugTo, show (0 : Int) = (0 : Nat) from rfl, hpos, ok_bind, MAX_FILES_NUMBER]
  cases B with
  | nil =>
    rw [List.append_nil] at hl ⊢
    rw [if_pos (by omega), if_pos hA]
  | cons b B =>
    rw [List.length_cons] at hlen
    have hb : ¬ ∀ s ∈ A ++ b :: B, s < name := fun hall =>
      absurd (hall b (List.mem_append_right A List.mem_cons_self)) (not_lt.mpr (hB b rfl))
    rw [if_neg (by omega), if_neg hb, h.number, hl,
      show ((64 : Nat) : Int) = 64 from rfl, shiftLoop_full (by omega)]
    rfl

end Cells

/-- A table with names in order and no more of them than cells. -/
structure Represents (t : Debug) (l : List Name) : Prop extends t.Stores l where
  le : l.length ≤ 64
  sorted : l.Pairwise (· ≤ ·)

/-! ## Searching -/

section Search

variable {t : Debug} {l : List Name} {name : Name} {lo hi : Nat}

/-- The search keeps a window around the name: an induction on its width. The bounds may
cross, which is the empty window. -/
theorem searchLoop_eq (h : t.Represents l)
    (w : Window (fun i => l.getD i default) l.length name lo hi) (hn : hi ≤ l.length) :
    searchLoop t name lo ((hi : Int) - 1) = .ok (if name ∈ l then 1 else 0) := by
  obtain ⟨d, hd⟩ : ∃ d, d = hi - lo := ⟨_, rfl⟩
  induction d using Nat.strong_induction_on generalizing lo hi with
  | h d ih =>
    have hrise := rising_of_pairwise default h.sorted
    have hget {i : Nat} (hi : i < l.length) : l.getD i default = l[i] :=
      List.getD_eq_getElem l default hi
    rw [searchLoop]
    by_cases hlt : (lo : Int) < hi - 1
    · have hmid := tdiv_bounds hlt
      obtain ⟨m, hm⟩ : ∃ m : Nat, ((lo : Int) + (hi - 1)).tdiv 2 = m :=
        Int.eq_ofNat_of_zero_le (by omega)
      rw [hm] at hmid
      have hml : m < l.length := by omega
      rw [dif_pos hlt]
      dsimp only
      rw [hm, h.compare h.le hml]
      dsimp only
      by_cases hneg : l[m] < name
      · rw [if_pos (strcmp_neg_iff.mpr hneg)]
        have hw : Window _ _ name (m + 1) hi := hrise.raise w hml (by rw [hget hml]; exact hneg)
        exact ih (hi - (m + 1)) (by omega) hw hn rfl
      · rw [if_neg (strcmp_neg_iff.not.mpr hneg)]
        by_cases hpos : name < l[m]
        · rw [if_pos (strcmp_pos_iff.mpr hpos)]
          exact ih (m - lo) (by omega) (hrise.lower w (by rw [hget hml]; exact hpos))
            (by omega) rfl
        · have heq : l[m] = name := le_antisymm (not_lt.mp hpos) (not_lt.mp hneg)
          rw [if_neg (strcmp_pos_iff.not.mpr hpos), ← heq, if_pos (List.getElem_mem hml)]
    · rw [dif_neg hlt]
      by_cases he : (lo : Int) = hi - 1
      · have hlo : lo < l.length := by omega
        have hmem : l[lo] = name ↔ name ∈ l := by
          refine ⟨fun heq => heq ▸ List.getElem_mem hlo, fun hm => ?_⟩
          obtain ⟨i, hi', heq⟩ := List.mem_iff_getElem.mp hm
          have hin := w.inside hi' (by rw [hget hi', heq])
          have hil : i = lo := by omega
          subst hil
          exact heq
        rw [if_pos he, h.compare h.le hlo]
        simp only [strcmp_eq_zero_iff, hmem]
      · have habsent : name ∉ l := fun hm => by
          obtain ⟨i, hi', heq⟩ := List.mem_iff_getElem.mp hm
          exact w.absent (by omega) i hi' (by rw [hget hi', heq])
        rw [if_neg he, if_neg habsent]

theorem isDebugged_eq (h : t.Represents l) (name : Name) :
    isDebugged t name = .ok (if name ∈ l then 1 else 0) := by
  rw [isDebugged, h.number]
  exact searchLoop_eq h (.whole _ _ name) (Nat.le_refl _)

end Search

/-! ## Runs -/

/-- The names that were stored, in the order of their calls, and the table they leave. -/
def addAll (debug : Debug) : List Name → Except Fault (List Name × Debug)
  | [] => .ok ([], debug)
  | name :: names => do
    let next ← addDebugTo debug name
    let (accepted, last) ← addAll next names
    .ok (if next.nbDebuggedFiles = debug.nbDebuggedFiles then accepted else name :: accepted,
      last)

/-- With the names `l` in the table, the calls that find it full have a greater name than
all that are there. -/
def Fits (l names : List Name) : Prop :=
  ∀ x ∈ names.drop (64 - l.length), ∀ s ∈ l ++ names.take (64 - l.length), s < x

section Run

variable {t t' : Debug} {l names : List Name} {name : Name}

theorem represents_init : init.Represents [] where
  number := rfl
  cell := fun _ hi => absurd hi (Nat.not_lt_zero _)
  le := Nat.zero_le _
  sorted := List.Pairwise.nil

theorem Represents.insert (h : t.Represents l) (hlt : l.length < 64) (name : Name) :
    ∃ t', addDebugTo t name = .ok t' ∧ t'.Represents (l.orderedInsert (· ≤ ·) name) := by
  obtain ⟨t', hrun, hstores⟩ := addDebugTo_eq h.toStores hlt name
  exact ⟨t', hrun, hstores, by rw [List.orderedInsert_length]; omega,
    h.sorted.orderedInsert name l⟩

theorem fits_cons (hlt : l.length < 64) :
    Fits l (name :: names) ↔ Fits (l.orderedInsert (· ≤ ·) name) names := by
  have hroom : 64 - l.length = 64 - (l.length + 1) + 1 := by omega
  unfold Fits
  rw [List.orderedInsert_length, hroom, List.drop_succ_cons, List.take_succ_cons]
  refine forall₂_congr fun x _ => forall_congr' fun s => imp_congr_left ?_
  rw [List.mem_append, List.mem_append, List.mem_cons, List.mem_orderedInsert]
  tauto

theorem fits_full (hl : l.length = 64) :
    Fits l (name :: names) ↔ (∀ s ∈ l, s < name) ∧ Fits l names := by
  unfold Fits
  rw [hl]
  simp

/-- A run of calls: an induction on the names. -/
theorem addAll_spec (h : t.Represents l) (names : List Name) :
    (Fits l names → ∃ t' l', addAll t names = .ok (names.take (64 - l.length), t') ∧
        t'.Represents l' ∧ l'.Perm (l ++ names.take (64 - l.length))) ∧
      (¬ Fits l names → ∃ e, addAll t names = .error e) := by
  induction names generalizing t l with
  | nil =>
    refine ⟨fun _ => ⟨t, l, by rw [List.take_nil]; rfl, h, by simp⟩, fun hn => ?_⟩
    exact absurd (fun x hx => absurd hx (by rw [List.drop_nil]; exact List.not_mem_nil)) hn
  | cons name names ih =>
    by_cases hlt : l.length < 64
    · obtain ⟨t₁, hrun, h₁⟩ := h.insert hlt name
      have hnum : t₁.nbDebuggedFiles ≠ t.nbDebuggedFiles := by
        rw [h₁.number, h.number, List.orderedInsert_length]
        omega
      have hroom : 64 - l.length = 64 - (l.orderedInsert (· ≤ ·) name).length + 1 := by
        rw [List.orderedInsert_length]
        omega
      rw [fits_cons hlt, addAll, hrun, ok_bind, hroom, List.take_succ_cons]
      refine ⟨fun hf => ?_, fun hf => ?_⟩
      · obtain ⟨t', l', hruns, h', hperm⟩ := (ih h₁).1 hf
        refine ⟨t', l', ?_, h', hperm.trans ?_⟩
        · rw [hruns, ok_bind]
          dsimp only
          rw [if_neg hnum]
        · exact ((List.perm_orderedInsert _ name l).append_right _).trans
            List.perm_middle.symm
      · obtain ⟨e, he⟩ := (ih h₁).2 hf
        exact ⟨e, by rw [he]; rfl⟩
    · have hl : l.length = 64 := Nat.le_antisymm h.le (Nat.not_lt.mp hlt)
      rw [fits_full hl, addAll, addDebugTo_full h.toStores hl]
      by_cases hall : ∀ s ∈ l, s < name
      · have htake : (name :: names).take (64 - l.length) = names.take (64 - l.length) := by
          rw [hl, Nat.sub_self, List.take_zero, List.take_zero]
        rw [if_pos hall, ok_bind, htake]
        refine ⟨fun hf => ?_, fun hf => ?_⟩
        · obtain ⟨t', l', hruns, h'⟩ := (ih h).1 hf.2
          refine ⟨t', l', ?_, h'⟩
          rw [hruns, ok_bind]
          dsimp only
          rw [if_pos rfl]
        · obtain ⟨e, he⟩ := (ih h).2 fun hfit => hf ⟨hall, hfit⟩
          exact ⟨e, by rw [he]; rfl⟩
      · rw [if_neg hall]
        exact ⟨fun hf => absurd hf.1 hall, fun _ => ⟨_, rfl⟩⟩

theorem Fits.of_prefix {calls : List Name} (hf : Fits l names) (hp : calls <+: names) :
    Fits l calls := by
  obtain ⟨rest, rfl⟩ := hp
  intro x hx s hs
  refine hf x ?_ s ?_
  · rw [List.drop_append]
    exact List.mem_append_left _ hx
  · rw [List.take_append, ← List.append_assoc]
    exact List.mem_append_left _ hs

end Run

/-- The table after calls that stored the names `accepted`: it has at most 64 names, in the
order of `strcmp`, these are the accepted ones, and the search decides which names they
are. -/
structure Decides (t : Debug) (l accepted : List Name) : Prop where
  stores : t.Stores l
  bounded : t.nbDebuggedFiles ≤ MAX_FILES_NUMBER
  ordered : l.Pairwise fun a b => strcmp a.chars b.chars ≤ 0
  kept : l.Perm accepted
  search : ∀ name, isDebugged t name = .ok (if name ∈ l then 1 else 0)

section Table

variable {t : Debug} {l accepted : List Name}

theorem Represents.decides (h : t.Represents l) (hp : l.Perm accepted) : t.Decides l accepted where
  stores := h.toStores
  bounded := by
    have hle := h.le
    rw [h.number, MAX_FILES_NUMBER]
    omega
  ordered := h.sorted.imp strcmp_nonpos_iff.mpr
  kept := hp
  search := isDebugged_eq h

theorem addAll_init_fault {names : List Name} (hf : ¬ Fits [] names) :
    ¬ ∃ accepted t, addAll init names = .ok (accepted, t) ∧ ∃ l, t.Decides l accepted :=
  not_exists_ok ((addAll_spec represents_init names).2 hf)

/-- **A bounded sorted table**: the runs that keep it one in every state are those in which
each name after the first 64 is greater than all of these. -/
theorem decides_iff (names : List Name) :
    (∀ calls, calls <+: names → ∃ accepted t, addAll init calls = .ok (accepted, t) ∧
        ∃ l, t.Decides l accepted) ↔
      ∀ x ∈ names.drop 64, ∀ s ∈ names.take 64, strcmp s.chars x.chars < 0 := by
  have hfits : (∀ x ∈ names.drop 64, ∀ s ∈ names.take 64, strcmp s.chars x.chars < 0) ↔
      Fits [] names :=
    forall₂_congr fun _ _ => forall₂_congr fun _ _ => strcmp_neg_iff
  rw [hfits]
  constructor
  · intro hall
    by_contra hf
    exact addAll_init_fault hf (hall names (List.prefix_refl names))
  · intro hf calls hp
    obtain ⟨t, l, hrun, h, hperm⟩ :=
      (addAll_spec represents_init calls).1 (hf.of_prefix hp)
    exact ⟨_, t, hrun, l, h.decides hperm⟩

/-- Sixty-five calls with one name: the last stores past the end. -/
theorem not_decides_repeated :
    ¬ ∃ accepted t, addAll init (List.replicate 65 ⟨[0x78], by decide⟩) = .ok (accepted, t) ∧
      ∃ l, t.Decides l accepted := by
  refine addAll_init_fault fun hf => ?_
  refine absurd (hf ⟨[0x78], by decide⟩ ?_ ⟨[0x78], by decide⟩ ?_) (lt_irrefl _)
  · rw [List.drop_replicate]
    exact List.mem_replicate.mpr ⟨by decide, rfl⟩
  · rw [List.take_replicate]
    exact List.mem_replicate.mpr ⟨by decide, rfl⟩

end Table

end Debug

end Armator.Sim
