import Mathlib.Data.Nat.Digits.Lemmas
import Mathlib.Tactic.Ring

/-!
# Numbers of several words

`wordsVal` is the number a list of words encodes, least significant word first. `chain`
runs an operation along two such lists, each position handing a carry to the next; with
the carries of schoolbook addition and subtraction it adds and subtracts the numbers.
`chain_eq_iff` compares a chain with one whose carries are computed otherwise.
-/

namespace Armator.Lib

section Value

variable {w : Nat}

/-- The number whose base-`2 ^ w` digits are `ws`, least significant first. -/
def wordsVal (ws : List (BitVec w)) : Nat := Nat.ofDigits (2 ^ w) (ws.map BitVec.toNat)

@[simp] theorem wordsVal_nil : wordsVal ([] : List (BitVec w)) = 0 := rfl

@[simp] theorem wordsVal_cons (x : BitVec w) (xs : List (BitVec w)) :
    wordsVal (x :: xs) = x.toNat + 2 ^ w * wordsVal xs := by
  rw [wordsVal, List.map_cons, Nat.ofDigits_cons, wordsVal]

theorem wordsVal_lt (ws : List (BitVec w)) : wordsVal ws < (2 ^ w) ^ ws.length := by
  induction ws with
  | nil => simp
  | cons x xs ih =>
    have hx := x.isLt
    rw [wordsVal_cons, List.length_cons, pow_succ']
    calc x.toNat + 2 ^ w * wordsVal xs
        < 2 ^ w + 2 ^ w * wordsVal xs := by omega
      _ = 2 ^ w * (wordsVal xs + 1) := by ring
      _ ≤ 2 ^ w * (2 ^ w) ^ xs.length := Nat.mul_le_mul_left _ ih

theorem wordsVal_inj (hw : 0 < w) {xs ys : List (BitVec w)} (hl : xs.length = ys.length)
    (h : wordsVal xs = wordsVal ys) : xs = ys := by
  have hdig (zs : List (BitVec w)) : ∀ d ∈ zs.map BitVec.toNat, d < 2 ^ w := fun d hd => by
    obtain ⟨z, -, rfl⟩ := List.mem_map.mp hd
    exact z.isLt
  have hmap := Nat.ofDigits_inj_of_len_eq (Nat.one_lt_two_pow (by omega)) (by simpa using hl)
    (hdig xs) (hdig ys) h
  exact List.map_injective_iff.mpr (fun a b => BitVec.eq_of_toNat_eq) hmap

end Value

section Chain

variable {α β γ : Type}

/-- The results of `word` along the list and the last carry, the first being `c`. -/
def chain (word : α → β → Bool → γ) (carry : α → β → Bool → Bool) (c : Bool) :
    List (α × β) → List γ × Bool
  | [] => ([], c)
  | x :: xs =>
    (word x.1 x.2 c :: (chain word carry (carry x.1 x.2 c) xs).1,
      (chain word carry (carry x.1 x.2 c) xs).2)

variable {word : α → β → Bool → γ} {carry carry' : α → β → Bool → Bool}

theorem chain_cons (c : Bool) (x : α × β) (xs : List (α × β)) :
    chain word carry c (x :: xs) = (word x.1 x.2 c :: (chain word carry (carry x.1 x.2 c) xs).1,
      (chain word carry (carry x.1 x.2 c) xs).2) := rfl

@[simp] theorem length_chain (c : Bool) (l : List (α × β)) :
    (chain word carry c l).1.length = l.length := by
  induction l generalizing c with
  | nil => rfl
  | cons x xs ih => rw [chain_cons, List.length_cons, ih, List.length_cons]

/-- Where every word shows the carry into it, a chain with other carries gives the same
result only if each carry along the chain is computed alike. -/
theorem chain_eq_iff (hw : ∀ a b, word a b true ≠ word a b false) (c : Bool)
    (l : List (α × β)) :
    chain word carry' c l = chain word carry c l ↔
      ∀ l₁ x l₂, l = l₁ ++ x :: l₂ →
        carry' x.1 x.2 (chain word carry c l₁).2 = carry x.1 x.2 (chain word carry c l₁).2 := by
  induction l generalizing c with
  | nil => exact iff_of_true rfl fun l₁ x l₂ h => absurd h (by simp)
  | cons x xs ih =>
    by_cases h : carry' x.1 x.2 c = carry x.1 x.2 c
    · have htail : chain word carry' c (x :: xs) = chain word carry c (x :: xs) ↔
          chain word carry' (carry x.1 x.2 c) xs = chain word carry (carry x.1 x.2 c) xs := by
        rw [chain_cons, chain_cons, h, Prod.ext_iff, List.cons_inj_right, ← Prod.ext_iff]
      rw [htail, ih]
      refine ⟨fun hall l₁ y l₂ hl => ?_, fun hall l₁ y l₂ hl => ?_⟩
      · rcases List.cons_eq_append_iff.mp hl with ⟨rfl, hy⟩ | ⟨l₁', rfl, hl'⟩
        · rw [(List.cons.inj hy).1]
          exact h
        · exact hall l₁' y l₂ hl'
      · exact hall (x :: l₁) y l₂ (by rw [hl, List.cons_append])
    · -- the next word, or the last carry, shows the difference
      refine iff_of_false (fun heq => h ?_) fun hall => h (hall [] x xs rfl)
      rw [chain_cons, chain_cons] at heq
      cases xs with
      | nil => exact (Prod.ext_iff.mp heq).2
      | cons y ys =>
        have hhead := (List.cons.inj (List.cons.inj (Prod.ext_iff.mp heq).1).2).1
        cases h' : carry' x.1 x.2 c <;> cases h'' : carry x.1 x.2 c
        · rfl
        · rw [h', h''] at hhead
          exact absurd hhead.symm (hw _ _)
        · rw [h', h''] at hhead
          exact absurd hhead (hw _ _)
        · rfl

end Chain

/-! ## Addition and subtraction -/

section Arith

variable {w : Nat}

def addWord (a b : BitVec w) (c : Bool) : BitVec w := a + b + BitVec.ofNat w c.toNat

def addCarry (a b : BitVec w) (c : Bool) : Bool := 2 ^ w ≤ a.toNat + b.toNat + c.toNat

def subWord (a b : BitVec w) (c : Bool) : BitVec w := a - b - BitVec.ofNat w c.toNat

/-- The borrow out of `a - b` with the borrow `c` into it. -/
def subBorrow (a b : BitVec w) (c : Bool) : Bool := a.toNat < b.toNat + c.toNat

theorem ofNat_true_ne (hw : 0 < w) : BitVec.ofNat w true.toNat ≠ BitVec.ofNat w false.toNat := by
  intro h
  have h := congrArg BitVec.toNat h
  rw [BitVec.toNat_ofNat, BitVec.toNat_ofNat, Bool.toNat_true, Bool.toNat_false, Nat.zero_mod,
    Nat.mod_eq_of_lt (Nat.one_lt_two_pow (by omega))] at h
  exact Nat.one_ne_zero h

theorem addWord_ne (hw : 0 < w) (a b : BitVec w) : addWord a b true ≠ addWord a b false :=
  fun h => ofNat_true_ne hw ((BitVec.add_right_inj _).mp h)

theorem subWord_ne (hw : 0 < w) (a b : BitVec w) : subWord a b true ≠ subWord a b false := by
  intro h
  rw [subWord, subWord, BitVec.sub_eq_add_neg, BitVec.sub_eq_add_neg (a - b),
    BitVec.add_right_inj] at h
  exact ofNat_true_ne hw (BitVec.neg_inj.mp h)

theorem toNat_ofNat_bool (hw : 0 < w) (c : Bool) : (BitVec.ofNat w c.toNat).toNat = c.toNat := by
  have h1 : 1 < 2 ^ w := Nat.one_lt_two_pow (by omega)
  have hc := Bool.toNat_le c
  rw [BitVec.toNat_ofNat, Nat.mod_eq_of_lt (by omega)]

/-- A word and the carry out of it make up the sum. -/
theorem addWord_carry (hw : 0 < w) (a b : BitVec w) (c : Bool) :
    (addWord a b c).toNat + 2 ^ w * (addCarry a b c).toNat = a.toNat + b.toNat + c.toNat := by
  have ha := a.isLt
  have hb := b.isLt
  have hc := Bool.toNat_le c
  have hsum : (addWord a b c).toNat = (a.toNat + b.toNat + c.toNat) % 2 ^ w := by
    rw [addWord, BitVec.toNat_add, BitVec.toNat_add, toNat_ofNat_bool hw, Nat.mod_add_mod]
  rw [hsum]
  unfold addCarry
  by_cases h : 2 ^ w ≤ a.toNat + b.toNat + c.toNat
  · rw [decide_eq_true h, Bool.toNat_true, Nat.mul_one, Nat.mod_eq_sub_mod h,
      Nat.mod_eq_of_lt (by omega)]
    omega
  · rw [decide_eq_false h, Bool.toNat_false, Nat.mul_zero, Nat.mod_eq_of_lt (by omega)]
    rfl

/-- A word with the subtrahend makes up the minuend and what was borrowed. -/
theorem subWord_borrow (hw : 0 < w) (a b : BitVec w) (c : Bool) :
    (subWord a b c).toNat + b.toNat + c.toNat = a.toNat + 2 ^ w * (subBorrow a b c).toNat := by
  have ha := a.isLt
  have hb := b.isLt
  have hc := Bool.toNat_le c
  have h1 : 1 < 2 ^ w := Nat.one_lt_two_pow (by omega)
  have hdiff : (subWord a b c).toNat =
      (2 ^ w - c.toNat + ((2 ^ w - b.toNat + a.toNat) % 2 ^ w)) % 2 ^ w := by
    rw [subWord, BitVec.toNat_sub, BitVec.toNat_sub, toNat_ofNat_bool hw]
  rw [hdiff]
  unfold subBorrow
  by_cases h : a.toNat < b.toNat + c.toNat
  · rw [decide_eq_true h, Bool.toNat_true, Nat.mul_one]
    by_cases hab : a.toNat < b.toNat
    · rw [Nat.mod_eq_of_lt (show 2 ^ w - b.toNat + a.toNat < 2 ^ w by omega)]
      by_cases hz : 2 ^ w ≤ 2 ^ w - c.toNat + (2 ^ w - b.toNat + a.toNat)
      · rw [Nat.mod_eq_sub_mod hz, Nat.mod_eq_of_lt (by omega)]
        omega
      · rw [Nat.mod_eq_of_lt (by omega)]
        omega
    · have hab' : a.toNat = b.toNat := by omega
      rw [show 2 ^ w - b.toNat + a.toNat = 2 ^ w by omega, Nat.mod_self, Nat.add_zero,
        Nat.mod_eq_of_lt (by omega)]
      omega
  · rw [decide_eq_false h, Bool.toNat_false, Nat.mul_zero]
    have hge : 2 ^ w ≤ 2 ^ w - b.toNat + a.toNat := by omega
    rw [Nat.mod_eq_sub_mod hge, Nat.mod_eq_of_lt (show 2 ^ w - b.toNat + a.toNat - 2 ^ w < 2 ^ w by
      omega)]
    have hge' : 2 ^ w ≤ 2 ^ w - c.toNat + (2 ^ w - b.toNat + a.toNat - 2 ^ w) := by omega
    rw [Nat.mod_eq_sub_mod hge', Nat.mod_eq_of_lt (by omega)]
    omega

theorem chain_add (hw : 0 < w) (c : Bool) (l : List (BitVec w × BitVec w)) :
    wordsVal (chain addWord addCarry c l).1 +
        (2 ^ w) ^ l.length * (chain addWord addCarry c l).2.toNat =
      wordsVal (l.map Prod.fst) + wordsVal (l.map Prod.snd) + c.toNat := by
  induction l generalizing c with
  | nil => simp [chain]
  | cons x xs ih =>
    have hx := addWord_carry hw x.1 x.2 c
    have hxs := ih (addCarry x.1 x.2 c)
    rw [chain_cons, wordsVal_cons, List.map_cons, List.map_cons, wordsVal_cons, wordsVal_cons,
      List.length_cons, pow_succ']
    calc _ = (addWord x.1 x.2 c).toNat + 2 ^ w *
          (wordsVal (chain addWord addCarry (addCarry x.1 x.2 c) xs).1 + (2 ^ w) ^ xs.length *
            (chain addWord addCarry (addCarry x.1 x.2 c) xs).2.toNat) := by ring
      _ = (addWord x.1 x.2 c).toNat + 2 ^ w * (addCarry x.1 x.2 c).toNat +
          2 ^ w * (wordsVal (xs.map Prod.fst) + wordsVal (xs.map Prod.snd)) := by rw [hxs]; ring
      _ = _ := by rw [hx]; ring

theorem chain_sub (hw : 0 < w) (c : Bool) (l : List (BitVec w × BitVec w)) :
    wordsVal (chain subWord subBorrow c l).1 + wordsVal (l.map Prod.snd) + c.toNat =
      wordsVal (l.map Prod.fst) + (2 ^ w) ^ l.length * (chain subWord subBorrow c l).2.toNat := by
  induction l generalizing c with
  | nil => simp [chain]
  | cons x xs ih =>
    have hx := subWord_borrow hw x.1 x.2 c
    have hxs := ih (subBorrow x.1 x.2 c)
    rw [chain_cons, wordsVal_cons, List.map_cons, List.map_cons, wordsVal_cons, wordsVal_cons,
      List.length_cons, pow_succ']
    calc _ = (subWord x.1 x.2 c).toNat + x.2.toNat + c.toNat +
          2 ^ w * (wordsVal (chain subWord subBorrow (subBorrow x.1 x.2 c) xs).1 +
            wordsVal (xs.map Prod.snd)) := by ring
      _ = x.1.toNat + 2 ^ w * (wordsVal (chain subWord subBorrow (subBorrow x.1 x.2 c) xs).1 +
            wordsVal (xs.map Prod.snd) + (subBorrow x.1 x.2 c).toNat) := by rw [hx]; ring
      _ = x.1.toNat + 2 ^ w * wordsVal (xs.map Prod.fst) + 2 ^ w * (2 ^ w) ^ xs.length *
            (chain subWord subBorrow (subBorrow x.1 x.2 c) xs).2.toNat := by rw [hxs]; ring
      _ = _ := by ring

theorem eq_chain_add_iff (hw : 0 < w) {l : List (BitVec w × BitVec w)} {r : List (BitVec w)}
    {c : Bool} (hr : r.length = l.length) :
    (r, c) = chain addWord addCarry false l ↔
      wordsVal r = (wordsVal (l.map Prod.fst) + wordsVal (l.map Prod.snd)) % (2 ^ w) ^ l.length ∧
        (c = true ↔
          (2 ^ w) ^ l.length ≤ wordsVal (l.map Prod.fst) + wordsVal (l.map Prod.snd)) := by
  have hsum := chain_add hw false l
  have hlen : (chain addWord addCarry false l).1.length = l.length := length_chain false l
  generalize chain addWord addCarry false l = x at hsum hlen
  obtain ⟨r₀, c₀⟩ := x
  have hlt := wordsVal_lt r₀
  dsimp only at hsum hlen
  rw [hlen] at hlt
  rw [Bool.toNat_false, Nat.add_zero] at hsum
  rw [← hsum, Nat.add_mul_mod_self_left, Nat.mod_eq_of_lt hlt, Prod.mk.injEq]
  refine and_congr ⟨fun h => by rw [h], wordsVal_inj hw (hr.trans hlen.symm)⟩ ?_
  cases c₀
  · have hn : ¬ (2 ^ w) ^ l.length ≤ wordsVal r₀ + (2 ^ w) ^ l.length * false.toNat := by
      rw [Bool.toNat_false, Nat.mul_zero]; omega
    simp only [hn, iff_false, Bool.not_eq_true]
  · have hy : (2 ^ w) ^ l.length ≤ wordsVal r₀ + (2 ^ w) ^ l.length * true.toNat := by
      rw [Bool.toNat_true, Nat.mul_one]; omega
    simp only [hy, iff_true]

theorem chain_add_carry (hw : 0 < w) (l : List (BitVec w × BitVec w)) :
    (chain addWord addCarry false l).2 = true ↔
      (2 ^ w) ^ l.length ≤ wordsVal (l.map Prod.fst) + wordsVal (l.map Prod.snd) :=
  ((eq_chain_add_iff hw (length_chain false l)).mp rfl).2

theorem eq_chain_sub_iff (hw : 0 < w) {l : List (BitVec w × BitVec w)} {r : List (BitVec w)}
    {c : Bool} (hr : r.length = l.length) :
    (r, c) = chain subWord subBorrow false l ↔
      (wordsVal r : Int) = ((wordsVal (l.map Prod.fst) : Int) - wordsVal (l.map Prod.snd)) %
          ((2 ^ w) ^ l.length : Nat) ∧
        (c = true ↔ wordsVal (l.map Prod.fst) < wordsVal (l.map Prod.snd)) := by
  have hdiff := chain_sub hw false l
  have hlen : (chain subWord subBorrow false l).1.length = l.length := length_chain false l
  generalize chain subWord subBorrow false l = x at hdiff hlen
  obtain ⟨r₀, c₀⟩ := x
  have hlt := wordsVal_lt r₀
  have hb := wordsVal_lt (l.map Prod.snd)
  dsimp only at hdiff hlen
  rw [hlen] at hlt
  rw [List.length_map] at hb
  rw [Bool.toNat_false, Nat.add_zero] at hdiff
  have hint : ((wordsVal (l.map Prod.fst) : Int) - wordsVal (l.map Prod.snd)) =
      wordsVal r₀ + ((2 ^ w) ^ l.length : Nat) * -(c₀.toNat : Int) := by
    have h := congrArg (Nat.cast (R := Int)) hdiff
    rw [Nat.cast_add, Nat.cast_add, Nat.cast_mul] at h
    rw [Int.mul_neg]
    omega
  rw [hint, Int.add_mul_emod_self_left, Int.emod_eq_of_lt (by omega) (by omega), Int.natCast_inj,
    Prod.mk.injEq]
  refine and_congr ⟨fun h => by rw [h], wordsVal_inj hw (hr.trans hlen.symm)⟩ ?_
  cases c₀
  · rw [Bool.toNat_false, Nat.mul_zero, Nat.add_zero] at hdiff
    have hn : ¬ wordsVal (l.map Prod.fst) < wordsVal (l.map Prod.snd) := by omega
    simp only [hn, iff_false, Bool.not_eq_true]
  · rw [Bool.toNat_true, Nat.mul_one] at hdiff
    have hy : wordsVal (l.map Prod.fst) < wordsVal (l.map Prod.snd) := by omega
    simp only [hy, iff_true]

theorem chain_sub_borrow (hw : 0 < w) (l : List (BitVec w × BitVec w)) :
    (chain subWord subBorrow false l).2 = true ↔
      wordsVal (l.map Prod.fst) < wordsVal (l.map Prod.snd) :=
  ((eq_chain_sub_iff hw (length_chain false l)).mp rfl).2

end Arith

end Armator.Lib
