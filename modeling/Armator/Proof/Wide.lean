import Armator.Proof.Operations

/-!
# Sums and differences of several words

A sum of several words is an `ADD` and then an `ADC` for each further word, with S set;
a difference is a `SUB` and `SBC`s. The words are right as long as the carry flag is.
`Adc` adds the carry to its operand first, in 32 bits, and `Sbc` subtracts the borrow from
it: where that wraps around or compares against the wrong bound, the flag is lost.
-/

namespace Armator.Sim

open Lib Spec

/-! ## The operations -/

/-- The carry out of `Adc` and the borrow out of `Sbc`. -/
def adcCarry (a b : BitVec 32) (c : Bool) : Bool :=
  addCarry a (b + BitVec.ofNat 32 c.toNat) false

def sbcBorrow (a b : BitVec 32) (c : Bool) : Bool :=
  subBorrow a (b - BitVec.ofNat 32 c.toNat) false

/-! ## Chains of operations -/

/-- A position of the chain: the words, the registers they meet in, and what brings them
there, which leaves the CPSR alone. -/
structure Operand where
  a : BitVec 32
  b : BitVec 32
  rn : BitVec 8
  rd : BitVec 8
  carryOut : BitVec 8
  prepare : ArmCore → ArmCore
  reads : ∀ p, armReadRegister (prepare p) rn = .ok a
  keeps : ∀ p, armReadCpsr (prepare p) = armReadCpsr p
  rd_lt : rd.toNat < 15

/-- One operation with S set: the word it leaves in `Rd`, and the state. -/
def execute (opcode : BitVec 8) (p : ArmCore) (x : Operand) :
    Except Fault (BitVec 32 × ArmCore) := do
  let (_, p) ← dataProcessing (x.prepare p) opcode 1 x.rn x.rd x.b x.carryOut
  .ok (p.reg.get x.rd.toNat, p)

def executeAll (opcode : BitVec 8) (p : ArmCore) :
    List Operand → Except Fault (List (BitVec 32) × ArmCore)
  | [] => .ok ([], p)
  | x :: xs => do
    let (r, p) ← execute opcode p x
    let (rs, p) ← executeAll opcode p xs
    .ok (r :: rs, p)

/-- The operation `first` on the lowest words and `next` on the others. -/
def wide (first next : BitVec 8) (p : ArmCore) (x : Operand) (xs : List Operand) :
    Except Fault (List (BitVec 32) × ArmCore) := do
  let (r, p) ← execute first p x
  let (rs, p) ← executeAll next p xs
  .ok (r :: rs, p)

/-- The words to meet, position by position. -/
def pairs (xs : List Operand) : List (BitVec 32 × BitVec 32) := xs.map fun x => (x.a, x.b)

def leftValue (xs : List Operand) : Nat := wordsVal (xs.map Operand.a)
def rightValue (xs : List Operand) : Nat := wordsVal (xs.map Operand.b)

/-- `ADD` and `ADC`s leave the sum and its carry. -/
def AddsExactly (p : ArmCore) (x : Operand) (xs : List Operand) : Prop :=
  ∃ r q, wide 4 5 p x xs = .ok (r, q) ∧ r.length = (x :: xs).length ∧
    wordsVal r = (leftValue (x :: xs) + rightValue (x :: xs)) % (2 ^ 32) ^ (x :: xs).length ∧
    (q.flags.c = true ↔
      (2 ^ 32) ^ (x :: xs).length ≤ leftValue (x :: xs) + rightValue (x :: xs))

/-- `SUB` and `SBC`s leave the difference, and the carry is the absence of a borrow. -/
def SubtractsExactly (p : ArmCore) (x : Operand) (xs : List Operand) : Prop :=
  ∃ r q, wide 2 6 p x xs = .ok (r, q) ∧ r.length = (x :: xs).length ∧
    (wordsVal r : Int) = ((leftValue (x :: xs) : Int) - rightValue (x :: xs)) %
      ((2 ^ 32) ^ (x :: xs).length : Nat) ∧
    (q.flags.c = true ↔ rightValue (x :: xs) ≤ leftValue (x :: xs))

/-- The words `low` carry into the next position. -/
def CarriesInto (low : List Operand) : Prop :=
  (2 ^ 32) ^ low.length ≤ leftValue low + rightValue low

/-- The words `low` borrow from the next position. -/
def BorrowsInto (low : List Operand) : Prop := leftValue low < rightValue low

/-- When the sum is right: no word of the second number into which there is a carry is
all ones. -/
def AddExact (xs : List Operand) : Prop :=
  ∀ low x high, xs = low ++ x :: high → CarriesInto low → x.b ≠ 0xFFFFFFFF

/-- When the difference is right: wherever there is a borrow, comparing with the word
less one, in 32 bits, tells whether the borrow goes on. -/
def SubExact (xs : List Operand) : Prop :=
  ∀ low x high, xs = low ++ x :: high → BorrowsInto low →
    (x.a.toNat < (x.b - 1).toNat ↔ x.a.toNat ≤ x.b.toNat)

section Chains

variable {p : ArmCore} {x : Operand} {xs : List Operand}

theorem flags_prepare (x : Operand) (p : ArmCore) : (x.prepare p).flags = p.flags := by
  rw [ArmCore.flags, x.keeps, ArmCore.flags]

theorem execute_eq {opcode : BitVec 8} (p : ArmCore) (x : Operand) (hop : opcode.toNat < 8)
    {c v : Bool} {dest : BitVec 32}
    (h : flagInputs opcode.toNat x.a ((x.prepare p).read x.rd.toNat) x.b p.flags.c x.carryOut =
      ⟨dest, flagBit c, flagBit v⟩) :
    ∃ q, execute opcode p x = .ok (aluResult opcode.toNat x.a x.b p.flags.c, q) ∧
      q.flags.c = c := by
  have hrd : x.rd.toNat < 16 := Nat.lt_succ_of_lt x.rd_lt
  have hne : x.rd ≠ 15 := fun h => absurd (congrArg BitVec.toNat h) (Nat.ne_of_lt x.rd_lt)
  have hno : ¬ Discards opcode.toNat := fun h => absurd h.1 (Nat.not_le.mpr hop)
  rw [execute, dataProcessing_eq _ _ _ (by omega) (x.reads p) hrd, ok_bind, flags_prepare, h]
  dsimp only
  rw [operated_get_rd hno hrd]
  refine ⟨_, rfl, ?_⟩
  rw [ArmCore.flags, armReadCpsr_operated_of_sets (.inr ⟨rfl, hne⟩) hrd]
  exact congrArg Flags.c (flags_updateCpsr (by decide))

theorem execute_add (p : ArmCore) (x : Operand) :
    ∃ q, execute 4 p x = .ok (addWord x.a x.b false, q) ∧
      q.flags.c = addCarry x.a x.b false := by
  rw [addWord, Bool.toNat_false, BitVec.add_zero]
  exact execute_eq p x (by decide) rfl

theorem execute_adc (p : ArmCore) (x : Operand) :
    ∃ q, execute 5 p x = .ok (addWord x.a x.b p.flags.c, q) ∧
      q.flags.c = adcCarry x.a x.b p.flags.c :=
  execute_eq p x (by decide) rfl

theorem execute_sub (p : ArmCore) (x : Operand) :
    ∃ q, execute 2 p x = .ok (subWord x.a x.b false, q) ∧
      q.flags.c = !subBorrow x.a x.b false := by
  rw [subWord, Bool.toNat_false, BitVec.sub_zero]
  exact execute_eq p x (by decide) rfl

theorem execute_sbc (p : ArmCore) (x : Operand) :
    ∃ q, execute 6 p x = .ok (subWord x.a x.b (!p.flags.c), q) ∧
      q.flags.c = !sbcBorrow x.a x.b (!p.flags.c) :=
  execute_eq p x (by decide) rfl

/-- Operations along a list are a chain in the carry their flag stands for. -/
theorem executeAll_eq {opcode : BitVec 8} {word : BitVec 32 → BitVec 32 → Bool → BitVec 32}
    {carry : BitVec 32 → BitVec 32 → Bool → Bool} (view : Bool → Bool)
    (h : ∀ p x, ∃ q, execute opcode p x = .ok (word x.a x.b (view p.flags.c), q) ∧
      view q.flags.c = carry x.a x.b (view p.flags.c)) (xs : List Operand) (p : ArmCore) :
    ∃ q, executeAll opcode p xs =
        .ok ((chain word carry (view p.flags.c) (pairs xs)).1, q) ∧
      view q.flags.c = (chain word carry (view p.flags.c) (pairs xs)).2 := by
  induction xs generalizing p with
  | nil => exact ⟨p, rfl, rfl⟩
  | cons x xs ih =>
    obtain ⟨q₁, hx, hc⟩ := h p x
    obtain ⟨q₂, hxs, hc₂⟩ := ih q₁
    rw [hc] at hxs hc₂
    refine ⟨q₂, ?_, hc₂⟩
    rw [executeAll, hx, ok_bind]
    dsimp only
    rw [hxs]
    rfl

theorem adcCarry_false (a b : BitVec 32) : adcCarry a b false = addCarry a b false := by
  rw [adcCarry, Bool.toNat_false, BitVec.add_zero]

theorem sbcBorrow_false (a b : BitVec 32) : sbcBorrow a b false = subBorrow a b false := by
  rw [sbcBorrow, Bool.toNat_false, BitVec.sub_zero]

/-- `Adc` loses a carry into a word that is all ones, and no other. -/
theorem adcCarry_eq_iff (a b : BitVec 32) (c : Bool) :
    adcCarry a b c = addCarry a b c ↔ (c = true → b ≠ 0xFFFFFFFF) := by
  cases c with
  | false => exact iff_of_true (adcCarry_false a b) fun h => absurd h (by decide)
  | true =>
    have ha := a.isLt
    have hb := b.isLt
    have hne : b ≠ 0xFFFFFFFF ↔ b.toNat ≠ 0xFFFFFFFF := by
      rw [ne_eq, ← BitVec.toNat_inj]; rfl
    have hsum : (b + BitVec.ofNat 32 true.toNat).toNat = (b.toNat + 1) % 2 ^ 32 := by
      rw [BitVec.toNat_add]; rfl
    rw [hne, adcCarry, addCarry, addCarry, hsum, Bool.toNat_true, Bool.toNat_false,
      decide_eq_decide]
    simp only [forall_const]
    omega

theorem sbcBorrow_eq_iff (a b : BitVec 32) (c : Bool) :
    sbcBorrow a b c = subBorrow a b c ↔
      (c = true → (a.toNat < (b - 1).toNat ↔ a.toNat ≤ b.toNat)) := by
  cases c with
  | false => exact iff_of_true (sbcBorrow_false a b) fun h => absurd h (by decide)
  | true =>
    rw [sbcBorrow, subBorrow, subBorrow, Bool.toNat_true, Bool.toNat_false, decide_eq_decide,
      Nat.add_zero, Nat.lt_succ_iff]
    simp only [forall_const]
    rfl

theorem map_fst_pairs (xs : List Operand) : (pairs xs).map Prod.fst = xs.map Operand.a := by
  rw [pairs, List.map_map]
  rfl

theorem map_snd_pairs (xs : List Operand) : (pairs xs).map Prod.snd = xs.map Operand.b := by
  rw [pairs, List.map_map]
  rfl

theorem length_pairs (xs : List Operand) : (pairs xs).length = xs.length := List.length_map _

theorem forall_pairs {xs : List Operand}
    {P : List (BitVec 32 × BitVec 32) → BitVec 32 × BitVec 32 → Prop} :
    (∀ l₁ y l₂, pairs xs = l₁ ++ y :: l₂ → P l₁ y) ↔
      ∀ low x high, xs = low ++ x :: high → P (pairs low) (x.a, x.b) := by
  refine ⟨fun h low x high hxs => ?_, fun h l₁ y l₂ hl => ?_⟩
  · refine h (pairs low) (x.a, x.b) (pairs high) ?_
    rw [hxs, pairs, List.map_append, List.map_cons]
    rfl
  · obtain ⟨low, rest, rfl, rfl, hrest⟩ := List.map_eq_append_iff.mp hl
    obtain ⟨x, high, rfl, rfl, rfl⟩ := List.map_eq_cons_iff.mp hrest
    exact h low x high rfl

theorem wide_of_execute {first next : BitVec 8} {p q₁ q₂ : ArmCore} {x : Operand}
    {xs : List Operand} {r : BitVec 32} {rs : List (BitVec 32)}
    (hx : execute first p x = .ok (r, q₁)) (hxs : executeAll next q₁ xs = .ok (rs, q₂)) :
    wide first next p x xs = .ok (r :: rs, q₂) := by
  rw [wide, hx, ok_bind]
  dsimp only
  rw [hxs, ok_bind]

theorem wide_add_eq (p : ArmCore) (x : Operand) (xs : List Operand) :
    ∃ q, wide 4 5 p x xs = .ok ((chain addWord adcCarry false (pairs (x :: xs))).1, q) ∧
      q.flags.c = (chain addWord adcCarry false (pairs (x :: xs))).2 := by
  obtain ⟨q₁, hx, hc⟩ := execute_add p x
  obtain ⟨q₂, hxs, hc₂⟩ := executeAll_eq id execute_adc xs q₁
  rw [id, hc, ← adcCarry_false] at hxs hc₂
  exact ⟨q₂, wide_of_execute hx hxs, hc₂⟩

theorem wide_sub_eq (p : ArmCore) (x : Operand) (xs : List Operand) :
    ∃ q, wide 2 6 p x xs = .ok ((chain subWord sbcBorrow false (pairs (x :: xs))).1, q) ∧
      (!q.flags.c) = (chain subWord sbcBorrow false (pairs (x :: xs))).2 := by
  have hstep (p : ArmCore) (x : Operand) :
      ∃ q, execute 6 p x = .ok (subWord x.a x.b (!p.flags.c), q) ∧
        (!q.flags.c) = sbcBorrow x.a x.b (!p.flags.c) := by
    obtain ⟨q, hq, hc⟩ := execute_sbc p x
    exact ⟨q, hq, by rw [hc, Bool.not_not]⟩
  obtain ⟨q₁, hx, hc⟩ := execute_sub p x
  obtain ⟨q₂, hxs, hc₂⟩ := executeAll_eq not hstep xs q₁
  rw [hc, Bool.not_not, ← sbcBorrow_false] at hxs hc₂
  exact ⟨q₂, wide_of_execute hx hxs, hc₂⟩

theorem addsExactly_iff (p : ArmCore) (x : Operand) (xs : List Operand) :
    AddsExactly p x xs ↔ AddExact (x :: xs) := by
  obtain ⟨q, hrun, hc⟩ := wide_add_eq p x xs
  have hlen : (chain addWord adcCarry false (pairs (x :: xs))).1.length =
      (pairs (x :: xs)).length := length_chain false _
  have hval := eq_chain_add_iff (w := 32) (by decide) (c := q.flags.c) hlen
  rw [hc, Prod.mk.eta, chain_eq_iff (addWord_ne (by decide)), forall_pairs, map_fst_pairs,
    map_snd_pairs, length_pairs] at hval
  rw [AddsExactly, exists_ok_iff hrun, hlen, length_pairs, hc]
  simp only [true_and]
  rw [leftValue, rightValue, ← hval, AddExact]
  refine forall_congr' fun low => forall_congr' fun y => forall_congr' fun high =>
    forall_congr' fun _ => ?_
  rw [adcCarry_eq_iff, chain_add_carry (by decide), map_fst_pairs, map_snd_pairs, length_pairs]
  rfl

theorem subtractsExactly_iff (p : ArmCore) (x : Operand) (xs : List Operand) :
    SubtractsExactly p x xs ↔ SubExact (x :: xs) := by
  obtain ⟨q, hrun, hc⟩ := wide_sub_eq p x xs
  have hlen : (chain subWord sbcBorrow false (pairs (x :: xs))).1.length =
      (pairs (x :: xs)).length := length_chain false _
  have hval := eq_chain_sub_iff (w := 32) (by decide) (c := !q.flags.c) hlen
  have hflag : (q.flags.c = true ↔ rightValue (x :: xs) ≤ leftValue (x :: xs)) ↔
      ((!q.flags.c) = true ↔ leftValue (x :: xs) < rightValue (x :: xs)) := by
    rw [← Nat.not_lt]
    cases q.flags.c <;> simp
  rw [SubtractsExactly, exists_ok_iff hrun, hlen, length_pairs, hflag]
  rw [hc, Prod.mk.eta, chain_eq_iff (subWord_ne (by decide)), forall_pairs, map_fst_pairs,
    map_snd_pairs, length_pairs] at hval
  simp only [true_and]
  rw [hc, leftValue, rightValue, ← hval, SubExact]
  refine forall_congr' fun low => forall_congr' fun y => forall_congr' fun high =>
    forall_congr' fun _ => ?_
  rw [sbcBorrow_eq_iff, chain_sub_borrow (by decide), map_fst_pairs, map_snd_pairs]
  rfl

/-- **Sums and differences of several words**: when the chain of operations is exact. -/
theorem wide_exact_iff (p : ArmCore) (x : Operand) (xs : List Operand) :
    (AddsExactly p x xs ↔ AddExact (x :: xs)) ∧
      (SubtractsExactly p x xs ↔ SubExact (x :: xs)) :=
  ⟨addsExactly_iff p x xs, subtractsExactly_iff p x xs⟩

end Chains

/-- The first word in R1, the result in R0. -/
def Operand.inR1 (a b : BitVec 32) : Operand where
  a := a
  b := b
  rn := 1
  rd := 0
  carryOut := 0
  prepare p := { p with reg := p.reg.set 1 a }
  reads p := by
    rw [armReadRegister_of_lt (by decide), ArmCore.read_of_ne (by decide),
      Registers.get_set (by decide)]
    rfl
  keeps p := registersReadCpsr_set (by decide)
  rd_lt := by decide

/-- 1 + 0xFFFFFFFFFFFFFFFF in two words loses the carry out. -/
theorem not_addsExactly_all_ones :
    ¬ AddsExactly ⟨0, .ofFn fun _ => 0, .ofBytes [], []⟩ (.inR1 1 0xFFFFFFFF)
      [.inR1 0 0xFFFFFFFF] := by
  rintro ⟨r, q, hrun, -, -, hc⟩
  cases hrun
  exact absurd (hc.mpr (by decide)) (by decide)

end Armator.Sim
