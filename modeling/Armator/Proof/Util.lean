import Armator.Proof.Step

/-!
# The shifts of `util.c`

`asr` and `ror` put two C shifts together, by `s` and by `32 - s`. Both are the shift they
are named after for 1 to 31; by 0 they shift by 32, `ror` always and `asr` for the sign of a
negative value.
-/

namespace Armator.Sim

open Lib

/-! ## Amounts below 32 -/

section Words

variable {b : Build} {x : BitVec 32} {n : Nat}

theorem shl_of_lt (h : n < 32) : shl b x n = .ok (x <<< n) := by
  rw [shl, if_pos (by omega), Int.toNat_natCast]

/-- The fill of `asr` is the sign from bit `32 - n` on. -/
theorem getLsbD_fill {i : Nat} (hi : i < 32) :
    ((0xFFFFFFFF : BitVec 32) <<< (32 - n)).getLsbD i = decide (32 - n ≤ i) := by
  have hones : (0xFFFFFFFF : BitVec 32) = BitVec.allOnes 32 := rfl
  rw [hones, BitVec.getLsbD_shiftLeft, BitVec.getLsbD_allOnes, decide_eq_true hi, Bool.true_and,
    decide_eq_true (show i - (32 - n) < 32 by omega), Bool.and_true]
  by_cases h : i < 32 - n
  · rw [decide_eq_true h, decide_eq_false (by omega)]
    rfl
  · rw [decide_eq_false h, decide_eq_true (by omega)]
    rfl

theorem asr_of_lt {s : BitVec 8} (h0 : 0 < s.toNat) (h : s.toNat < 32) :
    asr b x s = .ok (x.sshiftRight s.toNat) := by
  have hcast : (32 : Int) - s.toNat = (32 - s.toNat : Nat) := by omega
  have hbits (i : Nat) (hi : i < 32) : (x.sshiftRight s.toNat).getLsbD i =
      ((x >>> s.toNat).getLsbD i || (x.msb && decide (32 - s.toNat ≤ i))) := by
    rw [BitVec.getLsbD_sshiftRight, BitVec.getLsbD_ushiftRight]
    by_cases hlow : s.toNat + i < 32
    · simp [hlow, hi, show ¬ 32 - s.toNat ≤ i by omega]
    · rw [BitVec.getLsbD_of_ge x _ (by omega)]
      simp [hlow, hi, show 32 - s.toNat ≤ i by omega]
  rw [asr, shr_of_lt h, ok_bind, show (31 : Int) = (31 : Nat) from rfl, getBit_of_lt (by omega),
    ok_bind, bit_eq, hcast, shl_of_lt (by omega)]
  have hmsb : x.getLsbD 31 = x.msb := rfl
  rw [hmsb]
  cases hx : x.msb with
  | false =>
    rw [if_neg (by decide), ok_bind]
    refine congrArg Except.ok (BitVec.eq_of_getLsbD_eq fun i hi => ?_)
    rw [hbits i hi, hx, BitVec.getLsbD_or]
    simp
  | true =>
    rw [if_pos (by decide), ok_bind]
    refine congrArg Except.ok (BitVec.eq_of_getLsbD_eq fun i hi => ?_)
    rw [hbits i hi, hx, BitVec.getLsbD_or, getLsbD_fill hi, Bool.true_and]

/-- `asr` by 0 fills with `~0 << 32`. -/
theorem asr_zero (x : BitVec 32) :
    asr b x 0 = if x.getLsbD 31 then b.overShl 0xFFFFFFFF 32 >>= fun y => .ok (x ||| y)
      else .ok x := by
  have hshr : shr b x ((0 : BitVec 8).toNat : Int) = .ok x :=
    (shr_of_lt (n := 0) (by decide)).trans (by rw [BitVec.ushiftRight_zero])
  rw [asr, hshr, ok_bind, show (31 : Int) = (31 : Nat) from rfl, getBit_of_lt (by decide), ok_bind,
    bit_eq]
  cases x.getLsbD 31 with
  | false => exact congrArg Except.ok BitVec.or_zero
  | true => rfl

theorem ror_of_lt {s : BitVec 8} (h0 : 0 < s.toNat) (h : s.toNat < 32) :
    ror b x s = .ok (x.rotateRight s.toNat) := by
  have hcast : (32 : Int) - s.toNat = (32 - s.toNat : Nat) := by omega
  rw [ror, shr_of_lt h, ok_bind, hcast, shl_of_lt (by omega), ok_bind, BitVec.rotateRight,
    Nat.mod_eq_of_lt h, BitVec.rotateRightAux]

theorem asr_zero_defined (x : BitVec 32) :
    (∃ y, asr b x 0 = .ok y) ↔
      (x.getLsbD 31 = true → ∃ y, b.overShl 0xFFFFFFFF 32 = .ok y) := by
  rw [asr_zero]
  cases x.getLsbD 31 with
  | false => simp
  | true =>
    rw [if_pos rfl]
    cases b.overShl 0xFFFFFFFF 32 <;> simp

end Words

/-! ## Shifts that have a value -/

namespace Build

variable (b : Build) (x : BitVec 32) (n : Int) (s : Nat)

/-- `x << n` has a value: the amount is in range, or the build gives it one. -/
def HasShl : Prop := 0 ≤ n ∧ n < 32 ∨ ∃ y, b.overShl x n = .ok y

/-- `x >> n` has a value. -/
def HasShr : Prop := 0 ≤ n ∧ n < 32 ∨ ∃ y, b.overShr x n = .ok y

/-- Both shifts of `asr` have; the second one is for the sign of a negative value. -/
def HasAsr : Prop := b.HasShr x s ∧ (x.getLsbD 31 = true → b.HasShl 0xFFFFFFFF (32 - s))

/-- Both shifts of `ror` have. -/
def HasRor : Prop := b.HasShr x s ∧ b.HasShl x (32 - s)

end Build

section Value

variable {b : Build} {x : BitVec 32} {n : Int} {s : BitVec 8}

theorem shl_returns : (∃ y, shl b x n = .ok y) ↔ b.HasShl x n := by
  unfold shl Build.HasShl
  split
  · next h => exact iff_of_true ⟨_, rfl⟩ (.inl h)
  · next h => exact ⟨.inr, fun hx => hx.resolve_left h⟩

theorem shr_returns : (∃ y, shr b x n = .ok y) ↔ b.HasShr x n := by
  unfold shr Build.HasShr
  split
  · next h => exact iff_of_true ⟨_, rfl⟩ (.inl h)
  · next h => exact ⟨.inr, fun hx => hx.resolve_left h⟩

theorem asr_returns : (∃ y, asr b x s = .ok y) ↔ b.HasAsr x s.toNat := by
  unfold Build.HasAsr
  rw [asr, show (31 : Int) = (31 : Nat) from rfl, getBit_of_lt (by decide), bit_eq, exists_bind_iff,
    ← shr_returns, ← shl_returns, ← exists_and_right]
  refine exists_congr fun low => and_congr_right fun _ => ?_
  rw [ok_bind]
  cases x.getLsbD 31 with
  | false => exact iff_of_true ⟨_, rfl⟩ fun h => absurd h Bool.false_ne_true
  | true =>
    rw [if_pos rfl, if_pos (by decide), exists_bind_iff]
    exact ⟨fun ⟨y, hy, _⟩ _ => ⟨y, hy⟩, fun h => (h rfl).imp fun y hy => ⟨hy, _, rfl⟩⟩

theorem ror_returns : (∃ y, ror b x s = .ok y) ↔ b.HasRor x s.toNat := by
  unfold Build.HasRor
  rw [ror, exists_bind_iff, ← shr_returns, ← shl_returns, ← exists_and_right]
  refine exists_congr fun low => and_congr_right fun _ => ?_
  rw [exists_bind_iff]
  exact ⟨fun ⟨y, hy, _⟩ => ⟨y, hy⟩, fun ⟨y, hy⟩ => ⟨y, hy, _, rfl⟩⟩

end Value

/-! ## Amounts that are out of range -/

section Trapping

variable {e : Bool} {x : BitVec 32} {n : Nat} {s : BitVec 8}

theorem shl_trapping (h : 32 ≤ n) : shl (.trapping e) x n = .error (.shift n) :=
  if_neg fun h' => by omega

theorem shr_trapping (h : 32 ≤ n) : shr (.trapping e) x n = .error (.shift n) :=
  if_neg fun h' => by omega

theorem asr_trapping (h : 32 ≤ s.toNat) : asr (.trapping e) x s = .error (.shift s.toNat) := by
  rw [asr, shr_trapping h, error_bind]

/-- `ror` by 0 shifts left by 32. -/
theorem ror_trapping (h : s.toNat = 0 ∨ 32 ≤ s.toNat) :
    ∃ f, ror (.trapping e) x s = .error f := by
  rw [ror]
  rcases h with h | h
  · rw [h, show ((0 : Nat) : Int) = (0 : Nat) from rfl, shr_of_lt (by decide), ok_bind]
    exact ⟨_, rfl⟩
  · rw [shr_trapping h]
    exact ⟨_, rfl⟩

end Trapping

/-! ## Where the helpers are right -/

/-- `asr` by `s` returns `⌊v / 2 ^ s⌋`, the signed value divided, whatever the build makes of a C
shift by 32 or more, which means that it evaluates none. -/
def AsrExact (v : BitVec 32) (s : BitVec 8) : Prop :=
  ∀ b, asr b v s = .ok (BitVec.ofInt 32 (v.toInt / 2 ^ s.toNat))

/-- `ror` by `s` returns `v` rotated right, and evaluates no C shift by 32 or more. -/
def RorExact (v : BitVec 32) (s : BitVec 8) : Prop := ∀ b, ror b v s = .ok (v.rotateRight s.toNat)

section Exact

variable {v : BitVec 32} {s : BitVec 8}

theorem sshiftRight_eq_floor (v : BitVec 32) (n : Nat) :
    v.sshiftRight n = BitVec.ofInt 32 (v.toInt / 2 ^ n) := by
  rw [BitVec.sshiftRight, Int.shiftRight_eq_div_pow]
  push_cast
  rfl

theorem sign_clear_iff : v.getLsbD 31 = false ↔ 0 ≤ v.toInt := by
  have hmsb : v.getLsbD 31 = v.msb := rfl
  rw [hmsb, BitVec.msb_eq_toInt, decide_eq_false_iff_not, Int.not_lt]

theorem asrExact_zero : AsrExact v 0 ↔ 0 ≤ v.toInt := by
  rw [← sign_clear_iff]
  constructor
  · intro h
    by_contra hsign
    obtain ⟨y, hy⟩ := (asr_zero_defined v).mp ⟨_, h (.trapping false)⟩
      (Bool.eq_true_of_not_eq_false hsign)
    cases hy
  · intro hsign b
    have hfloor := sshiftRight_eq_floor v 0
    rw [BitVec.sshiftRight_zero] at hfloor
    rw [asr_zero, hsign, if_neg Bool.false_ne_true]
    exact congrArg Except.ok hfloor

/-- **The shifts of `util.c`**, for the amounts 0 to 31: `asr` is right unless a negative value is
shifted by 0, `ror` unless the amount is 0. -/
theorem asr_ror_exact_iff (hs : s.toNat ≤ 31) :
    (AsrExact v s ↔ (s = 0 → 0 ≤ v.toInt)) ∧ (RorExact v s ↔ s ≠ 0) := by
  by_cases h0 : s = 0
  · subst h0
    refine ⟨asrExact_zero.trans ⟨fun h _ => h, fun h => h rfl⟩, ?_⟩
    refine iff_of_false (fun h => ?_) fun h => h rfl
    exact no_value (ror_trapping (e := false) (x := v) (.inl rfl)) ⟨_, h (.trapping false)⟩
  · have hpos : 0 < s.toNat := Nat.pos_of_ne_zero fun h => h0 (BitVec.eq_of_toNat_eq h)
    refine ⟨iff_of_true (fun b => ?_) fun h => absurd h h0, iff_of_true (fun b => ?_) h0⟩
    · rw [asr_of_lt hpos (by omega), sshiftRight_eq_floor]
    · exact ror_of_lt hpos (by omega)

/-- The most negative word by 4. -/
theorem asr_ror_exact_iff_four : AsrExact 0x80000000 4 ∧ RorExact 0x80000000 4 :=
  ⟨(asr_ror_exact_iff (by decide)).1.mpr fun h => absurd h (by decide),
    (asr_ror_exact_iff (by decide)).2.mpr (by decide)⟩

/-- The most negative word by 0: where a host takes the amount of a shift modulo 32, `asr` returns
all ones, and with a trapping build `ror` returns nothing. -/
theorem not_asr_ror_exact_zero : ¬ AsrExact 0x80000000 0 ∧ ¬ RorExact 0x80000000 0 := by
  constructor
  · intro h
    have hx := h { Build.trapping false with overShl := fun x n => .ok (x <<< (n % 32).toNat) }
    exact absurd (Except.ok.inj hx) (by decide)
  · intro h
    cases h (.trapping false)

end Exact

end Armator.Sim
