import Armator.Lib.Block

/-!
# A loop that tests after its body

`rounds step k` is `k` rounds of a body that may fail, and `doUntil` the loop that leaves
as soon as a test holds after a round, for at most `n` rounds. `StopsAfter` says after how
many rounds it leaves, and in which state.
-/

namespace Armator.Lib

section Rounds

variable {ε ε' σ τ : Type}

/-- `k` rounds of the body. -/
def rounds (step : σ → Except ε σ) : Nat → σ → Except ε σ
  | 0, a => .ok a
  | k + 1, a => do
    let a ← step a
    rounds step k a

/-- The loop: `none` if it is still running after `n` rounds. -/
def doUntil (step : σ → Except ε σ) (stop : σ → Bool) : Nat → σ → Except ε (Option σ)
  | 0, _ => .ok none
  | n + 1, a => do
    let a ← step a
    if stop a then .ok (some a) else doUntil step stop n a

/-- The test holds after `k` rounds, in the state `b`, and after no fewer. -/
structure StopsAfter (step : σ → Except ε σ) (stop : σ → Bool) (k : Nat) (a b : σ) : Prop where
  pos : 0 < k
  reached : rounds step k a = .ok b
  stopped : stop b = true
  before : ∀ j c, 0 < j → j < k → rounds step j a = .ok c → stop c = false

variable {step : σ → Except ε σ} {stop : σ → Bool} {a a₁ b : σ} {k n : Nat}

theorem rounds_succ (h : step a = .ok a₁) (k : Nat) : rounds step (k + 1) a = rounds step k a₁ := by
  rw [rounds, h, ok_bind]

theorem exists_step (h : rounds step (k + 1) a = .ok b) :
    ∃ a₁, step a = .ok a₁ ∧ rounds step k a₁ = .ok b := by
  rw [rounds] at h
  cases hs : step a with
  | error e =>
    rw [hs] at h
    cases h
  | ok a₁ =>
    rw [hs] at h
    exact ⟨a₁, rfl, h⟩

/-- The loop leaves after exactly `k` rounds: an induction on `k`. -/
theorem StopsAfter.doUntil_eq (h : StopsAfter step stop k a b) (n : Nat) :
    doUntil step stop n a = .ok (if k ≤ n then some b else none) := by
  induction k generalizing a n with
  | zero => exact absurd h.pos (Nat.lt_irrefl 0)
  | succ k ih =>
    cases n with
    | zero => rw [doUntil, if_neg (Nat.not_succ_le_zero k)]
    | succ n =>
      obtain ⟨a₁, ha, hb⟩ := exists_step h.reached
      rw [doUntil, ha, ok_bind]
      rcases Nat.eq_zero_or_pos k with rfl | hk
      · cases hb
        rw [if_pos h.stopped, if_pos (Nat.succ_le_succ (Nat.zero_le n))]
      · have hno : stop a₁ = false := h.before 1 a₁ Nat.one_pos (Nat.succ_lt_succ hk) (by
          rw [rounds_succ ha, rounds])
        have hrest : StopsAfter step stop k a₁ b :=
          ⟨hk, hb, h.stopped, fun j c hj hjk hc =>
            h.before (j + 1) c (Nat.succ_pos j) (Nat.succ_lt_succ hjk) (by rw [rounds_succ ha, hc])⟩
        rw [hno, if_neg Bool.false_ne_true, ih hrest n]
        simp only [Nat.succ_le_succ_iff]

/-- Where the test never holds the loop goes on as long as the rounds do: an induction on
how many are allowed. -/
theorem doUntil_of_never (h : ∀ j c, 0 < j → rounds step j a = .ok c → stop c = false) (n : Nat) :
    doUntil step stop n a = (rounds step n a).map fun _ => none := by
  induction n generalizing a with
  | zero => rfl
  | succ n ih =>
    rw [doUntil, rounds]
    cases ha : step a with
    | error e => rfl
    | ok a₁ =>
      have hno : stop a₁ = false := h 1 a₁ Nat.one_pos (by rw [rounds_succ ha, rounds])
      rw [ok_bind, ok_bind, hno, if_neg Bool.false_ne_true]
      exact ih fun j c hj hc => h (j + 1) c (Nat.succ_pos j) (by rw [rounds_succ ha, hc])

/-- **Simulation**: what one round keeps all the rounds keep. -/
theorem rounds_simulate {R : σ → τ → Prop} (step' : τ → Except ε' τ)
    (hstep : ∀ a b a₁, R a b → step a = .ok a₁ → ∃ b₁, step' b = .ok b₁ ∧ R a₁ b₁) {b : τ}
    (hR : R a b) (h : rounds step k a = .ok a₁) : ∃ b₁, rounds step' k b = .ok b₁ ∧ R a₁ b₁ := by
  induction k generalizing a b with
  | zero =>
    cases h
    exact ⟨b, rfl, hR⟩
  | succ k ih =>
    obtain ⟨a₂, ha, hrest⟩ := exists_step h
    obtain ⟨b₂, hb, hR₂⟩ := hstep a b a₂ hR ha
    obtain ⟨b₁, hrun, hR₁⟩ := ih hR₂ hrest
    exact ⟨b₁, by rw [rounds_succ hb, hrun], hR₁⟩

theorem rounds_keep {I : σ → Prop} (hstep : ∀ a a₁, I a → step a = .ok a₁ → I a₁) (ha : I a)
    (h : rounds step k a = .ok b) : I b := by
  induction k generalizing a with
  | zero =>
    cases h
    exact ha
  | succ k ih =>
    obtain ⟨a₁, hs, hrest⟩ := exists_step h
    exact ih (hstep a a₁ ha hs) hrest

end Rounds

end Armator.Lib
