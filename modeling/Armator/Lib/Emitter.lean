import Armator.Lib.Block
import Mathlib.Order.WellFounded

/-!
# Machines with output

A step of a machine goes wrong, stops the machine, or leads to another state with some output.
`outputs` is all the output of a run, and `Runs` are the runs that may still go on. To know the
output of a machine it is enough to say of every state what is still to come, and to show that
each step accounts for its own part of it (`Advances`).
-/

namespace Armator.Lib

section Emitter

variable {ε σ β : Type} {step : σ → Except ε (Option (σ × List β))}

/-- The output of a run of fewer than so many steps. -/
def outputs (step : σ → Except ε (Option (σ × List β))) (running : ε) :
    Nat → σ → Except ε (List β)
  | 0, _ => .error running
  | steps + 1, s => do
    match ← step s with
    | none => .ok []
    | some (s', out) => do
      let rest ← outputs step running steps s'
      .ok (out ++ rest)

/-- A run from one state to another, with its output. -/
inductive Runs (step : σ → Except ε (Option (σ × List β))) (s : σ) : List β → σ → Prop where
  | refl : Runs step s [] s
  | tail {out out' : List β} {t t' : σ} : Runs step s out t → step t = .ok (some (t', out')) →
      Runs step s (out ++ out') t'

/-- The machine stops in `s`, where nothing is to come, or a step keeps `Inv`, puts out what comes
first, and makes the state less. -/
def Advances (step : σ → Except ε (Option (σ × List β))) (Inv : σ → Prop) (f : σ → List β)
    (lt : σ → σ → Prop) (s : σ) : Prop :=
  step s = .ok none ∧ f s = [] ∨
    ∃ s' out, step s = .ok (some (s', out)) ∧ Inv s' ∧ f s = out ++ f s' ∧ lt s' s

variable {running : ε} {Inv : σ → Prop} {f : σ → List β} {lt : σ → σ → Prop} {s s' : σ}
  {out : List β}

theorem outputs_stop (h : step s = .ok none) (steps : Nat) :
    outputs step running (steps + 1) s = .ok [] := by
  rw [outputs, h, ok_bind]

theorem outputs_step (h : step s = .ok (some (s', out))) (steps : Nat) :
    outputs step running (steps + 1) s =
      outputs step running steps s' >>= fun rest => .ok (out ++ rest) := by
  rw [outputs, h, ok_bind]

/-- **The rule of total correctness**, an induction on the order of the states. -/
theorem outputs_of_advances (hwf : WellFounded lt)
    (hadv : ∀ s, Inv s → Advances step Inv f lt s) (hs : Inv s) :
    ∃ n, ∀ steps, n ≤ steps → outputs step running steps s = .ok (f s) := by
  induction s using hwf.induction with
  | _ s ih =>
    rcases hadv s hs with ⟨hstop, hf⟩ | ⟨s', out, hstep, hs', hf, hlt⟩
    · refine ⟨1, fun steps hle => ?_⟩
      obtain ⟨k, rfl⟩ := Nat.exists_eq_add_of_le' hle
      rw [outputs_stop hstop, hf]
    · obtain ⟨n, hn⟩ := ih s' hlt hs'
      refine ⟨n + 1, fun steps hle => ?_⟩
      obtain ⟨k, rfl⟩ := Nat.exists_eq_add_of_le' hle
      rw [← Nat.add_assoc, outputs_step hstep, hn _ (by omega), ok_bind, hf]

/-- What a step of a machine that advances is known to do. -/
theorem Advances.of_step (hadv : Advances step Inv f lt s)
    (hstep : step s = .ok (some (s', out))) : Inv s' ∧ f s = out ++ f s' ∧ lt s' s := by
  rcases hadv with ⟨hstop, -⟩ | ⟨t, out', ht, hinv, hf, hlt⟩
  · rw [hstep] at hstop
    cases hstop
  · rw [hstep] at ht
    cases ht
    exact ⟨hinv, hf, hlt⟩

/-- On the way the output is the first part of what was to come. -/
theorem Runs.advances (hrun : Runs step s out s') (hadv : ∀ s, Inv s → Advances step Inv f lt s)
    (hs : Inv s) : Inv s' ∧ f s = out ++ f s' := by
  induction hrun with
  | refl => exact ⟨hs, rfl⟩
  | tail _ hstep ih =>
    obtain ⟨ht, hf⟩ := ih
    obtain ⟨ht', hf', -⟩ := (hadv _ ht).of_step hstep
    refine ⟨ht', ?_⟩
    rw [hf, hf', List.append_assoc]

end Emitter

end Armator.Lib
