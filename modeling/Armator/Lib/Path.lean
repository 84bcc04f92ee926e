import Mathlib.Data.List.Basic

/-!
# Paths of a transition system

A `Path` lists the calls made since an initial state, each with the state it was made in.
What holds initially and is kept by every call holds at the end of every path; what is kept
by the calls that meet a condition, and broken by the others, holds along a path exactly if
every call meets the condition.
-/

namespace Armator.Lib

variable {σ κ : Type} {init : σ → Prop} {step : σ → κ → σ → Prop}

/-- A path with the calls `t` ends in the state. -/
inductive Path (init : σ → Prop) (step : σ → κ → σ → Prop) : List (σ × κ) → σ → Prop where
  | start {s : σ} : init s → Path init step [] s
  | next {t : List (σ × κ)} {s s' : σ} {c : κ} : Path init step t s → step s c s' →
      Path init step (t ++ [(s, c)]) s'

namespace Path

variable {t : List (σ × κ)} {s : σ} {I : σ → Prop} {C : σ → κ → Prop}

/-- The rule of invariants. -/
theorem invariant (h : Path init step t s) (h0 : ∀ s, init s → I s)
    (hstep : ∀ s c s', I s → step s c s' → I s') : I s := by
  induction h with
  | start hi => exact h0 _ hi
  | next _ hs ih => exact hstep _ _ _ ih hs

/-- `I` holds in every state of the path. -/
def Always (I : σ → Prop) (t : List (σ × κ)) (s : σ) : Prop := (∀ x ∈ t, I x.1) ∧ I s

/-- The rule of invariants that some calls break. -/
theorem always_iff (h : Path init step t s) (h0 : ∀ s, init s → I s)
    (hstep : ∀ s c s', I s → step s c s' → (I s' ↔ C s c)) :
    Always I t s ↔ ∀ x ∈ t, C x.1 x.2 := by
  induction h with
  | start hi =>
    refine iff_of_true ⟨fun _ hx => ?_, h0 _ hi⟩ fun _ hx => ?_
    · exact absurd hx List.not_mem_nil
    · exact absurd hx List.not_mem_nil
  | next _ hs ih =>
    unfold Always at ih ⊢
    simp only [List.forall_mem_append, List.forall_mem_singleton]
    refine ⟨fun h => ?_, fun h => ?_⟩
    · exact ⟨ih.mp h.1, (hstep _ _ _ h.1.2 hs).mp h.2⟩
    · obtain ⟨ht, hI⟩ := ih.mpr h.1
      exact ⟨⟨ht, hI⟩, (hstep _ _ _ hI hs).mpr h.2⟩

end Path

end Armator.Lib
