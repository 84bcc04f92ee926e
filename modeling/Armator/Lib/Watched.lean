import Armator.Lib.Block

/-!
# Watched runs

`Errs x Q` says that `x`, if it goes wrong, does so in a way with `Q`. A watched run goes the
way of a plain one but may stop before it, with errors of its own: `Watched E R x y` says that
what `x` returns `y` returns too, up to `R`, and that an error of `x` which `E` takes to one
of the plain run is that of `y`. Of a run that was stopped nothing is said.
-/

namespace Armator.Lib

section Errs

variable {ε α β : Type} {x y : Except ε α} {Q : ε → Prop}

/-- Every error of `x` satisfies `Q`. -/
def Errs (x : Except ε α) (Q : ε → Prop) : Prop := ∀ e, x = .error e → Q e

theorem errs_ok (a : α) : Errs (.ok a) Q := by
  intro e he
  cases he

theorem errs_error {e : ε} : Errs (.error e : Except ε α) Q ↔ Q e := by
  refine ⟨fun h => h e rfl, fun h e' he => ?_⟩
  cases he
  exact h

/-- A sequence goes wrong in its first part or, once that has returned, in its second. -/
theorem errs_bind {f : α → Except ε β} :
    Errs (x >>= f) Q ↔ Errs x Q ∧ ∀ a, x = .ok a → Errs (f a) Q := by
  cases x with
  | error e =>
    refine ⟨fun h => ⟨errs_error.mpr (h e rfl), fun a ha => ?_⟩, fun h => ?_⟩
    · cases ha
    · exact errs_error.mpr (errs_error.mp h.1)
  | ok a =>
    refine ⟨fun h => ⟨errs_ok a, fun a' ha => ?_⟩, fun h => h.2 a rfl⟩
    cases ha
    exact h

theorem errs_bind_ok {f : α → Except ε β} {a : α} (hx : x = .ok a) :
    Errs (x >>= f) Q ↔ Errs (f a) Q := by
  rw [hx, ok_bind]

theorem not_errs_bind {f : α → Except ε β} {e : ε} (hx : x = .error e) (he : ¬ Q e) :
    ¬ Errs (x >>= f) Q := by
  rw [hx]
  exact fun h => he (h e rfl)

theorem errs_ite {c : Prop} [Decidable c] (ht : c → Errs x Q) (hf : ¬ c → Errs y Q) :
    Errs (if c then x else y) Q :=
  iteInduction (motive := fun x => Errs x Q) ht hf

end Errs

section Watched

variable {ε ε' α β γ δ : Type} {E : ε → Option ε'} {R : α → β → Prop} {S : γ → δ → Prop}
  {x : Except ε α} {y : Except ε' β}

/-- The run `x` watches the run `y`. -/
def Watched (E : ε → Option ε') (R : α → β → Prop) : Except ε α → Except ε' β → Prop
  | .ok a, y => ∃ b, y = .ok b ∧ R a b
  | .error e, y => ∀ e', E e = some e' → y = .error e'

theorem watched_ok {a : α} {b : β} (h : R a b) : Watched E R (.ok a) (.ok b) := ⟨b, rfl, h⟩

theorem watched_error {e : ε} {e' : ε'} (h : E e = some e') :
    Watched E R (.error e) (.error e') := by
  intro e'' he
  rw [h] at he
  cases he
  rfl

theorem watched_stop {e : ε} (h : E e = none) : Watched E R (.error e) y := by
  intro e' he
  rw [h] at he
  cases he

/-- The rule of sequencing. -/
theorem Watched.bind {f : α → Except ε γ} {g : β → Except ε' δ} (h : Watched E R x y)
    (hf : ∀ a b, R a b → Watched E S (f a) (g b)) : Watched E S (x >>= f) (y >>= g) := by
  cases x with
  | error e =>
    intro e' he
    rw [h e' he]
    rfl
  | ok a =>
    obtain ⟨b, rfl, hab⟩ := h
    exact hf a b hab

theorem watched_ite {c : Prop} [Decidable c] {x' : Except ε α} {y' : Except ε' β}
    (ht : c → Watched E R x y) (hf : ¬ c → Watched E R x' y') :
    Watched E R (if c then x else x') (if c then y else y') :=
  ite_both ht hf

end Watched

end Armator.Lib
