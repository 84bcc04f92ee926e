import Armator.Lib.Returns

/-!
# Two runs side by side

`Related R x y` says that two computations go the same way: both return, with values related
by `R`, or both go wrong in the same way. The rules follow the composition of computations,
so that two runs of one program are compared access by access.
-/

namespace Armator.Lib

section Related

variable {ε α β γ δ : Type} {R : α → β → Prop} {S : γ → δ → Prop} {x : Except ε α}
  {y : Except ε β}

/-- Both return related values, or both go wrong in the same way. -/
def Related (R : α → β → Prop) : Except ε α → Except ε β → Prop
  | .ok a, .ok b => R a b
  | .error e, .error e' => e = e'
  | _, _ => False

theorem related_ok {a : α} {b : β} (h : R a b) : Related R (.ok a : Except ε α) (.ok b) := h

theorem related_error (e : ε) : Related R (.error e) (.error e) := rfl

theorem related_of_eq {x' : Except ε α} {R : α → α → Prop} (h : x = x') (hR : ∀ a, R a a) :
    Related R x x' := by
  subst h
  cases x with
  | error e => exact related_error e
  | ok a => exact related_ok (hR a)

theorem Related.and_returns {P : α → Prop} (h : Related R x y) (hx : Returns x P) :
    Related (fun a b => R a b ∧ P a) x y := by
  cases x with
  | error e =>
    cases y with
    | error e' => exact h
    | ok b => exact h
  | ok a =>
    cases y with
    | error e' => exact h
    | ok b => exact ⟨h, hx a rfl⟩

/-- The rule of sequencing. -/
theorem Related.bind {f : α → Except ε γ} {g : β → Except ε δ} (h : Related R x y)
    (hf : ∀ a b, R a b → Related S (f a) (g b)) : Related S (x >>= f) (y >>= g) := by
  cases x with
  | error e =>
    cases y with
    | error e' => exact h
    | ok b => exact h.elim
  | ok a =>
    cases y with
    | error e' => exact h.elim
    | ok b => exact hf a b h

theorem related_same {x' : Except ε α} {f : α → Except ε γ} {g : α → Except ε δ} (h : x = x')
    (hf : ∀ a, Related S (f a) (g a)) : Related S (x >>= f) (x' >>= g) := by
  refine (related_of_eq (R := Eq) h fun _ => rfl).bind fun a b hab => ?_
  subst hab
  exact hf a

theorem related_ite {c : Prop} [Decidable c] {x' : Except ε α} {y' : Except ε β}
    (ht : c → Related R x y) (hf : ¬ c → Related R x' y') :
    Related R (if c then x else x') (if c then y else y') :=
  ite_both ht hf

theorem Related.returns {a : α} (h : Related R x y) (hx : x = .ok a) : ∃ b, y = .ok b ∧ R a b := by
  subst hx
  cases y with
  | error e => exact h.elim
  | ok b => exact ⟨b, rfl, h⟩

theorem Related.returned {b : β} (h : Related R x y) (hy : y = .ok b) : ∃ a, x = .ok a ∧ R a b := by
  subst hy
  cases x with
  | error e => exact h.elim
  | ok a => exact ⟨a, rfl, h⟩

end Related

end Armator.Lib
