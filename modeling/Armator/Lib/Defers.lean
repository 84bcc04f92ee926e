import Armator.Lib.Returns

/-!
# A run that does what another does

`Defers R x y` says that `y` returns whenever `x` does, with a value related by `R`; where `x`
goes wrong, `y` may do anything. So a program is compared with itself under assumptions that
make it go wrong more often.
-/

namespace Armator.Lib

section Defers

variable {ε δ α β γ η : Type} {R : α → β → Prop} {S : γ → η → Prop} {x x' : Except ε α}
  {y y' : Except δ β}

/-- `y` returns what `x` returns, up to `R`. -/
def Defers (R : α → β → Prop) (x : Except ε α) (y : Except δ β) : Prop :=
  Returns x fun a => ∃ b, y = .ok b ∧ R a b

theorem defers_ok {a : α} {b : β} (h : R a b) :
    Defers R (.ok a : Except ε α) (.ok b : Except δ β) := returns_ok ⟨b, rfl, h⟩

theorem defers_error {e : ε} : Defers R (.error e) y := returns_error

theorem defers_refl (x : Except ε α) : Defers Eq x x := fun a ha => ⟨a, ha, rfl⟩

/-- The rule of sequencing. -/
theorem Defers.bind {f : α → Except ε γ} {g : β → Except δ η} (h : Defers R x y)
    (hf : ∀ a b, R a b → Defers S (f a) (g b)) : Defers S (x >>= f) (y >>= g) :=
  Returns.bind h fun a ⟨b, hy, hab⟩ => by
    subst hy
    exact hf a b hab

theorem Defers.bind_eq {z : Except δ α} {f : α → Except ε γ} {g : α → Except δ η}
    (h : Defers Eq x z) (hf : ∀ a, Defers S (f a) (g a)) : Defers S (x >>= f) (z >>= g) :=
  h.bind fun a b hab => by
    subst hab
    exact hf a

theorem defers_ite {c : Prop} [Decidable c] (ht : c → Defers R x y)
    (hf : ¬ c → Defers R x' y') : Defers R (if c then x else x') (if c then y else y') :=
  ite_both ht hf

end Defers

end Armator.Lib
