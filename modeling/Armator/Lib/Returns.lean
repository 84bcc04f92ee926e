import Armator.Lib.Block

/-!
# What a returning computation satisfies

`Returns x Q` says that `x`, if it returns, returns a value with `Q`; a computation that
goes wrong returns nothing. The rules follow the composition of computations.
-/

namespace Armator.Lib

section Returns

variable {ε α β : Type} {x : Except ε α} {P Q : α → Prop}

/-- Every value `x` returns satisfies `Q`. -/
def Returns (x : Except ε α) (Q : α → Prop) : Prop := ∀ a, x = .ok a → Q a

theorem returns_ok {a : α} (h : Q a) : Returns (.ok a : Except ε α) Q := by
  intro a' ha
  cases ha
  exact h

theorem returns_error {e : ε} : Returns (.error e) Q := by
  intro a ha
  cases ha

theorem Returns.mono (h : Returns x P) (hpq : ∀ a, P a → Q a) : Returns x Q :=
  fun a ha => hpq a (h a ha)

/-- The rule of sequencing. -/
theorem Returns.bind {f : α → Except ε β} {R : β → Prop} (h : Returns x P)
    (hf : ∀ a, P a → Returns (f a) R) : Returns (x >>= f) R := by
  cases x with
  | error e => exact returns_error
  | ok a => exact hf a (h a rfl)

theorem returns_bind {f : α → Except ε β} {R : β → Prop} (hf : ∀ a, Returns (f a) R) :
    Returns (x >>= f) R :=
  Returns.bind (P := fun _ => True) (fun _ _ => trivial) fun a _ => hf a

theorem Returns.bind_congr {f f' : α → Except ε β} (h : Returns x P)
    (hf : ∀ a, P a → f a = f' a) : (x >>= f) = x >>= f' := by
  cases x with
  | error e => rfl
  | ok a => exact hf a (h a rfl)

theorem returns_ite {c : Prop} [Decidable c] {y : Except ε α} (ht : c → Returns x Q)
    (hf : ¬ c → Returns y Q) : Returns (if c then x else y) Q :=
  iteInduction (motive := fun x => Returns x Q) ht hf

end Returns

end Armator.Lib
