import Mathlib.Data.List.GetD

/-!
# Allocated blocks and faulting accesses

A C computation that may go wrong is an `Except Fault`: it returns a value, or
it faults and the program has no further behaviour. A `Block` is what an
allocation of some number of elements returns. `Block.load` and `Block.store`
are the accesses `b[i]` and `b[i] = a`; an index past the end faults.
`Block.get` and `Block.set` are the same accesses without the check, for
stating what a computation that did not fault has done.
-/

namespace Armator.Lib

/-- The ways a C computation goes wrong. -/
inductive Fault where
  /-- An access at `index` to a block of `size` elements. -/
  | outOfBounds (index size : Nat)
  /-- A shift by a negative amount, or by the width of the operand or more. -/
  | shift (amount : Int)
  deriving DecidableEq, Repr

section Bind

variable {ε α β : Type}

@[simp] theorem ok_bind (a : α) (f : α → Except ε β) : (Except.ok a >>= f) = f a := rfl

@[simp] theorem error_bind (e : ε) (f : α → Except ε β) :
    ((Except.error e : Except ε α) >>= f) = .error e := rfl

@[simp] theorem pure_eq_ok (a : α) : (pure a : Except ε α) = .ok a := rfl

/-- A relation between two conditionals that are decided alike. -/
theorem ite_both {R : α → β → Prop} {c : Prop} [Decidable c] {x x' : α} {y y' : β}
    (ht : c → R x y) (hf : ¬ c → R x' y') : R (if c then x else x') (if c then y else y') := by
  by_cases h : c
  · rw [if_pos h, if_pos h]
    exact ht h
  · rw [if_neg h, if_neg h]
    exact hf h

theorem exists_of_bind {x : Except ε α} {f : α → Except ε β} {b : β} (h : x >>= f = .ok b) :
    ∃ a, x = .ok a ∧ f a = .ok b := by
  cases x with
  | error e => cases h
  | ok a => exact ⟨a, rfl, h⟩

theorem exists_bind_iff {x : Except ε α} {f : α → Except ε β} :
    (∃ b, (x >>= f) = .ok b) ↔ ∃ a, x = .ok a ∧ ∃ b, f a = .ok b := by
  constructor
  · rintro ⟨b, hb⟩
    obtain ⟨a, ha, hf⟩ := exists_of_bind hb
    exact ⟨a, ha, b, hf⟩
  · rintro ⟨a, rfl, b, hf⟩
    exact ⟨b, hf⟩

theorem exists_pair_iff {x : Except ε α} {y : Except ε β} :
    (∃ c, (x >>= fun a => y >>= fun b => .ok (a, b)) = .ok c) ↔
      (∃ a, x = .ok a) ∧ ∃ b, y = .ok b := by
  rw [exists_bind_iff, ← exists_and_right]
  refine exists_congr fun a => and_congr_right fun _ => ?_
  rw [exists_bind_iff]
  exact ⟨fun ⟨b, hb, _⟩ => ⟨b, hb⟩, fun ⟨b, hb⟩ => ⟨b, hb, _, rfl⟩⟩

theorem exists_ok_iff {x : Except ε (α × β)} {a : α} {b : β} {Q : α → β → Prop}
    (h : x = .ok (a, b)) : (∃ a' b', x = .ok (a', b') ∧ Q a' b') ↔ Q a b := by
  simp [h, and_assoc]

theorem exists_snd_iff {x : Except ε (α × β)} {a : α} {b : β} {Q : β → Prop}
    (h : x = .ok (a, b)) : (∃ b', x = .ok (a, b') ∧ Q b') ↔ Q b := by
  simp [h]

theorem no_value {x : Except ε α} (h : ∃ e, x = .error e) : ¬ ∃ a, x = .ok a := by
  rintro ⟨a, hx⟩
  obtain ⟨e, he⟩ := h
  rw [he] at hx
  cases hx

theorem not_exists_ok {x : Except ε (α × β)} {Q : α → β → Prop} (h : ∃ e, x = .error e) :
    ¬ ∃ a b, x = .ok (a, b) ∧ Q a b :=
  fun ⟨a, b, hx, _⟩ => no_value h ⟨(a, b), hx⟩

end Bind

/-- An allocated array of `α`. -/
structure Block (α : Type) where
  cells : List α
  deriving DecidableEq

namespace Block

variable {α : Type} [Inhabited α]

def size (b : Block α) : Nat := b.cells.length

def get (b : Block α) (i : Nat) : α := b.cells.getD i default

def set (b : Block α) (i : Nat) (a : α) : Block α := ⟨b.cells.set i a⟩

/-- `b[i]` -/
def load (b : Block α) (i : Nat) : Except Fault α :=
  if i < b.size then .ok (b.get i) else .error (.outOfBounds i b.size)

/-- `b[i] = a` -/
def store (b : Block α) (i : Nat) (a : α) : Except Fault (Block α) :=
  if i < b.size then .ok (b.set i a) else .error (.outOfBounds i b.size)

variable {b : Block α} {i j : Nat} {a : α}

theorem load_of_lt (h : i < b.size) : b.load i = .ok (b.get i) := if_pos h

theorem load_of_le (h : b.size ≤ i) : b.load i = .error (.outOfBounds i b.size) :=
  if_neg (Nat.not_lt.mpr h)

omit [Inhabited α] in
theorem store_of_lt (h : i < b.size) : b.store i a = .ok (b.set i a) := if_pos h

omit [Inhabited α] in
@[simp] theorem size_set : (b.set i a).size = b.size := by simp [size, set]

theorem get_set (h : i < b.size) : (b.set i a).get j = if j = i then a else b.get j := by
  unfold size at h
  simp only [get, set, List.getD_eq_getElem?_getD, List.getElem?_set]
  by_cases e : i = j
  · subst e; simp [h]
  · simp [e, Ne.symm e]

theorem ext_get {b' : Block α} (hs : b.size = b'.size) (h : ∀ i < b.size, b.get i = b'.get i) :
    b = b' := by
  obtain ⟨l⟩ := b; obtain ⟨l'⟩ := b'
  simp only [size, get, mk.injEq] at hs h ⊢
  refine List.ext_getElem hs fun i h1 h2 => ?_
  have := h i h1
  rwa [List.getD_eq_getElem _ _ h1, List.getD_eq_getElem _ _ h2] at this

end Block

end Armator.Lib
