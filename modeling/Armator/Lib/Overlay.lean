import Mathlib.Logic.Function.Basic
import Mathlib.Data.List.Nodup

/-!
# Finite overlays

`overlay f ws` is `f` with the updates `ws` applied first to last. Two lists of
updates with distinct keys that lead to the same function are compared by
`Agrees`: the first list writes what the second one leaves behind, and where the
first does not write, `f` holds what the second one leaves behind.
-/

namespace Armator.Lib

section Overlay

variable {α β : Type} [DecidableEq α]

/-- `f` after the updates `ws`, the last update of a key winning. -/
def overlay (f : α → β) : List (α × β) → α → β
  | [] => f
  | w :: ws => overlay (Function.update f w.1 w.2) ws

/-- The keys a list of updates writes. -/
def keys (ws : List (α × β)) : List α := ws.map Prod.fst

@[simp] theorem overlay_nil (f : α → β) : overlay f [] = f := rfl

@[simp] theorem overlay_cons (f : α → β) (w : α × β) (ws : List (α × β)) :
    overlay f (w :: ws) = overlay (Function.update f w.1 w.2) ws := rfl

omit [DecidableEq α] in
@[simp] theorem keys_nil : keys ([] : List (α × β)) = [] := rfl

omit [DecidableEq α] in
@[simp] theorem keys_cons (w : α × β) (ws : List (α × β)) : keys (w :: ws) = w.1 :: keys ws := rfl

theorem overlay_of_notMem {f : α → β} {ws : List (α × β)} {x : α} (h : x ∉ keys ws) :
    overlay f ws x = f x := by
  induction ws generalizing f with
  | nil => rfl
  | cons w ws ih =>
    simp only [keys_cons, List.mem_cons, not_or] at h
    rw [overlay_cons, ih h.2, Function.update_of_ne h.1]

theorem overlay_of_mem {f : α → β} {ws : List (α × β)} (hd : (keys ws).Nodup) {w : α × β}
    (h : w ∈ ws) : overlay f ws w.1 = w.2 := by
  induction ws generalizing f with
  | nil => cases h
  | cons v ws ih =>
    rw [keys_cons, List.nodup_cons] at hd
    rcases List.mem_cons.mp h with rfl | h
    · rw [overlay_cons, overlay_of_notMem hd.1, Function.update_self]
    · exact ih hd.2 h

theorem eq_overlay_iff {f g : α → β} {ws : List (α × β)} (hd : (keys ws).Nodup) :
    (∀ x, g x = overlay f ws x) ↔ (∀ w ∈ ws, g w.1 = w.2) ∧ ∀ x, x ∉ keys ws → g x = f x := by
  constructor
  · intro h
    exact ⟨fun w hw => by rw [h, overlay_of_mem hd hw], fun x hx => by rw [h, overlay_of_notMem hx]⟩
  · rintro ⟨hw, hf⟩ x
    by_cases hx : x ∈ keys ws
    · obtain ⟨w, hm, rfl⟩ := List.mem_map.mp hx
      rw [hw w hm, overlay_of_mem hd hm]
    · rw [hf x hx, overlay_of_notMem hx]

omit [DecidableEq α] in
theorem map_eq_iff_forall_mem_zip {g : α → β} {xs : List α} {ys : List β}
    (hl : xs.length = ys.length) : xs.map g = ys ↔ ∀ w ∈ xs.zip ys, g w.1 = w.2 := by
  induction xs generalizing ys with
  | nil => cases ys with
    | nil => simp
    | cons y ys => cases hl
  | cons x xs ih => cases ys with
    | nil => cases hl
    | cons y ys =>
      have hl' : xs.length = ys.length := Nat.succ.inj hl
      rw [List.map_cons, List.cons.injEq, List.zip_cons_cons, List.forall_mem_cons, ih hl']

/-- The updates `ws` of `f` produce what the updates `vs` do: a condition on `f`. -/
def Agrees (f : α → β) (ws vs : List (α × β)) : Prop :=
  (∀ w ∈ ws, overlay f vs w.1 = w.2) ∧ ∀ v ∈ vs, v.1 ∉ keys ws → f v.1 = overlay f vs v.1

instance [DecidableEq β] (f : α → β) (ws vs : List (α × β)) : Decidable (Agrees f ws vs) :=
  inferInstanceAs (Decidable (_ ∧ _))

theorem overlay_eq_iff {f : α → β} {ws vs : List (α × β)} (hd : (keys ws).Nodup) :
    (∀ x, overlay f ws x = overlay f vs x) ↔ Agrees f ws vs := by
  constructor
  · intro h
    refine ⟨fun w hw => ?_, fun v _ hn => ?_⟩
    · rw [← h, overlay_of_mem hd hw]
    · rw [← h, overlay_of_notMem hn]
  · rintro ⟨hw, hv⟩ x
    by_cases hx : x ∈ keys ws
    · obtain ⟨w, hm, rfl⟩ := List.mem_map.mp hx
      rw [overlay_of_mem hd hm, hw w hm]
    · rw [overlay_of_notMem hx]
      by_cases hx' : x ∈ keys vs
      · obtain ⟨v, hm, rfl⟩ := List.mem_map.mp hx'
        exact hv v hm hx
      · rw [overlay_of_notMem hx']

end Overlay

end Armator.Lib
