import Mathlib.Logic.Relation

/-!
# Threads and one lock

The steps of a thread are of four kinds: it works aside, outside of its sections, it takes the
lock, works in the section, and gives the lock back. If what a thread does aside can be done
before a step of another thread's section just as well, then every run does what a serial one
does: a run in which a section is one step. While a section is open, the serial run has come to
where it was entered, and the steps aside of the others are done already.
-/

namespace Armator.Lib

open Relation

/-- A system of threads `ι` on the states `σ`. -/
structure Locked (ι σ : Type) where
  holder : σ → Option ι
  aside : ι → σ → σ → Prop
  enter : ι → σ → σ → Prop
  work : ι → σ → σ → Prop
  leave : ι → σ → σ → Prop
  aside_holder {i : ι} {s t : σ} : aside i s t → holder s ≠ some i ∧ holder t = holder s
  enter_holder {i : ι} {s t : σ} : enter i s t → holder s = none ∧ holder t = some i
  work_holder {i : ι} {s t : σ} : work i s t → holder s = some i ∧ holder t = some i
  leave_holder {i : ι} {s t : σ} : leave i s t → holder s = some i ∧ holder t = none
  /-- A step aside moves before the entry of another thread. -/
  before_enter {i j : ι} {s t u : σ} : i ≠ j → enter j s t → aside i t u →
    ∃ t', aside i s t' ∧ enter j t' u
  before_work {i j : ι} {s t u : σ} : i ≠ j → work j s t → aside i t u →
    ∃ t', aside i s t' ∧ work j t' u

namespace Locked

variable {ι σ : Type} (L : Locked ι σ)

/-- A step of some thread. -/
def Step (s t : σ) : Prop := ∃ i, L.aside i s t ∨ L.enter i s t ∨ L.work i s t ∨ L.leave i s t

/-- The section of `i` has been entered from `s`, and has come to `t`. -/
def Open (i : ι) (s t : σ) : Prop := ∃ a, L.enter i s a ∧ ReflTransGen (L.work i) a t

/-- A whole section. -/
def Section (i : ι) (s t : σ) : Prop := ∃ a, L.Open i s a ∧ L.leave i a t

/-- A step of a serial run. -/
def Serial (s t : σ) : Prop := ∃ i, L.aside i s t ∨ L.Section i s t

variable {L} {i j : ι} {s t u : σ}

theorem Open.holder (h : L.Open i s t) : L.holder s = none ∧ L.holder t = some i := by
  obtain ⟨a, he, hw⟩ := h
  refine ⟨(L.enter_holder he).1, ?_⟩
  induction hw with
  | refl => exact (L.enter_holder he).2
  | tail _ hw _ => exact (L.work_holder hw).2

/-- A step aside of another thread moves before the whole of an open section: an induction on
the work in it. -/
theorem Open.before (h : L.Open j s t) (hij : i ≠ j) (ha : L.aside i t u) :
    ∃ s', L.aside i s s' ∧ L.Open j s' u := by
  obtain ⟨a, he, hw⟩ := h
  induction hw generalizing u with
  | refl =>
    obtain ⟨s', hs, he'⟩ := L.before_enter hij he ha
    exact ⟨s', hs, u, he', .refl⟩
  | tail _ hw ih =>
    obtain ⟨t', ht, hw'⟩ := L.before_work hij hw ha
    obtain ⟨s', hs, a', he', hrun⟩ := ih ht
    exact ⟨s', hs, a', he', hrun.tail hw'⟩

/-- Where a run has come to from a serial one. -/
def Reduced (L : Locked ι σ) (s t : σ) : Prop :=
  (L.holder t = none ∧ s = t) ∨ ∃ i, L.Open i s t

theorem Reduced.step (h : L.Reduced s t) (hstep : L.Step t u) :
    ∃ s', ReflTransGen L.Serial s s' ∧ L.Reduced s' u := by
  obtain ⟨i, ha | he | hw | hl⟩ := hstep
  · obtain ⟨hfree, rfl⟩ | ⟨j, hopen⟩ := h
    · exact ⟨u, .single ⟨i, .inl ha⟩, .inl ⟨(L.aside_holder ha).2.trans hfree, rfl⟩⟩
    · have hij : i ≠ j := by
        rintro rfl
        exact (L.aside_holder ha).1 hopen.holder.2
      obtain ⟨s', hs, hopen'⟩ := hopen.before hij ha
      exact ⟨s', .single ⟨i, .inl hs⟩, .inr ⟨j, hopen'⟩⟩
  · obtain ⟨hfree, rfl⟩ | ⟨j, hopen⟩ := h
    · exact ⟨s, .refl, .inr ⟨i, u, he, .refl⟩⟩
    · have hheld := hopen.holder.2
      rw [(L.enter_holder he).1] at hheld
      cases hheld
  · obtain ⟨hfree, rfl⟩ | ⟨j, hopen⟩ := h
    · rw [(L.work_holder hw).1] at hfree
      cases hfree
    · have hheld := hopen.holder.2
      rw [(L.work_holder hw).1] at hheld
      cases hheld
      obtain ⟨a, he, hrun⟩ := hopen
      exact ⟨s, .refl, .inr ⟨i, a, he, hrun.tail hw⟩⟩
  · obtain ⟨hfree, rfl⟩ | ⟨j, hopen⟩ := h
    · rw [(L.leave_holder hl).1] at hfree
      cases hfree
    · have hheld := hopen.holder.2
      rw [(L.leave_holder hl).1] at hheld
      cases hheld
      exact ⟨u, .single ⟨i, .inr ⟨t, hopen, hl⟩⟩, .inl ⟨(L.leave_holder hl).2, rfl⟩⟩

/-- Every run is reduced to a serial one. -/
theorem reduced_of_run (hfree : L.holder s = none) (hrun : ReflTransGen L.Step s t) :
    ∃ s', ReflTransGen L.Serial s s' ∧ L.Reduced s' t := by
  induction hrun with
  | refl => exact ⟨s, .refl, .inl ⟨hfree, rfl⟩⟩
  | tail _ hstep ih =>
    obtain ⟨s', hs, hred⟩ := ih
    obtain ⟨s'', hs', hred'⟩ := hred.step hstep
    exact ⟨s'', hs.trans hs', hred'⟩

end Locked

end Armator.Lib
