import Armator.Proof.Multiple
import Armator.Proof.Narrow

/-!
# Failing data accesses

A transfer function returns -1 when an access of its fails, and `armStep` turns a
non-zero result into an exception; but each dispatcher between the two drops the result
it is given and returns 0. So a step during which a data access fails is a step that
reports nothing.
-/

namespace Armator.Sim

open Lib Spec

/-! ## The accesses of a step -/

/-- The address and the width of the access of a single transfer. -/
def singleAccess (p : ArmCore) (ins : BitVec 32) : BitVec 32 × Nat :=
  match bitL ins, bitB ins with
  | false, false => (p.reg.get (dataReg ins), 4)
  | false, true => (p.reg.get (dataReg ins), 2)
  | true, false => (p.reg.get (baseReg ins), 4)
  | true, true => (p.reg.get (baseReg ins), 1)

/-- The byte stores of `stm`. -/
def stmAttempts (p : ArmCore) (ins : BitVec 32) : List (BitVec 32 × BitVec 8) :=
  byteStores ins (p.reg.get (baseReg ins)) p.reg (visited ins) 0

/-- The accesses a dispatched instruction makes in order, up to the first that fails.
Only the classes 010 and 100 make any. -/
def dataAccesses (p : ArmCore) (ins : BitVec 32) : List (BitVec 32 × Nat) :=
  if kind ins = 2 then [singleAccess p ins]
  else if kind ins = 4 ∧ bitB ins = false then
    if bitL ins then [(p.reg.get (baseReg ins), 1)]
    else (stmAttempts p ins).map fun w => (w.1, 1)
  else []

/-- An access returns a failure, the earlier ones having succeeded. -/
def AccessFails (p : ArmCore) (ins : BitVec 32) : Prop :=
  ∃ done x rest, dataAccesses p ins = done ++ x :: rest ∧ (∀ y ∈ done, p.mem.Holds y.1 y.2) ∧
    p.mem.Rejects x.1 x.2

/-- The step reports a data abort, and a single transfer leaves everything but the PC. -/
def ReportsAbort (b : Build) (p : ArmCore) (ins : BitVec 32) : Prop :=
  ∃ p', armStep b p = .ok (DATA_ABORT, p') ∧
    (kind ins ≠ 4 → p'.mem = p.mem ∧
      ∀ i < NB_REGISTER, i ≠ 15 → p'.reg.get i = p.reg.get i)

section Step

variable {b : Build} {p : ArmCore} {ins : BitVec 32}

theorem transfer_of_rejects (hk : kind ins = 2)
    (h : p.mem.Rejects (singleAccess p ins).1 (singleAccess p ins).2) :
    ∃ p', transfer b p ins = .ok (-1, p') := by
  have hk0 : kind ins ≠ 0 := by rw [hk]; decide
  unfold singleAccess at h
  unfold transfer
  cases hL : bitL ins with
  | false =>
    cases hB : bitB ins with
    | false =>
      rw [hL, hB] at h
      obtain ⟨x, hstr⟩ := str_eq (b := b) (p := p) hk
      exact ⟨_, by rw [hstr, armReadWord_of_rejects h]; rfl⟩
    | true =>
      rw [hL, hB] at h
      have hlen : (strhBytes b p ins).length = 2 := length_split 2 _ _
      exact ⟨_, by rw [strh_eq hk0, guardedWrite_of_rejects (by rw [hlen]; exact h)]; rfl⟩
  | true =>
    cases hB : bitB ins with
    | false =>
      rw [hL, hB] at h
      exact ⟨_, ldr_of_rejects hk0 h⟩
    | true =>
      rw [hL, hB] at h
      exact ⟨_, by rw [ldrb_eq hk0, memoryReadByte_of_rejects h]; rfl⟩

theorem storeBytes_of_rejects {ws ws' : List (BitVec 32 × BitVec 8)}
    {w : BitVec 32 × BitVec 8} (hd : ∀ x ∈ ws, p.mem.Holds x.1 1) (hr : p.mem.Rejects w.1 1) :
    ∃ p', storeBytes p (ws ++ w :: ws') = .ok (-1, p') := by
  induction ws generalizing p with
  | nil =>
    have hgt : p.mem.taille < w.1.toNat := by rwa [← byteIndex_zero]
    exact ⟨p, by rw [List.nil_append, storeBytes, armWriteByte_of_gt hgt]; rfl⟩
  | cons x ws ih =>
    obtain ⟨hx, hd⟩ := List.forall_mem_cons.mp hd
    have hlt : x.1.toNat < p.mem.taille := by
      rw [← byteIndex_zero]
      exact hx 0 Nat.one_pos
    obtain ⟨p', hp'⟩ := ih (p := { p with mem := p.mem.set x.1.toNat x.2 }) hd hr
    refine ⟨p', ?_⟩
    rw [List.cons_append, storeBytes, armWriteByte_of_lt hlt, ok_bind]
    exact hp'

theorem stmAttempts_fetched (p : ArmCore) (ins : BitVec 32) :
    stmAttempts p.fetched ins = stmAttempts p ins := by
  have hb : p.fetched.reg.get (baseReg ins) = p.reg.get (baseReg ins) := fetched_get_masked p _
  rw [stmAttempts, hb, byteStores_fetched, stmAttempts]

theorem singleAccess_fetched (p : ArmCore) (ins : BitVec 32) :
    singleAccess p.fetched ins = singleAccess p ins := by
  have hb : p.fetched.reg.get (baseReg ins) = p.reg.get (baseReg ins) := fetched_get_masked p _
  have hd : p.fetched.reg.get (dataReg ins) = p.reg.get (dataReg ins) := fetched_get_masked p _
  unfold singleAccess
  rw [hb, hd]

theorem eq_append_cons {α : Type} {a x : α} {l l' : List α} (h : [a] = l ++ x :: l') :
    x = a ∧ l = [] := by
  rcases List.append_eq_singleton_iff.mp h.symm with ⟨hl, hx⟩ | ⟨-, hx⟩
  · exact ⟨(List.cons.inj hx).1, hl⟩
  · cases hx

/-- The dispatchers return 0 whatever the access returned. -/
theorem dispatch_of_accessFails (h : AccessFails p ins) :
    ∃ p', dispatch b p.fetched ins = .ok (0, p') := by
  obtain ⟨done, x, rest, hacc, hd, hr⟩ := h
  unfold dataAccesses at hacc
  by_cases hk : kind ins = 2
  · rw [if_pos hk] at hacc
    rw [(eq_append_cons hacc).1, ← singleAccess_fetched] at hr
    obtain ⟨p', hp'⟩ := transfer_of_rejects (b := b) (p := p.fetched) hk hr
    exact ⟨p', by rw [dispatch_loadStore hk, armLoadStore_eq hk, hp']; rfl⟩
  · rw [if_neg hk] at hacc
    by_cases hm : kind ins = 4 ∧ bitB ins = false
    · rw [if_pos hm] at hacc
      cases hL : bitL ins with
      | true =>
        rw [hL, if_pos rfl] at hacc
        have hb : p.fetched.reg.get (baseReg ins) = p.reg.get (baseReg ins) :=
          fetched_get_masked p _
        rw [(eq_append_cons hacc).1] at hr
        refine ⟨p.fetched, ?_⟩
        rw [dispatch_ldm hm.1 hm.2 hL, hb, fetched_mem, memoryReadByte_of_rejects hr]
        rfl
      | false =>
        rw [hL, if_neg Bool.false_ne_true] at hacc
        obtain ⟨ws, ws', hws, hdone, hrest⟩ := List.map_eq_append_iff.mp hacc
        obtain ⟨w, ws'', hw, hx, -⟩ := List.map_eq_cons_iff.mp hrest
        subst hdone hx hw
        obtain ⟨p', hp'⟩ : ∃ p', storeBytes p.fetched (ws ++ w :: ws'') = .ok (-1, p') :=
          storeBytes_of_rejects (fun y hy => hd _ (List.mem_map_of_mem hy)) hr
        refine ⟨p', ?_⟩
        have hst := stmAttempts_fetched p ins
        rw [stmAttempts] at hst
        rw [dispatch_stm hm.1 hm.2 hL, hst, hws, hp']
        rfl
    · rw [if_neg hm] at hacc
      exact absurd hacc (by simp)

theorem armStep_of_accessFails (hf : Fetches b p ins) (hc : armCheckCond p ins ≠ 0)
    (h : AccessFails p ins) : ∃ p', armStep b p = .ok (0, p') := by
  obtain ⟨p', hp'⟩ := dispatch_of_accessFails (b := b) h
  exact ⟨p', by rw [armStep_of_dispatched hf hc, hp']; rfl⟩

/-- **Failing accesses**: no step reports one. -/
theorem not_reportsAbort (hf : Fetches b p ins) (hc : armCheckCond p ins ≠ 0)
    (h : AccessFails p ins) : ¬ ReportsAbort b p ins := by
  rintro ⟨p', hp', -⟩
  obtain ⟨p'', hp''⟩ := armStep_of_accessFails hf hc h
  rw [hp''] at hp'
  cases hp'

end Step

/-- `ldr r0, [r0]` far past the end of the memory, on a little-endian simulator. -/
theorem not_reportsAbort_ldr :
    ¬ ReportsAbort (.trapping false) ⟨0, .ofFn fun i => if i = 0 then 0x100 else 0,
      .ofBytes [0x00, 0x00, 0x90, 0xE5], []⟩ 0xE5900000 :=
  not_reportsAbort (by decide) (by decide)
    ⟨[], (0x100, 4), [], by decide, fun _ h => absurd h List.not_mem_nil, by decide⟩

/-- The access fails, and the step returns 0. -/
theorem accessFails_and_not_reportsAbort :
    ∃ b p ins, Fetches b p ins ∧ Passes p ins ∧ AccessFails p ins ∧ ¬ ReportsAbort b p ins := by
  refine ⟨.trapping false, ⟨0, .ofFn fun i => if i = 0 then 0x100 else 0,
    .ofBytes [0x00, 0x00, 0x90, 0xE5], []⟩, 0xE5900000, by decide, by decide,
    ⟨[], (0x100, 4), [], by decide, fun _ h => absurd h List.not_mem_nil, by decide⟩, ?_⟩
  rintro ⟨p', hp', -⟩
  cases hp'

end Armator.Sim
