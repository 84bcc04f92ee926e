import Armator.Proof.Debug
import Armator.Proof.Effects
import Armator.Sim.SendIrq

/-!
# Interrupts by name

The names by which interrupts can be sent are those of the exceptions 1 to 7, so that a software
interrupt cannot be sent, and of the others only a reset does anything to the processor.
-/

namespace Armator.Sim

open Lib Relation

section Names

variable {name : Name} {irq irq' : BitVec 8} {s : List (BitVec 8)}

theorem exceptionName_eq (h : armGetExceptionName irq = some s) :
    irq.toNat < 8 ∧ ∃ hi, armExceptionNames.get ⟨irq.toNat, hi⟩ = some s := by
  have hlt := lt_of_exceptionName irq (by rw [h]; rfl)
  have hi : irq.toNat < armExceptionNames.length := Nat.lt_succ_of_lt hlt
  unfold armGetExceptionName at h
  rw [if_pos hlt, List.getD_eq_get _ _ ⟨_, hi⟩] at h
  exact ⟨hlt, hi, h⟩

theorem noNul_exceptionName (h : armGetExceptionName irq = some s) : 0 ∉ s := by
  have hall : ∀ s ∈ armExceptionNames, 0 ∉ s.getD [] := by decide
  obtain ⟨-, hi, hs⟩ := exceptionName_eq h
  have hno := hall _ (List.get_mem _ ⟨_, hi⟩)
  rwa [hs] at hno

theorem exceptionName_injective (h : armGetExceptionName irq = some s)
    (h' : armGetExceptionName irq' = some s) : irq = irq' := by
  have hnodup : armExceptionNames.Nodup := by decide
  obtain ⟨-, hi, hs⟩ := exceptionName_eq h
  obtain ⟨-, hi', hs'⟩ := exceptionName_eq h'
  have hindex := hnodup.get_inj_iff.1 (hs.trans hs'.symm)
  exact BitVec.eq_of_toNat_eq (Fin.mk.inj hindex)

theorem pos_of_exceptionName (h : armGetExceptionName irq = some s) : 0 < irq.toNat := by
  refine Nat.pos_of_ne_zero fun h0 => ?_
  obtain rfl : irq = 0 := BitVec.eq_of_toNat_eq h0
  cases h

theorem strcmp_exceptionName (h : armGetExceptionName irq = some s) :
    strcmp s name.chars = 0 ↔ s = name.chars := by
  have heq := strcmp_eq_zero_iff (a := ⟨s, noNul_exceptionName h⟩) (b := name)
  refine heq.trans ⟨congrArg Name.chars, fun hs => ?_⟩
  subst hs
  rfl

/-- An induction on the names that are left. -/
theorem irqLoop_sound (name : Name) (first : BitVec 8) (h : irqLoop name first = some irq) :
    armGetExceptionName irq = some name.chars := by
  fun_induction irqLoop name first with
  | case1 => cases h
  | case2 first s hs hne ih => exact ih h
  | case3 first s hs heq =>
    cases h
    rw [hs, (strcmp_exceptionName hs).1 (not_ne_iff.1 heq)]

theorem irqLoop_complete (name : Name) (first : BitVec 8) (hpos : 0 < first.toNat)
    (hle : first.toNat ≤ irq.toNat) (h : armGetExceptionName irq = some name.chars) :
    irqLoop name first = some irq := by
  obtain ⟨hlt, -⟩ := exceptionName_eq h
  fun_induction irqLoop name first with
  | case1 first hnone =>
    have hall : ∀ i < 8, 0 < i → armExceptionNames.getD i none ≠ none := by decide
    unfold armGetExceptionName at hnone
    rw [if_pos (by omega)] at hnone
    exact absurd hnone (hall _ (by omega) hpos)
  | case2 first s hs hne ih =>
    have hother : first.toNat ≠ irq.toNat := by
      intro heq
      obtain rfl := BitVec.eq_of_toNat_eq heq
      rw [h] at hs
      cases hs
      exact hne ((strcmp_exceptionName h).2 rfl)
    have hnext : (first + 1).toNat = (first.toNat + 1) % 2 ^ 8 := BitVec.toNat_add first 1
    exact ih (by omega) (by omega)
  | case3 first s hs heq =>
    rw [(strcmp_exceptionName hs).1 (not_ne_iff.1 heq)] at hs
    rw [exceptionName_injective hs h]

theorem sendIrq_iff : sendIrq (some name) = some irq ↔
    armGetExceptionName irq = some name.chars := by
  refine ⟨irqLoop_sound name _, fun h => irqLoop_complete name _ (by decide) ?_ h⟩
  exact pos_of_exceptionName h

theorem sendIrq_bounds {arg : Option Name} (h : sendIrq arg = some irq) :
    (irq.toNat : Int) ≠ SOFTWARE_INTERRUPT := by
  have hlt : irq.toNat < 8 := by
    cases arg with
    | none =>
      cases h
      decide
    | some name => exact (exceptionName_eq (sendIrq_iff.1 h)).1
  change (irq.toNat : Int) ≠ 8
  omega

theorem usesCore_sendIrq {arg : Option Name} (h : sendIrq arg = some irq) (huse : UsesCore irq) :
    ∃ name, arg = some name ∧ name.chars = text "reset" := by
  rcases huse with hswi | hreset
  · exact absurd hswi (sendIrq_bounds h)
  · obtain rfl : irq = 1 := BitVec.eq_of_toNat_eq (Int.ofNat.inj hreset)
    cases arg with
    | none => cases h
    | some name => exact ⟨name, rfl, (Option.some.inj (sendIrq_iff.1 h)).symm⟩

end Names

/-- **What can be sent**: interrupts that come from this program never make `arm_exception` call
`putchar`, and without `reset` among their names the session ends as `yylex` alone ends it. -/
theorem sent_irqs (h : Host) (after : List (Rule × List (BitVec 8)) → List (BitVec 8))
    (data : ParserData) (input irqs : List (BitVec 8)) (args : List (Option Name))
    (hsent : List.Forall₂ (fun arg irq => sendIrq arg = some irq) args irqs) :
    (∀ s, ReflTransGen (Process.Step h after) (Process.start data input irqs) s →
      s.data.gdb.arm.printed = data.gdb.arm.printed) ∧
    ((∀ name, some name ∈ args → name.chars ≠ text "reset") → ∀ data' irqs',
      ReflTransGen (Process.Step h after) (Process.start data input irqs)
          (Sequential.process ⟨data', [], irqs', true⟩) ↔
        irqs' <:+ irqs ∧ ∃ steps, yylex h steps after data input = .ok data') := by
  have hfrom : ∀ irq ∈ irqs, ∃ arg ∈ args, sendIrq arg = some irq := by
    clear h after data input
    induction hsent with
    | nil => exact nofun
    | cons hone _ ih =>
      refine List.forall_mem_cons.2 ⟨⟨_, List.mem_cons_self, hone⟩, fun irq hirq => ?_⟩
      obtain ⟨arg, harg, hs⟩ := ih irq hirq
      exact ⟨arg, List.mem_cons_of_mem _ harg, hs⟩
  constructor
  · intro s hrun
    refine printed_run (run_asking hrun).2 fun irq hirq => ?_
    obtain ⟨arg, -, hs⟩ := hfrom irq hirq
    exact sendIrq_bounds hs
  · intro hreset data' irqs'
    have hplain : ∀ irq ∈ irqs, ¬ UsesCore irq := by
      intro irq hirq huse
      obtain ⟨arg, harg, hs⟩ := hfrom irq hirq
      obtain ⟨name, rfl, hname⟩ := usesCore_sendIrq hs huse
      exact hreset name harg hname
    exact ⟨yylex_of_ends hplain, fun ⟨hsuffix, _, hrun⟩ => ends_of_yylex hplain hsuffix hrun⟩

/-- A request `?`, and the interrupt that is sent without a name. -/
theorem sent_irqs_default : ∃ data', data'.gdb.events = trapReply ∧
    ReflTransGen (Process.Step .zeros fun _ => []) (Process.start idle (text "$?#3f") [4])
      (Sequential.process ⟨data', [], [], true⟩) := by
  have hsent : List.Forall₂ (fun arg irq => sendIrq arg = some irq) [none] [4] :=
    .cons rfl .nil
  obtain ⟨data', hevents, hrun⟩ := yylex_reason
  have hends := (sent_irqs .zeros (fun _ => []) idle (text "$?#3f") [4] [none] hsent).2
  exact ⟨data', hevents, (hends (by simp) data' []).2 ⟨⟨[4], rfl⟩, 0, hrun⟩⟩

end Armator.Sim
