import Armator.Lib.Rounds
import Armator.Proof.Branch
import Armator.Proof.Breakpoints
import Armator.Proof.Framing

/-!
# `cont` is repeated stepping

`cont` is the loop `doUntil` over single steps: it leaves after the first step that ends at
a breakpoint or raises an exception. A request `s` is one single step and a reply.
-/

namespace Armator.Sim

open Lib Spec

/-- The test of `cont`, for the set `s` of breakpoints. -/
def halts (s : Finset (BitVec 32)) (g : Gdb) : Bool :=
  g.arm.reg.get 15 ∈ s ∨ g.targetException ≠ 0

/-- `$s#73`, whatever follows it. -/
def stepPacket (h : Host) (steps : Nat) (after : List (BitVec 8)) (g : Gdb) : Except Halt Gdb :=
  gdbPacketAnalysis h steps g (yytext (text "$s#73") after) 5

/-- The same processor, the same exception and the same breakpoints. -/
structure SameTarget (a b : Gdb) : Prop where
  arm : a.arm = b.arm
  targetException : a.targetException = b.targetException
  breakpoints : a.breakpoints = b.breakpoints

section Step

variable {h : Host} {g g' : Gdb} {s : Finset (BitVec 32)}

theorem singleStep_inv (hs : singleStep h g = .ok g') :
    ∃ result arm, armStep h.build g.arm = .ok (result, arm) ∧
      g' = { g with targetException := result, arm := arm } := by
  obtain ⟨x, hx, hok⟩ := exists_of_bind hs
  cases hok
  exact ⟨x.1, x.2, hx, rfl⟩

theorem singleStep_of_armStep {result : Int} {arm : ArmCore}
    (hx : armStep h.build g.arm = .ok (result, arm)) :
    singleStep h g = .ok { g with targetException := result, arm := arm } := by
  rw [singleStep, hx]
  rfl

theorem singleStep_breakpoints (hs : singleStep h g = .ok g') :
    g'.breakpoints = g.breakpoints := by
  obtain ⟨result, arm, -, rfl⟩ := singleStep_inv hs
  rfl

theorem singleStep_same {a b a₁ : Gdb} (hab : SameTarget a b) (hs : singleStep h a = .ok a₁) :
    ∃ b₁, singleStep h b = .ok b₁ ∧ SameTarget a₁ b₁ := by
  obtain ⟨result, arm, hx, rfl⟩ := singleStep_inv hs
  refine ⟨{ b with targetException := result, arm := arm }, ?_, rfl, rfl, hab.breakpoints⟩
  rw [singleStep, ← hab.arm, hx]
  rfl

theorem stepPacket_same {steps : Nat} {after : List (BitVec 8)} {a b a₁ : Gdb}
    (hab : SameTarget a b) (hs : singleStep h a = .ok a₁) :
    ∃ b₁, stepPacket h steps after b = .ok b₁ ∧ SameTarget a₁ b₁ := by
  obtain ⟨b₁, hb, hsame⟩ := singleStep_same (b := b.begun) ⟨hab.arm, hab.targetException,
    hab.breakpoints⟩ hs
  obtain ⟨p, hsent⟩ := stopReason_sent b₁
  refine ⟨(b₁.sent p (stopText b₁.targetException)).record .unlock, ?_, hsame.arm,
    hsame.targetException, hsame.breakpoints⟩
  have htext : packetText (text "s") (char '7') (char '3') = text "$s#73" := by decide
  have hrun : gdbPacketAnalysis h steps b
      (yytext (packetText (text "s") (char '7') (char '3')) after) 5 = _ :=
    gdbPacketAnalysis_accepted (by decide) (by decide) (by decide)
  rw [htext] at hrun
  refine hrun.trans ?_
  change (step h steps b.begun _ >>= fun g => _) = _
  unfold step
  rw [hb, ok_bind, hsent]
  rfl

end Step

section Loop

variable {h : Host} {g g' : Gdb} {s : Finset (BitVec 32)} {k n : Nat}

/-- The test the loop makes after a step, the search finding what the table holds. -/
theorem contLoop_succ (hs : g.breakpoints.Represents s) (n : Nat) :
    contLoop h (n + 1) g = (do
      let g' ← lift (singleStep h g)
      if halts s g' then .ok g' else contLoop h n g') := by
  rw [contLoop]
  cases hstep : singleStep h g with
  | error f => rfl
  | ok g' =>
    obtain ⟨m, ho, rfl⟩ := hs
    rw [← singleStep_breakpoints hstep] at ho ⊢
    have hread : registersRead g'.arm.reg 15 (registersGetMode g'.arm.reg) =
        .ok (g'.arm.reg.get 15) := registersRead_of_lt (by decide)
    obtain ⟨r, hr, hfind⟩ := Breakpoints.gdbFindBreakpoint_finds ho (g'.arm.reg.get 15)
    dsimp only [lift]
    rw [ok_bind, ok_bind, hread]
    dsimp only
    rw [ok_bind, hr]
    dsimp only
    rw [ok_bind]
    have hmem : r ≠ -1 ↔ g'.arm.reg.get 15 ∈ elems g'.breakpoints.value m := by
      rcases hfind with ⟨i, hi, rfl, hv⟩ | ⟨rfl, habsent⟩
      · exact iff_of_true (by omega) (mem_elems.mpr ⟨i, hi, hv⟩)
      · refine iff_of_false (by decide) fun hm => ?_
        obtain ⟨i, hi, hv⟩ := mem_elems.mp hm
        exact habsent i hi hv
    have htest : (if r ≠ -1 then true else decide (g'.targetException ≠ 0)) =
        halts (elems g'.breakpoints.value m) g' := by
      unfold halts
      by_cases hne : r ≠ -1
      · rw [if_pos hne, decide_eq_true (.inl (hmem.mp hne))]
      · rw [if_neg hne]
        exact decide_eq_decide.mpr ⟨.inr, fun ho => ho.resolve_left fun hm => hne (hmem.mpr hm)⟩
    rw [htest]

/-- The loop is `doUntil`, and still running where that has not stopped. -/
theorem contLoop_eq (hs : g.breakpoints.Represents s) (n : Nat) :
    contLoop h n g =
      match doUntil (singleStep h) (halts s) n g with
      | .ok (some g') => .ok g'
      | .ok none => .error .running
      | .error f => .error (.fault f) := by
  induction n generalizing g with
  | zero => rfl
  | succ n ih =>
    rw [contLoop_succ hs, doUntil]
    cases hstep : singleStep h g with
    | error f => rfl
    | ok g' =>
      dsimp only [lift]
      rw [ok_bind, ok_bind]
      by_cases hstop : halts s g' = true
      · rw [if_pos hstop, if_pos hstop]
      · rw [if_neg hstop, if_neg hstop]
        exact ih (by rwa [singleStep_breakpoints hstep])

end Loop

/-- `cont` stops after exactly `k` steps, where `k` requests `s` lead, and no step but the
first began at a breakpoint. -/
structure StopsAsStepping (h : Host) (g : Gdb) (s : Finset (BitVec 32)) (k : Nat) : Prop where
  running : ∀ n data, n < k → cont h n g data = .error .running
  stops : ∀ n data steps after, k ≤ n → ∃ g₁ g₂, cont h n g data = .ok g₁ ∧
    rounds (stepPacket h steps after) k g = .ok g₂ ∧ SameTarget g₁ g₂ ∧
    g₁.breakpoints = g.breakpoints
  passed : ∀ j g', 0 < j → j < k → rounds (singleStep h) j g = .ok g' → g'.arm.reg.get 15 ∉ s

/-- `cont` does not return; it is still running after any number of steps that return. -/
structure NeverStops (h : Host) (g : Gdb) : Prop where
  never : ∀ n data g', cont h n g data ≠ .ok g'
  running : ∀ n data g', rounds (singleStep h) n g = .ok g' → cont h n g data = .error .running

section Continue

variable {h : Host} {g g' : Gdb} {s : Finset (BitVec 32)} {k : Nat}

theorem stopsAsStepping (hs : g.breakpoints.Represents s)
    (hstop : StopsAfter (singleStep h) (halts s) k g g') : StopsAsStepping h g s k := by
  refine ⟨fun n data hn => ?_, fun n data steps after hn => ?_, fun j c hj hjk hc => ?_⟩
  · rw [cont, contLoop_eq hs, hstop.doUntil_eq, if_neg (by omega)]
    rfl
  · obtain ⟨g₂, hrun, hsame⟩ := rounds_simulate (stepPacket h steps after)
      (fun _ _ _ => stepPacket_same) (SameTarget.mk rfl rfl rfl) hstop.reached
    obtain ⟨p, hsent⟩ := stopReason_sent g'
    have hkeep : g'.breakpoints = g.breakpoints :=
      rounds_keep (I := fun c => c.breakpoints = g.breakpoints)
        (fun _ _ ha hstep => (singleStep_breakpoints hstep).trans ha) rfl hstop.reached
    refine ⟨g'.sent p (stopText g'.targetException), g₂, ?_, hrun,
      ⟨hsame.arm, hsame.targetException, hsame.breakpoints⟩, hkeep⟩
    rw [cont, contLoop_eq hs, hstop.doUntil_eq, if_pos hn]
    dsimp only
    rw [ok_bind, hsent]
    rfl
  · have hno := hstop.before j c hj hjk hc
    intro hm
    rw [halts, decide_eq_true (.inl hm)] at hno
    cases hno

theorem neverStops (hs : g.breakpoints.Represents s)
    (hno : ∀ k c, 0 < k → rounds (singleStep h) k g = .ok c → halts s c = false) :
    NeverStops h g := by
  refine ⟨fun n data g' hrun => ?_, fun n data g' hn => ?_⟩
  · rw [cont, contLoop_eq hs, doUntil_of_never hno] at hrun
    cases hr : rounds (singleStep h) n g with
    | error f =>
      rw [hr] at hrun
      cases hrun
    | ok c =>
      rw [hr] at hrun
      cases hrun
  · rw [cont, contLoop_eq hs, doUntil_of_never hno, hn]
    rfl

/-- **`cont` refines repeated stepping**: it stops after the least number of steps at whose
end the PC is a breakpoint or an exception was raised, and does not stop if there is none. -/
theorem cont_refines_steps (h : Host) (hs : g.breakpoints.Represents s) :
    (∀ k g', StopsAfter (singleStep h) (halts s) k g g' → StopsAsStepping h g s k) ∧
    ((∀ k g', 0 < k → rounds (singleStep h) k g = .ok g' → halts s g' = false) →
      NeverStops h g) :=
  ⟨fun _ _ => stopsAsStepping hs, neverStops hs⟩

/-- A branch with the offset field 8 leads back to itself. -/
theorem armStep_loop {b : Build} {p : ArmCore} {ins : BitVec 32}
    (h4 : (p.reg.get 15).toNat % 4 = 0) (hf : Fetches b p ins) (hk : kind ins = 5)
    (hp : Passes p ins) (hr : ¬ Refused p ins) (hi : imm24 ins = 8) (hL : bitLink ins = false) :
    armStep b p = .ok (0, { p with cycleCount := p.cycleCount + 1 }) := by
  have hpc (v : BitVec 32) : v + 8 + -(8 : BitVec 24).setWidth 32 = v := by
    rw [BitVec.add_assoc]
    exact BitVec.add_zero v
  have hback : p.fetched.reg.set 15 (p.reg.get 15) = p.reg := by
    refine Registers.ext_get rfl fun i _ => ?_
    rw [Registers.get_set (by decide)]
    by_cases h15 : i = 15
    · rw [if_pos h15, h15]
    · rw [if_neg h15, fetched_get h15]
  rw [armStep_of_accepted hf hp hr, dispatch_branch hk, armBranch_of_accepted h4 hp hr, ok_bind,
    hL, if_neg Bool.false_ne_true, hi, finish_zero, hpc, hback]
  rfl

end Continue

section Examples

/-- A branch to itself runs for ever. -/
theorem session_loops {k : Nat} {g : Gdb}
    (hrun : rounds (singleStep .zeros) k (session (.ofBytes [8, 0, 0, 0xEA])) = .ok g) :
    halts ∅ g = false := by
  have hkeep : g.arm.reg = registersCreate ∧ g.arm.mem = .ofBytes [8, 0, 0, 0xEA] ∧
      g.targetException = 0 := by
    refine rounds_keep (I := fun g => g.arm.reg = registersCreate ∧
      g.arm.mem = .ofBytes [8, 0, 0, 0xEA] ∧ g.targetException = 0) ?_ ⟨rfl, rfl, rfl⟩ hrun
    rintro a a₁ ⟨hreg, hmem, -⟩ hstep
    have hloop : armStep (.trapping false) a.arm =
        .ok (0, { a.arm with cycleCount := a.arm.cycleCount + 1 }) := by
      have hf : Fetches (.trapping false) a.arm 0xEA000008 := by
        unfold Fetches
        rw [hreg, hmem]
        decide
      refine armStep_loop ?_ hf (by decide) ?_ ?_ (by decide) (by decide)
      · rw [hreg]
        decide
      · rfl
      · exact fun hr => absurd hr.1 (by decide)
    unfold singleStep at hstep
    rw [show Host.zeros.build = .trapping false from rfl, hloop] at hstep
    cases hstep
    exact ⟨hreg, hmem, rfl⟩
  unfold halts
  rw [hkeep.2.2]
  rfl

/-- Two moves `mov r0, r0`. -/
def moves : Memory := .ofBytes [0x00, 0x00, 0xA0, 0xE1, 0x00, 0x00, 0xA0, 0xE1]

/-- A breakpoint at the first instruction does not stop `cont`, one behind the second stops it
after two steps; a branch to itself never stops. -/
theorem cont_refines_steps_sessions :
    (∃ t : Breakpoints, t.Represents {0, 8} ∧
      StopsAsStepping .zeros { session moves with breakpoints := t } {0, 8} 2) ∧
    NeverStops .zeros (session (.ofBytes [8, 0, 0, 0xEA])) := by
  have hempty (mem : Memory) : (session mem).breakpoints.Represents ∅ :=
    Breakpoints.represents_init _
  refine ⟨?_, (cont_refines_steps .zeros (hempty _)).2 fun _ _ _ => session_loops⟩
  obtain ⟨t, -, ht⟩ := Breakpoints.runAll_represents (hempty moves) [.add 8, .add 0]
  -- the two steps, and the PC after each of them
  have hsteps : (armStep (.trapping false) (session moves).arm >>= fun x =>
      armStep (.trapping false) x.2 >>= fun y =>
        .ok (x.1, x.2.reg.get 15, y.2.reg.get 15)) = .ok (0, 4, 8) := by decide
  obtain ⟨⟨e₁, p₁⟩, h₁, hrest⟩ := exists_of_bind hsteps
  obtain ⟨⟨e₂, p₂⟩, h₂, hpcs⟩ := exists_of_bind hrest
  obtain ⟨rfl, hpc₁, hpc₂⟩ : e₁ = 0 ∧ p₁.reg.get 15 = 4 ∧ p₂.reg.get 15 = 8 := by
    simpa using hpcs
  obtain ⟨g, hg⟩ : ∃ g : Gdb, g = { session moves with breakpoints := t } := ⟨_, rfl⟩
  have hs₁ : singleStep .zeros g = .ok { g with targetException := 0, arm := p₁ } :=
    singleStep_of_armStep (by rw [hg]; exact h₁)
  have hs₂ : singleStep .zeros { g with targetException := 0, arm := p₁ } =
      .ok { g with targetException := e₂, arm := p₂ } := singleStep_of_armStep h₂
  have hreached : rounds (singleStep .zeros) 2 g =
      .ok { g with targetException := e₂, arm := p₂ } := by
    rw [rounds_succ hs₁, rounds_succ hs₂, rounds]
  have htable : g.breakpoints.Represents {0, 8} := by rwa [hg]
  refine ⟨t, ht, hg ▸ (cont_refines_steps .zeros htable).1 2 _ ⟨Nat.two_pos, hreached, ?_, ?_⟩⟩
  · exact decide_eq_true (.inl (by rw [hpc₂]; decide))
  · intro j c hj hj2 hc
    obtain rfl : j = 1 := by omega
    rw [rounds_succ hs₁, rounds] at hc
    cases hc
    refine decide_eq_false fun hstop => ?_
    rcases hstop with hmem | hne
    · rw [hpc₁] at hmem
      exact absurd hmem (by decide)
    · exact hne rfl

end Examples

end Armator.Sim
