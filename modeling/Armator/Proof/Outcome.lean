import Armator.Proof.Contract
import Armator.Proof.Fault
import Armator.Proof.Frame
import Armator.Sim.GdbProtocol

/-!
# What a step returns

A step whose condition fails returns 0. A dispatched instruction returns `codeOf`, if it
returns at all: the undefined instruction for three classes, and -1 for a branch with the
reserved condition, which `armException` hands back as 255 like the -1 of a failed fetch.
An instruction returns exactly if it is `Defined`.
-/

namespace Armator.Sim

open Lib Spec

/-! ## Conditions that fail -/

/-- The step returns 0 and does nothing but advance the PC. -/
def Skips (b : Build) (p : ArmCore) : Prop :=
  ∃ p', armStep b p = .ok (0, p') ∧ p'.reg.get 15 = p.reg.get 15 + 4 ∧
    p'.cycleCount = p.cycleCount + 1 ∧ p'.mem = p.mem ∧ p'.printed = p.printed ∧
    ∀ i, i ≠ 15 → p'.reg.get i = p.reg.get i

section Conditions

variable {b : Build} {p : ArmCore} {ins : BitVec 32}

theorem accepts_of_fails {c : BitVec 4} {f : Flags} (h : passes c f = false) :
    accepts c f = false := by
  unfold accepts
  by_cases hc : c = 0xD
  · subst hc
    have hor : (f.z || f.n != f.v) = false := h
    rw [Bool.or_eq_false_iff] at hor
    rw [if_pos rfl, hor.1, Bool.false_and]
  · rw [if_neg hc, h]

theorem armCheckCond_of_fails (hc : condField ins ≠ 0xF) (hn : ¬ Passes p ins) :
    armCheckCond p ins = 0 := by
  rw [armCheckCond_eq hc, accepts_of_fails (Bool.eq_false_iff.mpr hn)]
  rfl

/-- **Failed conditions**: the instruction is skipped, whatever it is. -/
theorem skips_of_fails (hf : Fetches b p ins) (hc : condField ins ≠ 0xF) (hn : ¬ Passes p ins) :
    Skips b p :=
  ⟨p.fetched, armStep_of_skipped hf (armCheckCond_of_fails hc hn), fetched_get_pc p, rfl, rfl, rfl,
    fun _ hi => fetched_get hi⟩

/-- An undefined instruction with the condition EQ, Z clear. -/
theorem skips_of_fails_undefined :
    Skips (.trapping false) ⟨0, .ofFn fun _ => 0, .ofBytes [0x10, 0x00, 0x00, 0x0F], []⟩ := by
  have hf : Fetches (.trapping false)
      ⟨0, .ofFn fun _ => 0, .ofBytes [0x10, 0x00, 0x00, 0x0F], []⟩ 0x0F000010 := by decide
  exact skips_of_fails hf (by decide) (by decide)

/-- The check hands on the code of an undefined instruction, which is not 0. -/
theorem armCheckCond_reserved (p : ArmCore) (hc : condField ins = 0xF) :
    armCheckCond p ins = 7 := by
  have h := masked_condField ins
  rw [hc] at h
  simp only [armCheckCond, h]
  rfl

end Conditions

/-! ## What a dispatched instruction returns -/

/-- The result of a dispatched instruction that returns. -/
def codeOf (ins : BitVec 32) : Int :=
  if kind ins = 3 ∨ kind ins = 6 ∨ kind ins = 7 then UNDEFINED_INSTRUCTION
  else if kind ins = 5 ∧ condField ins = 0xF then -1
  else 0

/-- The instruction has a value in C: the shifts of its second operand have, and every
access it makes is inside the block or rejected. -/
def Defined (b : Build) (p : ArmCore) (ins : BitVec 32) : Prop :=
  match (kind ins).toNat with
  | 0 => ShiftDefined b p.fetched ins
  | 1 => RotateDefined b ins
  | 2 => p.mem.Safe (singleAccess p ins).1 (singleAccess p ins).2
  | 4 =>
    bitB ins = true ∨
      if bitL ins then p.mem.Safe (p.reg.get (baseReg ins)) 1
      else ∀ w ∈ performed p.mem.taille (stmAttempts p ins), w.1 ≠ p.mem.taille
  | _ => True

/-- `x` returns `r` if `P` holds, and goes wrong otherwise. -/
def ReturnsIf (P : Prop) (x : Except Fault (Int × ArmCore)) (r : Int) : Prop :=
  (P ∧ ∃ p', x = .ok (r, p')) ∨ (¬ P ∧ ∃ f, x = .error f)

section Dispatch

variable {b : Build} {p : ArmCore} {ins : BitVec 32}

theorem operand_returnsIf {q : ArmCore} {x : Except Fault (BitVec 32 × BitVec 8)} {P : Prop}
    (hx : (∃ y, x = .ok y) ↔ P) :
    ReturnsIf P (x >>= fun y => dataProcessing q (((ins >>> 21) &&& 0x0F).setWidth 8)
      (((ins >>> 20) &&& 0x01).setWidth 8) (((ins >>> 16) &&& 0x0F).setWidth 8)
      (((ins >>> 12) &&& 0x0F).setWidth 8) y.1 y.2) 0 := by
  cases x with
  | error f => exact .inr ⟨fun h => no_value ⟨f, rfl⟩ (hx.mpr h), f, rfl⟩
  | ok y =>
    refine .inl ⟨hx.mp ⟨y, rfl⟩, ?_⟩
    obtain ⟨p', hp', -⟩ := dataProcessing_effect (p := q) (s := ((ins >>> 20) &&& 0x01).setWidth 8)
      (c := y.2) y.1 (lt_of_nibble ins 21) (lt_of_nibble ins 16) (lt_of_nibble ins 12)
    exact ⟨p', hp'⟩

theorem transfer_cases (hk : kind ins = 2) :
    (p.mem.Safe (singleAccess p ins).1 (singleAccess p ins).2 ∧ ∃ x, transfer b p ins = .ok x) ∨
      (¬ p.mem.Safe (singleAccess p ins).1 (singleAccess p ins).2 ∧
        ∃ f, transfer b p ins = .error f) := by
  have hk0 : kind ins ≠ 0 := by rw [hk]; decide
  unfold transfer singleAccess
  cases hL : bitL ins with
  | false =>
    cases hB : bitB ins with
    | false =>
      dsimp only
      by_cases hs : p.mem.Safe (p.reg.get (dataReg ins)) 4
      · obtain ⟨r, hr⟩ := str_of_safe (b := b) hk hs
        exact .inl ⟨hs, _, hr⟩
      · exact .inr ⟨hs, str_fault hk hs⟩
    | true =>
      dsimp only
      have hlen : (strhBytes b p ins).length = 2 := length_split 2 _ _
      rw [strh_eq hk0]
      by_cases hs : p.mem.Safe (p.reg.get (dataReg ins)) 2
      · refine .inl ⟨hs, ?_⟩
        rcases hs with hr | hh
        · exact ⟨_, by rw [guardedWrite_of_rejects (by rw [hlen]; exact hr)]; rfl⟩
        · exact ⟨_, by
            rw [guardedWrite_of_holds (by rw [hlen]; decide) (by rw [hlen]; exact hh)]; rfl⟩
      · obtain ⟨hr, hh⟩ := not_or.mp hs
        obtain ⟨f, hf⟩ := guardedWrite_fault (strhBytes b p ins) (by rw [hlen]; exact hr)
          (by rw [hlen]; exact hh)
        exact .inr ⟨hs, f, by rw [hf, error_bind]⟩
  | true =>
    cases hB : bitB ins with
    | false =>
      dsimp only
      by_cases hs : p.mem.Safe (p.reg.get (baseReg ins)) 4
      · refine .inl ⟨hs, ?_⟩
        rcases hs with hr | hh
        · exact ⟨_, ldr_of_rejects hk0 hr⟩
        · exact ⟨_, ldr_of_holds hk0 hh⟩
      · exact .inr ⟨hs, ldr_fault hk0 hs⟩
    | true =>
      dsimp only
      rw [ldrb_eq hk0]
      by_cases hs : p.mem.Safe (p.reg.get (baseReg ins)) 1
      · refine .inl ⟨hs, ?_⟩
        rcases hs with hr | hh
        · exact ⟨_, by rw [memoryReadByte_of_rejects hr]; rfl⟩
        · exact ⟨_, by rw [memoryReadByte_of_holds hh]; rfl⟩
      · obtain ⟨hr, hh⟩ := not_or.mp hs
        obtain ⟨f, hf⟩ := memoryReadByte_fault ((b.junk .ldrbValue).setWidth 8) hr hh
        exact .inr ⟨hs, f, by rw [hf, error_bind]⟩

theorem dispatch_multiple_returnsIf (hk : kind ins = 4) :
    ReturnsIf (bitB ins = true ∨
        if bitL ins then p.mem.Safe (p.reg.get (baseReg ins)) 1
        else ∀ w ∈ performed p.mem.taille (stmAttempts p ins), w.1 ≠ p.mem.taille)
      (dispatch b p.fetched ins) 0 := by
  have hbase : p.fetched.reg.get (baseReg ins) = p.reg.get (baseReg ins) := fetched_get_masked p _
  cases hB : bitB ins with
  | true =>
    -- a user-mode transfer makes no access
    have h0 : ins ≠ 0 := ne_zero_of_kind (by rw [hk]; decide)
    have h22 : ¬ (ins >>> 22) &&& 1 = 0 := fun h => by
      rw [bitB, bit_eq_zero.mp h] at hB
      cases hB
    refine .inl ⟨.inl rfl, p.fetched, ?_⟩
    rw [dispatch_loadStoreMultiple hk, armLoadStoreMultiple, if_neg h0]
    simp only [stm, ldm, if_neg h0, h22, if_false, ite_self, ok_bind]
  | false =>
    cases hL : bitL ins with
    | false =>
      have hws := stmAttempts_fetched p ins
      unfold stmAttempts at hws ⊢
      rw [dispatch_stm hk hB hL, hws]
      by_cases hne : ∀ w ∈ performed p.mem.taille (byteStores ins (p.reg.get (baseReg ins)) p.reg
          (visited ins) 0), w.1 ≠ p.mem.taille
      · obtain ⟨r, m, hrun, -, -⟩ := storeBytes_of_ne (p := p.fetched) hne
        exact .inl ⟨.inr hne, _, by rw [hrun]; rfl⟩
      · obtain ⟨f, hf⟩ := storeBytes_fault (p := p.fetched) hne
        refine .inr ⟨fun h => hne (h.resolve_left Bool.false_ne_true), f, ?_⟩
        rw [hf, error_bind]
    | true =>
      rw [dispatch_ldm hk hB hL, hbase, fetched_mem]
      by_cases hs : p.mem.Safe (p.reg.get (baseReg ins)) 1
      · refine .inl ⟨.inr hs, ?_⟩
        rcases hs with hr | hh
        · exact ⟨_, by rw [memoryReadByte_of_rejects hr]; rfl⟩
        · exact ⟨_, by rw [memoryReadByte_of_holds hh]; rfl⟩
      · obtain ⟨hr, hh⟩ := not_or.mp hs
        obtain ⟨f, hf⟩ := memoryReadByte_fault ((b.junk .ldmValue).setWidth 8) hr hh
        exact .inr ⟨fun h => hs (h.resolve_left Bool.false_ne_true), f, by rw [hf, error_bind]⟩

theorem armBranch_returns (hk : kind ins = 5) (hc : armCheckCond p ins ≠ 0) :
    ∃ p', armBranch p.fetched ins = .ok (codeOf ins, p') := by
  have hcode : codeOf ins = if condField ins = 0xF then -1 else 0 := by
    have h3 : ¬ (kind ins = 3 ∨ kind ins = 6 ∨ kind ins = 7) := by rw [hk]; decide
    rw [codeOf, if_neg h3]
    exact if_congr (and_iff_right hk) rfl rfl
  have hread : armReadRegister p.fetched 15 = .ok (p.fetched.read 15) :=
    armReadRegister_of_lt (by decide)
  have hlink (q : ArmCore) (v : BitVec 32) :
      armWriteRegister q 14 v = .ok { q with reg := q.reg.set 14 v } :=
    armWriteRegister_of_lt (by decide)
  have hpc (q : ArmCore) (v : BitVec 32) :
      armWriteRegister q 15 v = .ok { q with reg := q.reg.set 15 v } :=
    armWriteRegister_of_lt (by decide)
  unfold armBranch
  dsimp only
  rw [hread, ok_bind, hcode]
  by_cases h15 : condField ins = 0xF
  · have h7 : armCheckCond p.fetched ins = 7 := armCheckCond_reserved _ h15
    have hne : ¬ armCheckCond p.fetched ins = 1 := by rw [h7]; decide
    rw [if_neg hne, if_pos h15]
    exact ⟨_, rfl⟩
  · have h1 : armCheckCond p.fetched ins = 1 := by
      rw [armCheckCond_advance]
      rw [armCheckCond_eq h15] at hc ⊢
      split at hc
      · rw [if_pos ‹_›]
      · exact absurd rfl hc
    rw [if_pos h1, if_neg h15]
    split
    · rw [hlink, ok_bind, hpc]
      exact ⟨_, rfl⟩
    · rw [ok_bind, hpc]
      exact ⟨_, rfl⟩

/-- **The result of an instruction**: a dispatched instruction returns if it is defined, and
then `codeOf`. -/
theorem dispatch_returnsIf (hc : armCheckCond p ins ≠ 0) :
    ReturnsIf (Defined b p ins) (dispatch b p.fetched ins) (codeOf ins) := by
  -- one case for each class
  rcases kind_cases ins with hk | hk | hk | hk | hk | hk
  · unfold Defined
    rw [hk, codeOf, hk, dispatch_dataProcessing hk]
    exact operand_returnsIf shift_returns
  · unfold Defined
    rw [hk, codeOf, hk, dispatch_immediate hk]
    exact operand_returnsIf rotate_returns
  · unfold Defined
    rw [hk, codeOf, hk, dispatch_loadStore hk, armLoadStore_eq hk]
    have hacc := transfer_cases (b := b) (p := p.fetched) hk
    rw [singleAccess_fetched, fetched_mem] at hacc
    rcases hacc with ⟨hs, x, hx⟩ | ⟨hs, f, hf⟩
    · exact .inl ⟨hs, x.2, by rw [hx]; rfl⟩
    · exact .inr ⟨hs, f, by rw [hf, error_bind]⟩
  · unfold Defined
    rw [hk, codeOf, hk]
    exact dispatch_multiple_returnsIf hk
  · unfold Defined
    rw [hk, dispatch_branch hk]
    exact .inl ⟨trivial, armBranch_returns hk hc⟩
  · have hdef : Defined b p ins := by
      unfold Defined
      rcases hk with hk | hk | hk <;> rw [hk] <;> exact trivial
    refine .inl ⟨hdef, p.fetched, ?_⟩
    rw [codeOf, dispatch_refused hk, if_pos hk]

end Dispatch

/-! ## The reserved condition -/

/-- The step returns the code of an undefined instruction and changes the PC only. -/
def RefusesUndefined (b : Build) (p : ArmCore) : Prop :=
  ∃ p', armStep b p = .ok (UNDEFINED_INSTRUCTION, p') ∧ p'.mem = p.mem ∧
    ∀ i, i ≠ 15 → p'.reg.get i = p.reg.get i

section Step

variable {b : Build} {p : ArmCore} {ins : BitVec 32}

theorem finish_codeOf (p : ArmCore) (ins : BitVec 32) :
    finish b (codeOf ins, p) = .ok (if codeOf ins = -1 then 255 else codeOf ins, p) := by
  unfold codeOf
  split
  · rfl
  · split
    · rfl
    · rfl

theorem armStep_returnsIf (hf : Fetches b p ins) (hc : armCheckCond p ins ≠ 0) :
    ReturnsIf (Defined b p ins) (armStep b p) (if codeOf ins = -1 then 255 else codeOf ins) := by
  rw [armStep_of_dispatched hf hc]
  rcases dispatch_returnsIf (b := b) hc with ⟨hd, p', hp'⟩ | ⟨hd, f, hf'⟩
  · exact .inl ⟨hd, p', by rw [hp', ok_bind, finish_codeOf]⟩
  · exact .inr ⟨hd, f, by rw [hf', error_bind]⟩

/-- **The reserved condition**: it is refused in three of the eight classes. -/
theorem refusesUndefined_iff (hf : Fetches b p ins) (hc : condField ins = 0xF) :
    RefusesUndefined b p ↔ kind ins = 3 ∨ kind ins = 6 ∨ kind ins = 7 := by
  have hne : armCheckCond p ins ≠ 0 := by
    rw [armCheckCond_reserved p hc]
    decide
  refine ⟨?_, fun hk => ?_⟩
  · rintro ⟨p', hp', -, -⟩
    by_contra hk
    have hcode : (if codeOf ins = -1 then 255 else codeOf ins) ≠ UNDEFINED_INSTRUCTION := by
      rw [codeOf, if_neg hk]
      split
      · decide
      · decide
    rcases armStep_returnsIf hf hne with ⟨-, p'', hp''⟩ | ⟨-, f, hf'⟩
    · rw [hp''] at hp'
      exact hcode (congrArg Prod.fst (Except.ok.inj hp'))
    · rw [hf'] at hp'
      cases hp'
  · refine ⟨p.fetched, ?_, rfl, fun i hi => fetched_get hi⟩
    rw [armStep_of_dispatched hf hne, dispatch_refused hk]
    rfl

end Step

/-- A software interrupt with the condition 1111. -/
theorem refusesUndefined_iff_swi :
    RefusesUndefined (.trapping false)
        ⟨0, .ofFn fun _ => 0, .ofBytes [0x00, 0x00, 0x00, 0xFF], []⟩ ↔
      kind 0xFF000000 = 3 ∨ kind 0xFF000000 = 6 ∨ kind 0xFF000000 = 7 :=
  refusesUndefined_iff (by decide) (by decide)

/-- `mov r0, r1` with the condition 1111 is executed, on a little-endian simulator. -/
theorem not_refusesUndefined_mov :
    ¬ RefusesUndefined (.trapping false)
      ⟨0, .ofFn fun i => if i = 1 then 5 else 0, .ofBytes [0x01, 0x00, 0xA0, 0xF1], []⟩ := by
  rintro ⟨p', hp', -, -⟩
  cases hp'

/-! ## Words that only look like data processing -/

/-- A word of class 000 that is a multiplication or a swap, or one of the miscellaneous
instructions among the comparisons without S. -/
def Unimplemented (ins : BitVec 32) : Prop :=
  kind ins = 0 ∧ (ins.extractLsb' 4 4 = 0x9 ∨ Discards (Spec.opcode ins) ∧ bitS ins = false ∧
    ¬ (ins.getLsbD 7 = true ∧ ins.getLsbD 4 = true))

instance (ins : BitVec 32) : Decidable (Unimplemented ins) := inferInstanceAs (Decidable (_ ∧ _))

theorem armStep_of_data {b : Build} {p : ArmCore} {ins : BitVec 32} (hf : Fetches b p ins)
    (hk : kind ins = 0) : Returns (armStep b p) fun y => y.1 = 0 := by
  by_cases hc : armCheckCond p ins = 0
  · rw [armStep_of_skipped hf hc]
    exact returns_ok rfl
  · have hcode : codeOf ins = 0 := by
      rw [codeOf, hk, if_neg (by decide), if_neg fun h => absurd h.1 (by decide)]
    rcases armStep_returnsIf hf hc with ⟨-, p', hp'⟩ | ⟨-, f, hf'⟩
    · rw [hp', hcode]
      exact returns_ok rfl
    · rw [hf']
      exact returns_error

/-- **Look-alikes**: none of them is refused, the class being all the decoder looks at. -/
theorem never_refusesUndefined {b : Build} {p : ArmCore} {ins : BitVec 32}
    (hf : Fetches b p ins) (h : Unimplemented ins) : ¬ RefusesUndefined b p := by
  rintro ⟨p', hp', -, -⟩
  have hcode : UNDEFINED_INSTRUCTION = 0 := armStep_of_data hf h.1 _ hp'
  exact absurd hcode (by decide)

/-- `bx lr` is executed as `TEQ`. -/
theorem never_refusesUndefined_bx :
    ¬ RefusesUndefined (.trapping false)
      ⟨0, .ofFn fun _ => 0, .ofBytes [0x1E, 0xFF, 0x2F, 0xE1], []⟩ :=
  never_refusesUndefined (show Fetches _ _ 0xE12FFF1E by decide) (by decide)

/-- `mul r0, r1, r2` is executed as `AND`, on a little-endian simulator. -/
theorem not_refusesUndefined_mul :
    ¬ RefusesUndefined (.trapping false)
      ⟨0, .ofFn fun _ => 0, .ofBytes [0x91, 0x02, 0x00, 0xE0], []⟩ := by
  rintro ⟨p', hp', -, -⟩
  cases hp'

/-! ## Declared codes -/

/-- The step returns 0 or a code of `arm_constants.h`, and for a word that is not inside
the memory a prefetch abort, which is reported as `S0A` and has changed the PC only. -/
def FaultsDeclared (b : Build) (p : ArmCore) : Prop :=
  ∃ r p', armStep b p = .ok (r, p') ∧ (r = 0 ∨ 1 ≤ r ∧ r ≤ 9) ∧
    (p.mem.taille < (p.reg.get 15).toNat + 4 →
      r = PREFETCH_ABORT ∧ p'.mem = p.mem ∧ (∀ i, i ≠ 15 → p'.reg.get i = p.reg.get i) ∧
      ∀ g : Gdb, g.targetException = r → gdbSendStopReason g = gdbSendData g (text "S0A"))

section Declared

variable {b : Build} {p : ArmCore} {ins : BitVec 32}

theorem armStep_of_rejects (h : p.mem.Rejects (p.reg.get 15) 4) :
    armStep b p = .ok (255, p.fetched) := by
  have h15 : (15 : BitVec 8).toNat < 16 := by decide
  rw [armStep, armExecuteInstruction, armFetch]
  simp only [registersRead_of_lt h15, registersWrite_of_lt h15, ok_bind]
  rw [show (15 : BitVec 8).toNat = 15 from rfl, memoryReadWord_of_rejects h]
  rfl

theorem armStep_fault (h : ¬ p.mem.Safe (p.reg.get 15) 4) : ∃ f, armStep b p = .error f := by
  have h15 : (15 : BitVec 8).toNat < 16 := by decide
  obtain ⟨hr, hh⟩ := not_or.mp h
  obtain ⟨f, hf⟩ := memoryReadWord_fault (b.junk .fetchedInstruction) b.endianess hr hh
  refine ⟨f, ?_⟩
  rw [armStep, armExecuteInstruction, armFetch]
  simp only [registersRead_of_lt h15, registersWrite_of_lt h15, ok_bind]
  rw [show (15 : BitVec 8).toNat = 15 from rfl, hf]
  rfl

theorem dispatched_of_armStep {r : Int} {p' : ArmCore} (hf : Fetches b p ins)
    (hc : armCheckCond p ins ≠ 0) (h : armStep b p = .ok (r, p')) :
    ∃ code, dispatch b p.fetched ins = .ok (code, p') := by
  rw [armStep_of_dispatched hf hc] at h
  obtain ⟨y, hd, hfinish⟩ := exists_of_bind h
  obtain ⟨r', hr'⟩ := finish_of_harmless (b := b) (p := y.2) (dispatch_keeps _ _ _ y hd).1
  rw [hr'] at hfinish
  cases hfinish
  exact ⟨y.1, hd⟩

theorem armStep_inv {r : Int} {p' : ArmCore} (h : armStep b p = .ok (r, p')) :
    p' = p.fetched ∨ ∃ ins code, Fetches b p ins ∧ armCheckCond p ins ≠ 0 ∧
      dispatch b p.fetched ins = .ok (code, p') := by
  by_cases hs : p.mem.Safe (p.reg.get 15) 4
  · rcases hs with hr | hh
    · rw [armStep_of_rejects hr] at h
      cases h
      exact .inl rfl
    · have hf : Fetches b p (word b p.mem (p.reg.get 15)) := ⟨hh, rfl⟩
      by_cases hc : armCheckCond p (word b p.mem (p.reg.get 15)) = 0
      · rw [armStep_of_skipped hf hc] at h
        cases h
        exact .inl rfl
      · obtain ⟨code, hd⟩ := dispatched_of_armStep hf hc h
        exact .inr ⟨_, code, hf, hc, hd⟩
  · exact absurd ⟨_, h⟩ (no_value (armStep_fault hs))

theorem codeOf_cases (ins : BitVec 32) :
    codeOf ins = 0 ∨ codeOf ins = UNDEFINED_INSTRUCTION ∨
      codeOf ins = -1 ∧ kind ins = 5 ∧ condField ins = 0xF := by
  unfold codeOf
  split
  · exact .inr (.inl rfl)
  · split
    · exact .inr (.inr ⟨rfl, ‹_›⟩)
    · exact .inl rfl

theorem faultsDeclared_of_ok {r : Int} {p' : ArmCore} (h : armStep b p = .ok (r, p'))
    (hr : r ≠ PREFETCH_ABORT) :
    FaultsDeclared b p ↔ (r = 0 ∨ 1 ≤ r ∧ r ≤ 9) ∧ (p.reg.get 15).toNat + 4 ≤ p.mem.taille := by
  refine ⟨?_, fun ⟨hcode, hin⟩ => ⟨r, p', h, hcode, fun hout => absurd hin (Nat.not_le.mpr hout)⟩⟩
  rintro ⟨r', p'', h', hcode, hout⟩
  rw [h] at h'
  cases h'
  exact ⟨hcode, Nat.not_lt.mp fun hlt => hr (hout hlt).1⟩

theorem not_faultsDeclared_of_error (h : ∃ f, armStep b p = .error f) : ¬ FaultsDeclared b p := by
  rintro ⟨r, p', h', -⟩
  exact no_value h ⟨_, h'⟩

/-- **Declared codes**: a step reports as declared if its word is inside the memory, is not
a branch with the reserved condition, and is defined if it is dispatched. -/
theorem faultsDeclared_iff (b : Build) (p : ArmCore) :
    FaultsDeclared b p ↔
      (p.reg.get 15).toNat + 4 ≤ p.mem.taille ∧
      ¬ (kind (word b p.mem (p.reg.get 15)) = 5 ∧
        condField (word b p.mem (p.reg.get 15)) = 0xF) ∧
      (armCheckCond p (word b p.mem (p.reg.get 15)) ≠ 0 →
        Defined b p (word b p.mem (p.reg.get 15))) := by
  obtain ⟨ins, hins⟩ : ∃ ins, word b p.mem (p.reg.get 15) = ins := ⟨_, rfl⟩
  rw [hins]
  have hinside (h : (p.reg.get 15).toNat + 4 ≤ p.mem.taille) : p.mem.Holds (p.reg.get 15) 4 :=
    Access.holds_of_le h
  by_cases hh : p.mem.Holds (p.reg.get 15) 4
  · have hf : Fetches b p ins := ⟨hh, hins⟩
    by_cases hc : armCheckCond p ins = 0
    · rw [faultsDeclared_of_ok (armStep_of_skipped hf hc) (by decide)]
      refine ⟨fun h => ⟨h.2, fun hb => ?_, fun hn => absurd hc hn⟩, fun h => ⟨.inl rfl, h.1⟩⟩
      rw [armCheckCond_reserved p hb.2] at hc
      cases hc
    · rcases armStep_returnsIf hf hc with ⟨hd, p', hp'⟩ | ⟨hd, f, hf'⟩
      · rcases codeOf_cases ins with h0 | h7 | ⟨h1, hb⟩
        · rw [h0] at hp'
          rw [faultsDeclared_of_ok hp' (by decide)]
          refine ⟨fun h => ⟨h.2, fun hb => ?_, fun _ => hd⟩, fun h => ⟨.inl rfl, h.1⟩⟩
          rw [codeOf, if_neg (by rw [hb.1]; decide), if_pos hb] at h0
          cases h0
        · rw [h7] at hp'
          rw [faultsDeclared_of_ok hp' (by decide)]
          refine ⟨fun h => ⟨h.2, fun hb => ?_, fun _ => hd⟩, fun h => ⟨.inr (by decide), h.1⟩⟩
          rw [codeOf, if_neg (by rw [hb.1]; decide), if_pos hb] at h7
          cases h7
        · -- the -1 of the branch comes out as 255
          rw [h1] at hp'
          rw [faultsDeclared_of_ok hp' (by decide)]
          exact iff_of_false (fun h => absurd h.1 (by decide)) fun h => h.2.1 hb
      · exact iff_of_false (not_faultsDeclared_of_error ⟨f, hf'⟩) fun h => hd (h.2.2 hc)
  · refine iff_of_false ?_ fun h => hh (hinside h.1)
    by_cases hr : p.mem.Rejects (p.reg.get 15) 4
    · rw [faultsDeclared_of_ok (armStep_of_rejects hr) (by decide)]
      exact fun h => absurd h.1 (by decide)
    · exact not_faultsDeclared_of_error (armStep_fault (not_or.mpr ⟨hr, hh⟩))

/-- With no memory the fetch fails, and the code is 255. -/
theorem not_faultsDeclared_empty :
    ¬ FaultsDeclared (.trapping false) ⟨0, .ofFn fun _ => 0, .ofBytes [], []⟩ := by
  rintro ⟨r, p', h, hcode, -⟩
  cases h
  exact absurd hcode (by decide)

end Declared

end Armator.Sim
