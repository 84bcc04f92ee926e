import Armator.Lib.Defers
import Armator.Proof.Frame
import Armator.Proof.Interrupts

/-!
# Builds

What a step does where the C text leaves something open depends on the build. A build is
`Safer` than another if it traps where the other does something: a step that returns under the
safer build returns the same under the other, whatever the locals held before they were
assigned. Nor does a step look at what `putchar` has printed, or add to it.
-/

namespace Armator.Sim

open Lib Spec Relation

/-! ## Shifts -/

/-- Where the shifts of `b` do not trap, those of `b'` do the same. -/
structure Build.Safer (b b' : Build) : Prop where
  endian : b'.bigEndianSimulator = b.bigEndianSimulator
  shl : ∀ x n y, b.overShl x n = .ok y → b'.overShl x n = .ok y
  shr : ∀ x n y, b.overShr x n = .ok y → b'.overShr x n = .ok y

theorem Build.Safer.refl (b : Build) : b.Safer b := ⟨rfl, fun _ _ _ h => h, fun _ _ _ h => h⟩

section Shifts

variable {b b' : Build} {p : ArmCore} {ins : BitVec 32}

theorem shl_defers (hb : b.Safer b') (x : BitVec 32) (n : Int) :
    Defers Eq (shl b x n) (shl b' x n) :=
  defers_ite (fun _ => defers_refl _) fun _ y hy => ⟨y, hb.shl x n y hy, rfl⟩

theorem shr_defers (hb : b.Safer b') (x : BitVec 32) (n : Int) :
    Defers Eq (shr b x n) (shr b' x n) :=
  defers_ite (fun _ => defers_refl _) fun _ y hy => ⟨y, hb.shr x n y hy, rfl⟩

theorem getBit_defers (hb : b.Safer b') (x : BitVec 32) (i : Int) :
    Defers Eq (getBit b x i) (getBit b' x i) :=
  (shr_defers hb x i).bind_eq fun _ => defers_ok rfl

theorem asr_defers (hb : b.Safer b') (x : BitVec 32) (n : BitVec 8) :
    Defers Eq (asr b x n) (asr b' x n) := by
  refine (shr_defers hb x _).bind_eq fun low => (getBit_defers hb x 31).bind_eq fun sign => ?_
  exact defers_ite (fun _ => (shl_defers hb _ _).bind_eq fun _ => defers_refl _) fun _ =>
    defers_refl _

theorem ror_defers (hb : b.Safer b') (x : BitVec 32) (n : BitVec 8) :
    Defers Eq (ror b x n) (ror b' x n) :=
  (shr_defers hb x _).bind_eq fun _ => (shl_defers hb x _).bind_eq fun _ => defers_ok rfl

theorem carried_defers (hb : b.Safer b') (x shifted : BitVec 32) (i : Int) :
    Defers Eq
      ((getBit b x i >>= fun y => .ok (y.setWidth 8)) >>= fun c => .ok (shifted, c))
      ((getBit b' x i >>= fun y => .ok (y.setWidth 8)) >>= fun c =>
        (.ok (shifted, c) : Except Fault (BitVec 32 × BitVec 8))) :=
  ((getBit_defers hb x i).bind_eq fun _ => defers_refl _).bind_eq fun _ => defers_refl _

theorem shiftByImmediate_defers (hb : b.Safer b') (p : ArmCore) (ins : BitVec 32) :
    Defers Eq (shiftByImmediate b p ins) (shiftByImmediate b' p ins) := by
  unfold shiftByImmediate
  refine (defers_refl _).bind_eq fun value => ?_
  refine defers_ite (fun _ => defers_refl _) fun _ => ?_
  refine defers_ite (fun _ => ?_) fun _ => ?_
  · refine (shl_defers hb _ _).bind_eq fun shifted => ?_
    exact defers_ite (fun _ => defers_refl _) fun _ => carried_defers hb _ _ _
  refine defers_ite (fun _ => ?_) fun _ => ?_
  · refine (shr_defers hb _ _).bind_eq fun shifted => ?_
    exact defers_ite (fun _ => carried_defers hb _ _ _) fun _ => carried_defers hb _ _ _
  refine defers_ite (fun _ => ?_) fun _ => ?_
  · refine (asr_defers hb _ _).bind_eq fun shifted => ?_
    refine defers_ite (fun _ => ?_) fun _ => carried_defers hb _ _ _
    exact ((getBit_defers hb _ _).bind_eq fun _ => defers_refl _).bind_eq fun _ => defers_refl _
  refine defers_ite (fun _ => ?_) fun _ => defers_refl _
  refine defers_ite (fun _ => ?_) fun _ => ?_
  · exact (ror_defers hb _ _).bind_eq fun _ => carried_defers hb _ _ _
  · exact ((getBit_defers hb _ _).bind_eq fun _ => defers_refl _).bind_eq fun _ => defers_refl _

theorem shiftByRegister_defers (hb : b.Safer b') (p : ArmCore) (ins : BitVec 32) :
    Defers Eq (shiftByRegister b p ins) (shiftByRegister b' p ins) := by
  unfold shiftByRegister
  refine (defers_refl _).bind_eq fun value => (defers_refl _).bind_eq fun amount => ?_
  refine defers_ite (fun _ => ?_) fun _ => ?_
  · refine (shl_defers hb _ _).bind_eq fun shifted => ?_
    refine defers_ite (fun _ => defers_refl _) fun _ => ?_
    refine defers_ite (fun _ => carried_defers hb _ _ _) fun _ => ?_
    exact defers_ite (fun _ => carried_defers hb _ _ _) fun _ => defers_refl _
  refine defers_ite (fun _ => ?_) fun _ => ?_
  · refine (shr_defers hb _ _).bind_eq fun shifted => ?_
    refine defers_ite (fun _ => defers_refl _) fun _ => ?_
    refine defers_ite (fun _ => carried_defers hb _ _ _) fun _ => ?_
    exact defers_ite (fun _ => carried_defers hb _ _ _) fun _ => defers_refl _
  refine defers_ite (fun _ => ?_) fun _ => ?_
  · refine (asr_defers hb _ _).bind_eq fun shifted => ?_
    refine defers_ite (fun _ => defers_refl _) fun _ => ?_
    exact defers_ite (fun _ => carried_defers hb _ _ _) fun _ => defers_refl _
  refine defers_ite (fun _ => ?_) fun _ => defers_refl _
  refine (ror_defers hb _ _).bind_eq fun shifted => ?_
  refine defers_ite (fun _ => defers_refl _) fun _ => ?_
  exact defers_ite (fun _ => carried_defers hb _ _ _) fun _ => carried_defers hb _ _ _

theorem shift_defers (hb : b.Safer b') (p : ArmCore) (ins : BitVec 32) :
    Defers Eq (shift b p ins) (shift b' p ins) :=
  defers_ite (fun _ => shiftByImmediate_defers hb p ins) fun _ => shiftByRegister_defers hb p ins

theorem rotate_defers (hb : b.Safer b') (p : ArmCore) (ins : BitVec 32) :
    Defers Eq (rotate b p ins) (rotate b' p ins) := by
  unfold rotate
  refine (shr_defers hb _ _).bind_eq fun low => (shl_defers hb _ _).bind_eq fun high => ?_
  refine defers_ite (fun _ => ?_) fun _ => ?_
  · exact (getBit_defers hb _ _).bind_eq fun _ => defers_refl _
  · exact (getBit_defers hb _ _).bind_eq fun _ => defers_refl _

end Shifts

/-! ## Instructions -/

/-- The processor after other calls of `putchar`. -/
def ArmCore.saying (p : ArmCore) (o : List (BitVec 8)) : ArmCore := { p with printed := o }

/-- The same result; the processors differ in what was printed. -/
def Silent (o : List (BitVec 8)) (x y : Int × ArmCore) : Prop := y = (x.1, x.2.saying o)

section Instructions

variable {b b' : Build} {p : ArmCore} {ins : BitVec 32} {o : List (BitVec 8)}

theorem updateCpsr_saying (p : ArmCore) (o : List (BitVec 8)) (dest : BitVec 32)
    (s rd c v : BitVec 8) :
    updateCpsr (p.saying o) dest s rd c v = (updateCpsr p dest s rd c v).saying o := by
  have hspsr : armCurrentModeHasSpsr (p.saying o) = armCurrentModeHasSpsr p := rfl
  unfold updateCpsr
  simp only [hspsr]
  split
  · split <;> rfl
  · split
    · split <;> rfl
    · rfl

theorem operated_saying (p : ArmCore) (o : List (BitVec 8)) (opcode : Nat) (s rd : BitVec 8)
    (f : FlagInputs) (result : BitVec 32) :
    operated (p.saying o) opcode s rd f result = (operated p opcode s rd f result).saying o := by
  unfold operated
  rw [updateCpsr_saying, updateCpsr_saying]
  split <;> rfl

theorem dataProcessing_silent {opcode rn rd : BitVec 8} (p : ArmCore) (o : List (BitVec 8))
    (s : BitVec 8) (x : BitVec 32 × BitVec 8) (hop : opcode.toNat < 16) (hrn : rn.toNat < 16)
    (hrd : rd.toNat < 16) :
    Defers (Silent o) (dataProcessing p opcode s rn rd x.1 x.2)
      (dataProcessing (p.saying o) opcode s rn rd x.1 x.2) := by
  rw [dataProcessing_eq s x.2 x.1 hop (armReadRegister_of_lt hrn) hrd,
    dataProcessing_eq s x.2 x.1 hop (armReadRegister_of_lt hrn) hrd, operated_saying]
  exact defers_ok rfl

/-- Classes 000 and 001, the only ones that shift. -/
theorem dispatch_data_defers (hb : b.Safer b') (hk : kind ins = 0 ∨ kind ins = 1) :
    Defers (Silent o) (dispatch b p ins) (dispatch b' (p.saying o) ins) := by
  have hop := lt_of_nibble ins 21
  have hrn := lt_of_nibble ins 16
  have hrd := lt_of_nibble ins 12
  rcases hk with hk | hk
  · rw [dispatch_dataProcessing hk, dispatch_dataProcessing hk]
    exact (shift_defers hb p ins).bind_eq fun x => dataProcessing_silent p o _ x hop hrn hrd
  · rw [dispatch_immediate hk, dispatch_immediate hk]
    exact (rotate_defers hb p ins).bind_eq fun x => dataProcessing_silent p o _ x hop hrn hrd

theorem word_safer (hb : b.Safer b') (mem : Memory) (a : BitVec 32) :
    word b' mem a = word b mem a := by
  unfold word
  rw [hb.endian]

/-- What a failed access leaves in the variable is not looked at. -/
theorem armReadWord_defers (hb : b.Safer b') (p : ArmCore) (o : List (BitVec 8))
    (a v v' : BitVec 32) :
    Defers (fun x x' => x' = x ∨ x.1 = -1 ∧ x'.1 = -1) (armReadWord b p a v)
      (armReadWord b' (p.saying o) a v') := by
  by_cases hr : p.mem.Rejects a 4
  · have hr' : (p.saying o).mem.Rejects a 4 := hr
    rw [armReadWord_of_rejects hr, armReadWord_of_rejects hr']
    exact defers_ok (.inr ⟨rfl, rfl⟩)
  · by_cases hh : p.mem.Holds a 4
    · have hh' : (p.saying o).mem.Holds a 4 := hh
      rw [armReadWord_of_holds hh, armReadWord_of_holds hh', word_safer hb]
      exact defers_ok (.inl rfl)
    · obtain ⟨f, hf⟩ := armReadWord_fault (b := b) (v := v) hr hh
      rw [hf]
      exact defers_error

theorem memoryReadByte_defers (mem : Memory) (a : BitVec 32) (v v' : BitVec 8) :
    Defers (fun x x' => x' = x ∨ x.1 = -1 ∧ x'.1 = -1) (memoryReadByte mem a v)
      (memoryReadByte mem a v') :=
  defers_ite (fun _ => defers_ok (.inr ⟨rfl, rfl⟩)) fun _ =>
    (defers_refl _).bind_eq fun _ => defers_ok (.inl rfl)

theorem transfer_defers (hb : b.Safer b') (hk : kind ins = 2) :
    Defers (Silent o) (transfer b p ins) (transfer b' (p.saying o) ins) := by
  have hk0 : kind ins ≠ 0 := by rw [hk]; decide
  unfold transfer
  split
  · obtain ⟨x, hstr⟩ := str_eq (b := b) (p := p) hk
    obtain ⟨x', hstr'⟩ := str_eq (b := b') (p := p.saying o) hk
    rw [hstr, hstr']
    refine (armReadWord_defers hb p o _ x x').bind fun y y' hy => defers_ok ?_
    rcases hy with rfl | ⟨hy, hy'⟩
    · rfl
    · rw [hy, hy']
      rfl
  · rw [strh_eq hk0, strh_eq hk0]
    have hbytes : strhBytes b' (p.saying o) ins = strhBytes b p ins := by
      unfold strhBytes
      rw [hb.endian]
      rfl
    rw [hbytes]
    exact (defers_refl _).bind_eq fun x => defers_ok rfl
  · by_cases hs : p.mem.Safe (p.reg.get (baseReg ins)) 4
    · rcases hs with hr | hh
      · have hr' : (p.saying o).mem.Rejects ((p.saying o).reg.get (baseReg ins)) 4 := hr
        rw [ldr_of_rejects hk0 hr, ldr_of_rejects hk0 hr']
        exact defers_ok rfl
      · have hh' : (p.saying o).mem.Holds ((p.saying o).reg.get (baseReg ins)) 4 := hh
        rw [ldr_of_holds hk0 hh, ldr_of_holds hk0 hh', word_safer hb]
        exact defers_ok rfl
    · obtain ⟨f, hf⟩ := ldr_fault (b := b) hk0 hs
      rw [hf]
      exact defers_error
  · rw [ldrb_eq hk0, ldrb_eq hk0]
    refine (memoryReadByte_defers _ _ _ _).bind fun x x' hx => defers_ok ?_
    rcases hx with rfl | ⟨hx, hx'⟩
    · unfold Silent
      split <;> rfl
    · rw [hx, hx']
      rfl

/-- An induction on the list of the bytes. -/
theorem storeBytes_silent (ws : List (BitVec 32 × BitVec 8)) (p : ArmCore) :
    Defers (Silent o) (storeBytes p ws) (storeBytes (p.saying o) ws) := by
  induction ws generalizing p with
  | nil => exact defers_ok rfl
  | cons w ws ih =>
    have hone : Defers (Silent o) (armWriteByte p w.1 w.2) (armWriteByte (p.saying o) w.1 w.2) :=
      (defers_refl _).bind_eq fun _ => defers_ok rfl
    refine hone.bind fun x x' hx => ?_
    rw [hx]
    exact defers_ite (fun _ => defers_ok rfl) fun _ => ih x.2

theorem dispatch_multiple_defers (hk : kind ins = 4) :
    Defers (Silent o) (dispatch b p ins) (dispatch b' (p.saying o) ins) := by
  cases hB : bitB ins with
  | true =>
    rw [dispatch_userMode hk hB, dispatch_userMode hk hB]
    exact defers_ok rfl
  | false =>
    cases hL : bitL ins with
    | false =>
      rw [dispatch_stm hk hB hL, dispatch_stm hk hB hL]
      refine (storeBytes_silent _ p).bind fun x x' hx => ?_
      rw [hx]
      exact defers_ok rfl
    | true =>
      rw [dispatch_ldm hk hB hL, dispatch_ldm hk hB hL]
      refine (memoryReadByte_defers _ _ _ _).bind fun x x' hx => defers_ok ?_
      rcases hx with rfl | ⟨hx, hx'⟩
      · unfold Silent
        split <;> rfl
      · rw [hx, hx']
        rfl

theorem armBranch_silent (p : ArmCore) (ins : BitVec 32) :
    Defers (Silent o) (armBranch p ins) (armBranch (p.saying o) ins) := by
  have hjump (q : ArmCore) (v : BitVec 32) :
      Defers (Silent o) (armWriteRegister q 15 v >>= fun q => .ok ((0 : Int), q))
        (armWriteRegister (q.saying o) 15 v >>= fun q =>
          (.ok ((0 : Int), q) : Except Fault (Int × ArmCore))) := by
    rw [armWriteRegister_of_lt (by decide), armWriteRegister_of_lt (by decide)]
    exact defers_ok rfl
  refine (defers_refl _).bind_eq fun pc => defers_ite (fun _ => ?_) fun _ => defers_ok rfl
  refine defers_ite (fun _ => ?_) fun _ => hjump p _
  rw [armWriteRegister_of_lt (by decide), armWriteRegister_of_lt (by decide), ok_bind, ok_bind]
  exact hjump _ _

theorem dispatch_defers (hb : b.Safer b') (p : ArmCore) (ins : BitVec 32)
    (o : List (BitVec 8)) :
    Defers (Silent o) (dispatch b p ins) (dispatch b' (p.saying o) ins) := by
  rcases kind_cases ins with hk | hk | hk | hk | hk | hk
  · exact dispatch_data_defers hb (.inl hk)
  · exact dispatch_data_defers hb (.inr hk)
  · rw [dispatch_loadStore hk, dispatch_loadStore hk, armLoadStore_eq hk, armLoadStore_eq hk]
    refine (transfer_defers hb hk).bind fun x x' hx => ?_
    rw [hx]
    exact defers_ok rfl
  · exact dispatch_multiple_defers hk
  · rw [dispatch_branch hk, dispatch_branch hk]
    exact armBranch_silent p ins
  · rw [dispatch_refused hk, dispatch_refused hk]
    exact defers_ok rfl

/-! ## Steps -/

/-- The instruction is only looked at if it was fetched. -/
theorem armFetch_defers (hb : b.Safer b') (p : ArmCore) (o : List (BitVec 8)) (v v' : BitVec 32) :
    Defers (fun x x' => x'.1 = x.1 ∧ x'.2.2 = x.2.2.saying o ∧ (x.1 = 0 → x'.2.1 = x.2.1))
      (armFetch b p v) (armFetch b' (p.saying o) v') := by
  refine (defers_refl _).bind_eq fun address => (defers_refl _).bind_eq fun file => ?_
  refine (armReadWord_defers hb p o address v v').bind fun y y' hy => defers_ok ?_
  rcases hy with rfl | ⟨hy, hy'⟩
  · exact ⟨rfl, rfl, fun _ => rfl⟩
  · refine ⟨hy'.trans hy.symm, rfl, fun h0 => ?_⟩
    rw [hy] at h0
    cases h0

theorem armExecuteInstruction_defers (hb : b.Safer b') (p : ArmCore) (o : List (BitVec 8)) :
    Defers (Silent o) (armExecuteInstruction b p) (armExecuteInstruction b' (p.saying o)) := by
  refine (armFetch_defers hb p o _ _).bind fun x x' hx => ?_
  obtain ⟨result, ins, q⟩ := x
  obtain ⟨result', ins', q'⟩ := x'
  dsimp only at hx
  obtain ⟨rfl, rfl, hins⟩ := hx
  refine defers_ite (fun _ => defers_ok rfl) fun h0 => ?_
  obtain rfl := hins (not_ne_iff.1 h0)
  exact defers_ite (fun _ => dispatch_defers hb q _ o) fun _ => defers_ok rfl

theorem armStep_defers (hb : b.Safer b') (p : ArmCore) (o : List (BitVec 8)) :
    Defers (Silent o) (armStep b p) (armStep b' (p.saying o)) := by
  refine Defers.bind (R := fun x x' => Silent o x x' ∧ Harmless x.1) ?_ fun x x' hx => ?_
  · intro x hrun
    obtain ⟨x', hrun', hx⟩ := armExecuteInstruction_defers hb p o x hrun
    exact ⟨x', hrun', hx, armExecuteInstruction_harmless b p x hrun⟩
  · obtain ⟨result, q⟩ := x
    obtain ⟨rfl, hh⟩ := hx
    rcases hh with rfl | rfl | rfl
    · exact defers_ok rfl
    · exact defers_ok rfl
    · exact defers_ok rfl

theorem armStep_printed (b : Build) (p : ArmCore) :
    Returns (armStep b p) fun x => x.2.printed = p.printed := by
  intro x hrun
  obtain ⟨x', hrun', hx⟩ := armStep_defers (.refl b) p p.printed x hrun
  change armStep b p = _ at hrun'
  rw [hrun, hx] at hrun'
  have hsame := congrArg (fun y : Int × ArmCore => y.2.printed) (Except.ok.inj hrun')
  exact hsame

end Instructions

/-! ## Runs -/

section Runs

variable {h : Host} {b : Build} {after : List (Rule × List (BitVec 8)) → List (BitVec 8)}
  {s t : Process}

end Runs

end Armator.Sim
