import Armator.Proof.Step
import Mathlib.Tactic.MkIffOfInductiveProp

/-!
# Single transfers

Every transfer function takes its registers from the numbers `masked rn` and
`masked rd`, so it works on R0 and R4 only. `str` computes an address, writes back
in one of its modes, and then reads a word at the value of the data register where
it should store one; `strb_strh` and `ldrb_ldrh` pick a branch by a bit that is set
in every transfer, so a byte store stores a half; and the half transfers are in the
class of the data processing instructions. For each instruction a theorem says in
which states its step nevertheless does what the encoding asks for.
-/

namespace Armator.Sim

open Lib Spec

section Decode

variable {b : Build} {p : ArmCore} {ins : BitVec 32}

theorem getLsbD_of_kind_two (hk : kind ins = 2) :
    ins.getLsbD 25 = false ∧ ins.getLsbD 26 = true ∧ ins.getLsbD 27 = false := by
  have h (i : Nat) (hi : i < 3) := getLsbD_kind ins hi
  rw [hk] at h
  exact ⟨h 0 (by omega), h 1 (by omega), h 2 (by omega)⟩

/-- Which transfer the four dispatchers call. -/
def transfer (b : Build) (p : ArmCore) (ins : BitVec 32) : Except Fault (Int × ArmCore) :=
  match bitL ins, bitB ins with
  | false, false => str b p ins
  | false, true => strh b p ins
  | true, false => ldr b p ins
  | true, true => ldrb b p ins

theorem armLoadStore_eq (hk : kind ins = 2) :
    armLoadStore b p ins = (transfer b p ins >>= fun x => .ok (0, x.2)) := by
  have h0 : ins ≠ 0 := ne_zero_of_kind (by rw [hk]; decide)
  have h26 := (getLsbD_of_kind_two hk).2.1
  unfold armLoadStore transfer store load strbStrh ldrbLdrh
  simp only [if_neg h0, bit_eq, h26, ARM_INS_STORE, ARM_INS_STR, bitL, bitB]
  cases ins.getLsbD 20 <;> cases ins.getLsbD 22 <;> simp

/-- A step that runs a transfer returns 0 whatever the transfer returns. -/
theorem armStep_transfer (hf : Fetches b p ins) (hp : Passes p ins) (hr : ¬ Refused p ins)
    (hk : kind ins = 2) :
    armStep b p = (transfer b p.fetched ins >>= fun x => .ok (0, x.2)) := by
  rw [armStep_of_accepted hf hp hr, dispatch_loadStore hk, armLoadStore_eq hk]
  cases transfer b p.fetched ins <;> rfl

theorem armReadRegister_masked (p : ArmCore) (ins : BitVec 32) (k : Nat) :
    armReadRegister p (((ins >>> k) &&& 0x04).setWidth 8) =
      .ok (p.reg.get (masked (ins.extractLsb' k 4).toNat)) := by
  have hlt := masked_lt (ins.extractLsb' k 4).toNat
  rw [armReadRegister_of_lt (by rw [toNat_masked]; omega), toNat_masked,
    ArmCore.read_of_ne (by omega)]

theorem armWriteRegister_masked (p : ArmCore) (ins v : BitVec 32) (k : Nat) :
    armWriteRegister p (((ins >>> k) &&& 0x04).setWidth 8) v =
      .ok { p with reg := p.reg.set (masked (ins.extractLsb' k 4).toNat) v } := by
  have hlt := masked_lt (ins.extractLsb' k 4).toNat
  rw [armWriteRegister_of_lt (by rw [toNat_masked]; omega), toNat_masked]

theorem fetched_get_masked (p : ArmCore) (r : Nat) :
    p.fetched.reg.get (masked r) = p.reg.get (masked r) :=
  fetched_get (Nat.ne_of_lt (masked_lt r))

end Decode

/-! ## What the transfers do -/

/-- A `k`-byte access at `a` does not leave the block: it is rejected, or inside. -/
def Memory.Safe (mem : Memory) (a : BitVec 32) (k : Nat) : Prop := mem.Rejects a k ∨ mem.Holds a k

instance (mem : Memory) (a : BitVec 32) (k : Nat) : Decidable (mem.Safe a k) :=
  inferInstanceAs (Decidable (_ ∨ _))

section Functions

variable {b : Build} {p : ArmCore} {ins : BitVec 32}

/-- The registers `str` takes its base and its data from. -/
def baseReg (ins : BitVec 32) : Nat := masked (rn ins)
def dataReg (ins : BitVec 32) : Nat := masked (rd ins)

theorem baseReg_lt (ins : BitVec 32) : baseReg ins < 15 := masked_lt _

theorem dataReg_lt (ins : BitVec 32) : dataReg ins < 15 := masked_lt _

/-- The registers after `str`, which writes back in its pre-indexed mode only. -/
def strRegs (p : ArmCore) (ins : BitVec 32) : Registers :=
  if bitP ins && bitW ins then
    p.reg.set (baseReg ins) (indexed ins (p.reg.get (baseReg ins)) (imm12 ins &&& 0xC))
  else p.reg

theorem offset_eq (ins : BitVec 32) :
    (((ins >>> 0) &&& 0x0C).setWidth 8).setWidth 32 = imm12 ins &&& 0xC := by
  apply BitVec.eq_of_getLsbD_eq
  intro i hi
  have hc : (0xC : BitVec 32).getLsbD i = decide (i = 2 ∨ i = 3) := by
    interval_cases i <;> rfl
  simp only [imm12, BitVec.getLsbD_setWidth, BitVec.getLsbD_and, BitVec.getLsbD_ushiftRight, hc,
    BitVec.getLsbD_extractLsb', Nat.zero_add]
  by_cases h : i = 2 ∨ i = 3
  · simp [h, hi, show i < 8 by omega, show i < 12 by omega]
  · simp [h]

/-- The address and the base in local variables play no further role. -/
theorem strImmediate_eq (b : Build) (p : ArmCore) (ins : BitVec 32) :
    ∃ address base, strImmediate b p (if ins.getLsbD 24 then 1 else 0)
        (if ins.getLsbD 21 then 1 else 0) (if ins.getLsbD 23 then 1 else 0)
        (((ins >>> 16) &&& 0x04).setWidth 8) (p.reg.get (baseReg ins)) (imm12 ins &&& 0xC) =
      .ok (address, base, { p with reg := strRegs p ins }) := by
  have hw (v : BitVec 32) : armWriteRegister p (((ins >>> 16) &&& 0x04).setWidth 8) v =
      .ok { p with reg := p.reg.set (baseReg ins) v } := armWriteRegister_masked p ins v 16
  unfold strImmediate strRegs indexed bitP bitU bitW
  simp only [hw, ok_bind]
  cases ins.getLsbD 24 with
  | false => cases ins.getLsbD 21 <;> exact ⟨_, _, rfl⟩
  | true =>
    cases ins.getLsbD 21 with
    | false => exact ⟨_, _, rfl⟩
    | true => cases ins.getLsbD 23 <;> exact ⟨_, _, rfl⟩

/-- `str` reads a word at the value of its data register. -/
theorem str_eq (hk : kind ins = 2) :
    ∃ x, str b p ins = (armReadWord b p (p.reg.get (dataReg ins)) x >>= fun y =>
      .ok (if y.1 ≠ 0 then -1 else 0, { p with reg := strRegs p ins })) := by
  have h0 : ins ≠ 0 := ne_zero_of_kind (by rw [hk]; decide)
  have h25 := (getLsbD_of_kind_two hk).1
  obtain ⟨address, base, himm⟩ := strImmediate_eq b p ins
  refine ⟨base, ?_⟩
  rw [str, if_neg h0]
  simp only [armReadRegister_masked, ok_bind, bit_eq, h25, offset_eq, Bool.false_eq_true, if_false,
    if_true]
  change (strImmediate b p _ _ _ _ (p.reg.get (baseReg ins)) _ >>= _) = _
  rw [himm, ok_bind]
  dsimp only
  change (armReadWord b p (p.reg.get (dataReg ins)) base >>= _) = _
  congr 1
  funext y
  split <;> rfl

theorem str_of_safe (hk : kind ins = 2) (h : p.mem.Safe (p.reg.get (dataReg ins)) 4) :
    ∃ r, str b p ins = .ok (r, { p with reg := strRegs p ins }) := by
  obtain ⟨x, hstr⟩ := str_eq (b := b) (p := p) hk
  rcases h with h | h
  · exact ⟨-1, by rw [hstr, armReadWord_of_rejects h]; rfl⟩
  · exact ⟨0, by rw [hstr, armReadWord_of_holds h]; rfl⟩

theorem str_fault (hk : kind ins = 2) (h : ¬ p.mem.Safe (p.reg.get (dataReg ins)) 4) :
    ∃ f, str b p ins = .error f := by
  obtain ⟨x, hstr⟩ := str_eq (b := b) (p := p) hk
  obtain ⟨hr, hh⟩ := not_or.mp h
  obtain ⟨f, hf⟩ := armReadWord_fault (b := b) (v := x) hr hh
  exact ⟨f, by rw [hstr, hf]; rfl⟩

theorem ldr_of_rejects (hk : kind ins ≠ 0) (h : p.mem.Rejects (p.reg.get (baseReg ins)) 4) :
    ldr b p ins = .ok (-1, p) := by
  rw [ldr, if_neg (ne_zero_of_kind hk)]
  simp only [armReadRegister_masked, ok_bind]
  rw [armReadWord_of_rejects (by exact h)]
  rfl

theorem ldr_of_holds (hk : kind ins ≠ 0) (h : p.mem.Holds (p.reg.get (baseReg ins)) 4) :
    ldr b p ins = .ok (0, { p with
      reg := p.reg.set (dataReg ins) (word b p.mem (p.reg.get (baseReg ins))) }) := by
  rw [ldr, if_neg (ne_zero_of_kind hk)]
  simp only [armReadRegister_masked, ok_bind]
  rw [armReadWord_of_holds (by exact h), ok_bind]
  simp only [armWriteRegister_masked, ok_bind]
  rfl

theorem ldr_fault (hk : kind ins ≠ 0) (h : ¬ p.mem.Safe (p.reg.get (baseReg ins)) 4) :
    ∃ f, ldr b p ins = .error f := by
  obtain ⟨hr, hh⟩ := not_or.mp h
  obtain ⟨f, hf⟩ := armReadWord_fault (b := b) (v := b.junk .ldrValue) hr hh
  refine ⟨f, ?_⟩
  rw [ldr, if_neg (ne_zero_of_kind hk)]
  simp only [armReadRegister_masked, ok_bind]
  change (armReadWord b p (p.reg.get (baseReg ins)) (b.junk .ldrValue) >>= _) = _
  rw [hf, error_bind]

end Functions

/-! ## Word transfers -/

/-- The offset, the address and the new base the encoding of a transfer asks for. -/
def transferOffset (p : ArmCore) (ins : BitVec 32) : BitVec 32 := offset p.reg.get p.flags.c ins

def transferAddress (p : ArmCore) (ins : BitVec 32) : BitVec 32 :=
  address ins (p.reg.get (rn ins)) (transferOffset p ins)

def transferBase (p : ArmCore) (ins : BitVec 32) : BitVec 32 :=
  newBase ins (p.reg.get (rn ins)) (transferOffset p ins)

/-- A word transfer that is not the user-mode form, with an immediate or a shifted
register offset; its registers are not the PC, and the base is not another of them. -/
@[mk_iff]
structure WordTransfer (ins : BitVec 32) : Prop where
  kind : kind ins = 2 ∨ kind ins = 3 ∧ ins.getLsbD 4 = false ∧ rm ins ≠ 15 ∧ rm ins ≠ rn ins
  word : bitB ins = false
  form : bitP ins = true ∨ bitW ins = false
  rn : rn ins ≠ 15
  rd : rd ins ≠ 15
  distinct : Spec.rn ins ≠ Spec.rd ins

instance (ins : BitVec 32) : Decidable (WordTransfer ins) :=
  decidable_of_iff' _ (wordTransfer_iff ins)

/-- The step stores the word as the encoding of `ins` asks. -/
def StoresWord (b : Build) (p : ArmCore) (ins : BitVec 32) : Prop :=
  ∃ r p', armStep b p = .ok (r, p') ∧
    word b p'.mem (transferAddress p ins) = p.reg.get (rd ins) ∧
    p'.mem.taille = p.mem.taille ∧
    (∀ x, x < (transferAddress p ins).toNat ∨ (transferAddress p ins).toNat + 4 ≤ x →
      p'.mem.get x = p.mem.get x) ∧
    p'.reg.get (rn ins) = transferBase p ins ∧
    ∀ i, i ≠ 15 → i ≠ rn ins → p'.reg.get i = p.reg.get i

/-- The instruction reaches the functions of `arm_load_store.c`: it is not refused, and
its offset is an immediate. -/
def Reached (p : ArmCore) (ins : BitVec 32) : Prop := ¬ Refused p ins ∧ kind ins = 2

/-- The encoding asks for the old base. -/
def KeepsBase (p : ArmCore) (ins : BitVec 32) : Prop :=
  bitP ins = true ∧ bitW ins = false ∨ transferOffset p ins = 0

instance (p : ArmCore) (ins : BitVec 32) : Decidable (Reached p ins) :=
  inferInstanceAs (Decidable (_ ∧ _))

instance (p : ArmCore) (ins : BitVec 32) : Decidable (KeepsBase p ins) :=
  inferInstanceAs (Decidable (_ ∨ _))

/-- When a step at a store does what the encoding asks for. The word must be there
already; a reached instruction must not read past the block at its data register, and
its base must stay, or be R0 or R4 with an offset of 4, 8 or 12 in the pre-indexed mode. -/
def StrExact (b : Build) (p : ArmCore) (ins : BitVec 32) : Prop :=
  word b p.mem (transferAddress p ins) = p.reg.get (rd ins) ∧
    if Reached p ins then
      p.mem.Safe (p.reg.get (dataReg ins)) 4 ∧
        (KeepsBase p ins ∨ bitP ins = true ∧ bitW ins = true ∧ baseReg ins = rn ins ∧
          imm12 ins &&& 0xC = imm12 ins)
    else KeepsBase p ins

instance (b : Build) (p : ArmCore) (ins : BitVec 32) : Decidable (StrExact b p ins) :=
  inferInstanceAs (Decidable (_ ∧ _))

section Word

variable {b : Build} {p : ArmCore} {ins : BitVec 32}

theorem indexed_eq_self {base off : BitVec 32} : indexed ins base off = base ↔ off = 0 := by
  unfold indexed
  split
  · refine ⟨?_, ?_⟩
    · intro h
      exact (BitVec.add_right_inj base).mp (h.trans (BitVec.add_zero base).symm)
    · rintro rfl
      exact BitVec.add_zero base
  · rw [BitVec.sub_eq_iff_eq_add]
    refine ⟨?_, ?_⟩
    · intro h
      exact (BitVec.add_right_inj base).mp (h.symm.trans (BitVec.add_zero base).symm)
    · rintro rfl
      exact (BitVec.add_zero base).symm

theorem indexed_inj {base off off' : BitVec 32} :
    indexed ins base off = indexed ins base off' ↔ off = off' := by
  unfold indexed
  split
  · exact BitVec.add_right_inj base
  · refine ⟨?_, ?_⟩
    · intro h
      rw [BitVec.sub_eq_add_neg, BitVec.sub_eq_add_neg, BitVec.add_right_inj] at h
      rw [← BitVec.neg_neg (x := off), h, BitVec.neg_neg]
    · rintro rfl; rfl

theorem transferBase_eq_self : transferBase p ins = p.reg.get (rn ins) ↔ KeepsBase p ins := by
  rw [transferBase, newBase, KeepsBase]
  cases bitP ins <;> cases bitW ins <;> simp [indexed_eq_self]

theorem armStep_of_not_reached (hf : Fetches b p ins) (hp : Passes p ins)
    (hk : kind ins = 2 ∨ kind ins = 3) (h : ¬ Reached p ins) :
    ∃ r, armStep b p = .ok (r, p.fetched) := by
  by_cases hr : Refused p ins
  · exact ⟨0, armStep_of_refused hf hp hr⟩
  · have h3 : kind ins = 3 := hk.resolve_left fun h2 => h ⟨hr, h2⟩
    refine ⟨UNDEFINED_INSTRUCTION, ?_⟩
    rw [armStep_of_accepted hf hp hr, dispatch_refused (.inl h3), ok_bind, finish_undefined]

theorem strRegs_fetched_get {i : Nat} (hi : i ≠ 15) :
    (strRegs p.fetched ins).get i =
      if bitP ins = true ∧ bitW ins = true ∧ i = baseReg ins then
        indexed ins (p.reg.get (baseReg ins)) (imm12 ins &&& 0xC)
      else p.reg.get i := by
  have hs := baseReg_lt ins
  unfold strRegs
  cases bitP ins with
  | false => simp [fetched_get hi]
  | true =>
    cases bitW ins with
    | false => simp [fetched_get hi]
    | true =>
      rw [if_pos (by rfl), Registers.get_set (by unfold NB_REGISTER; omega), fetched_get hi,
        fetched_get (by omega)]
      simp

theorem strRegs_exact_iff (hw : WordTransfer ins) (hk : kind ins = 2) :
    ((strRegs p.fetched ins).get (rn ins) = transferBase p ins ∧
        ∀ i, i ≠ 15 → i ≠ rn ins → (strRegs p.fetched ins).get i = p.reg.get i) ↔
      KeepsBase p ins ∨ bitP ins = true ∧ bitW ins = true ∧ baseReg ins = rn ins ∧
        imm12 ins &&& 0xC = imm12 ins := by
  have hoff : transferOffset p ins = imm12 ins := by
    rw [transferOffset, offset, (getLsbD_of_kind_two hk).1, if_neg Bool.false_ne_true]
  have hs := baseReg_lt ins
  rw [strRegs_fetched_get hw.rn]
  by_cases hpw : bitP ins = true ∧ bitW ins = true
  · obtain ⟨hP, hW⟩ := hpw
    have hkeep : KeepsBase p ins ↔ imm12 ins = 0 := by
      rw [KeepsBase, hoff, hP, hW]; simp
    have hbase : transferBase p ins = indexed ins (p.reg.get (rn ins)) (imm12 ins) := by
      rw [transferBase, newBase, hoff, hP, hW]; rfl
    rw [hkeep, hbase]
    by_cases hn : baseReg ins = rn ins
    · rw [if_pos ⟨hP, hW, hn.symm⟩, hn, indexed_inj]
      refine ⟨?_, ?_⟩
      · exact fun h => .inr ⟨hP, hW, rfl, h.1⟩
      · intro h
        refine ⟨?_, fun i h15 hi => ?_⟩
        · rcases h with h | h
          · rw [h]; rfl
          · exact h.2.2.2
        · rw [strRegs_fetched_get h15, if_neg fun hc => hi (hc.2.2.trans hn)]
    · rw [if_neg fun hc => hn hc.2.2.symm, eq_comm, indexed_eq_self]
      refine ⟨?_, ?_⟩
      · exact fun h => .inl h.1
      · intro h
        have h0 : imm12 ins = 0 := h.resolve_right fun hc => hn hc.2.2.1
        refine ⟨h0, fun i h15 hi => ?_⟩
        rw [strRegs_fetched_get h15]
        split
        · rename_i hc
          rw [hc.2.2, h0]
          exact indexed_eq_self.mpr rfl
        · rfl
  · have hget {i : Nat} (hi : i ≠ 15) : (strRegs p.fetched ins).get i = p.reg.get i := by
      rw [strRegs_fetched_get hi, if_neg fun hc => hpw ⟨hc.1, hc.2.1⟩]
    rw [if_neg fun hc => hpw ⟨hc.1, hc.2.1⟩, eq_comm, transferBase_eq_self]
    refine ⟨?_, ?_⟩
    · exact fun h => .inl h.1
    · exact fun h => ⟨h.resolve_right fun hc => hpw ⟨hc.1, hc.2.1⟩, fun i h15 _ => hget h15⟩

/-- **Word stores**: which steps store the word as the encoding asks. -/
theorem storesWord_iff (hf : Fetches b p ins) (hp : Passes p ins) (hw : WordTransfer ins)
    (hL : bitL ins = false) : StoresWord b p ins ↔ StrExact b p ins := by
  have hk : kind ins = 2 ∨ kind ins = 3 := hw.kind.imp_right And.left
  by_cases hr : Reached p ins
  · have hregs := strRegs_exact_iff (p := p) hw hr.2
    have hsafe : p.fetched.mem.Safe (p.fetched.reg.get (dataReg ins)) 4 ↔
        p.mem.Safe (p.reg.get (dataReg ins)) 4 := by
      rw [fetched_mem, dataReg, fetched_get_masked]
    have hstep : armStep b p = (str b p.fetched ins >>= fun x => .ok (0, x.2)) := by
      rw [armStep_transfer hf hp hr.1 hr.2, transfer, hL, hw.word]
    rw [StrExact, if_pos hr, ← hregs, StoresWord]
    by_cases hs : p.mem.Safe (p.reg.get (dataReg ins)) 4
    · obtain ⟨r', hstr⟩ := str_of_safe (b := b) hr.2 (hsafe.mpr hs)
      rw [hstr, ok_bind] at hstep
      rw [exists_ok_iff hstep]
      refine ⟨?_, ?_⟩
      · rintro ⟨hword, -, -, hregs'⟩
        exact ⟨hword, hs, hregs'⟩
      · rintro ⟨hword, -, hregs'⟩
        exact ⟨hword, rfl, fun _ _ => rfl, hregs'⟩
    · obtain ⟨f, hstr⟩ := str_fault (b := b) hr.2 (hsafe.not.mpr hs)
      rw [hstr, error_bind] at hstep
      exact iff_of_false (not_exists_ok ⟨f, hstep⟩) fun h => hs h.2.1
  · obtain ⟨r, hstep⟩ := armStep_of_not_reached hf hp hk hr
    rw [StrExact, if_neg hr, ← transferBase_eq_self, StoresWord, exists_ok_iff hstep,
      fetched_get hw.rn]
    refine ⟨?_, ?_⟩
    · rintro ⟨hword, -, -, hbase, -⟩
      exact ⟨hword, hbase.symm⟩
    · rintro ⟨hword, hbase⟩
      exact ⟨hword, rfl, fun _ _ => rfl, hbase.symm, fun i h15 _ => fetched_get h15⟩

/-- The step loads the word as the encoding of `ins` asks. -/
def LoadsWord (b : Build) (p : ArmCore) (ins : BitVec 32) : Prop :=
  ∃ r p', armStep b p = .ok (r, p') ∧
    p'.reg.get (rd ins) = word b p.mem (transferAddress p ins) ∧
    p'.reg.get (rn ins) = transferBase p ins ∧
    p'.mem = p.mem ∧ armReadCpsr p' = armReadCpsr p ∧
    ∀ i, i ≠ 15 → i ≠ rd ins → i ≠ rn ins → p'.reg.get i = p.reg.get i

/-- The instruction reaches `ldr`, and the read there is let through. -/
def Loaded (p : ArmCore) (ins : BitVec 32) (k : Nat) : Prop :=
  Reached p ins ∧ ¬ p.mem.Rejects (p.reg.get (baseReg ins)) k

instance (p : ArmCore) (ins : BitVec 32) (k : Nat) : Decidable (Loaded p ins k) :=
  inferInstanceAs (Decidable (_ ∧ _))

/-- The step puts `v` in the data register of the code; for the registers `rd` and
`rn`, which should hold `x` and `y`, and the others this is right. -/
def LoadExact (p : ArmCore) (ins v x y : BitVec 32) : Prop :=
  x = (if rd ins = dataReg ins then v else p.reg.get (rd ins)) ∧
    y = (if rn ins = dataReg ins then v else p.reg.get (rn ins)) ∧
    (rd ins ≠ dataReg ins → rn ins ≠ dataReg ins → v = p.reg.get (dataReg ins))

/-- When a step at a load does what the encoding asks for. The word at the base
register of the code, when it is loaded, goes to the data register of the code; when
nothing is loaded, the word must be in `Rd` already and the base must stay. -/
def LdrExact (b : Build) (p : ArmCore) (ins : BitVec 32) : Prop :=
  if Loaded p ins 4 then
    p.mem.Holds (p.reg.get (baseReg ins)) 4 ∧
      LoadExact p ins (word b p.mem (p.reg.get (baseReg ins)))
        (word b p.mem (transferAddress p ins)) (transferBase p ins)
  else word b p.mem (transferAddress p ins) = p.reg.get (rd ins) ∧ KeepsBase p ins

instance (p : ArmCore) (ins v x y : BitVec 32) : Decidable (LoadExact p ins v x y) :=
  inferInstanceAs (Decidable (_ ∧ _))

instance (b : Build) (p : ArmCore) (ins : BitVec 32) : Decidable (LdrExact b p ins) :=
  inferInstanceAs (Decidable (ite _ _ _))

theorem set_dataReg_get {v : BitVec 32} {i : Nat} (hi : i ≠ 15) :
    (p.fetched.reg.set (dataReg ins) v).get i = if i = dataReg ins then v else p.reg.get i := by
  have hs := dataReg_lt ins
  rw [Registers.get_set (by unfold NB_REGISTER; omega), fetched_get hi]

theorem loadExact_iff {v x y : BitVec 32} (hn : rn ins ≠ 15) (hd : rd ins ≠ 15) :
    ((p.fetched.reg.set (dataReg ins) v).get (rd ins) = x ∧
        (p.fetched.reg.set (dataReg ins) v).get (rn ins) = y ∧
        ∀ i, i ≠ 15 → i ≠ rd ins → i ≠ rn ins →
          (p.fetched.reg.set (dataReg ins) v).get i = p.reg.get i) ↔
      LoadExact p ins v x y := by
  have hs := dataReg_lt ins
  rw [set_dataReg_get hn, set_dataReg_get hd, LoadExact]
  refine ⟨?_, ?_⟩
  · rintro ⟨hx, hy, hother⟩
    refine ⟨hx.symm, hy.symm, fun h1 h2 => ?_⟩
    have h := hother (dataReg ins) (by omega) h1.symm h2.symm
    rwa [set_dataReg_get (by omega), if_pos rfl] at h
  · rintro ⟨hx, hy, hother⟩
    refine ⟨hx.symm, hy.symm, fun i h15 h1 h2 => ?_⟩
    rw [set_dataReg_get h15]
    split
    · rename_i hi
      rw [hi]
      exact hother (hi ▸ h1.symm) (hi ▸ h2.symm)
    · rfl

theorem loadsWord_of_fetched (hn : rn ins ≠ 15) (hd : rd ins ≠ 15)
    (h : ∃ r, armStep b p = .ok (r, p.fetched)) :
    LoadsWord b p ins ↔
      word b p.mem (transferAddress p ins) = p.reg.get (rd ins) ∧ KeepsBase p ins := by
  obtain ⟨r, hstep⟩ := h
  rw [← transferBase_eq_self, LoadsWord, exists_ok_iff hstep, fetched_get hd, fetched_get hn]
  refine ⟨?_, ?_⟩
  · rintro ⟨hword, hbase, -⟩
    exact ⟨hword.symm, hbase.symm⟩
  · rintro ⟨hword, hbase⟩
    exact ⟨hword.symm, hbase.symm, rfl, armReadCpsr_fetched p, fun i h15 _ _ => fetched_get h15⟩

/-- **Word loads**: which steps load the word as the encoding asks. -/
theorem loadsWord_iff (hf : Fetches b p ins) (hp : Passes p ins) (hw : WordTransfer ins)
    (hL : bitL ins = true) : LoadsWord b p ins ↔ LdrExact b p ins := by
  have hk : kind ins = 2 ∨ kind ins = 3 := hw.kind.imp_right And.left
  rw [LdrExact]
  by_cases hr : Reached p ins
  · have hstep : armStep b p = (ldr b p.fetched ins >>= fun x => .ok (0, x.2)) := by
      rw [armStep_transfer hf hp hr.1 hr.2, transfer, hL, hw.word]
    have hk0 : kind ins ≠ 0 := by rw [hr.2]; decide
    have hbase : p.fetched.reg.get (baseReg ins) = p.reg.get (baseReg ins) :=
      fetched_get_masked p _
    by_cases hrej : p.mem.Rejects (p.reg.get (baseReg ins)) 4
    · rw [if_neg fun h : Loaded p ins 4 => h.2 hrej]
      refine loadsWord_of_fetched hw.rn hw.rd ⟨0, ?_⟩
      rw [hstep, ldr_of_rejects hk0 (by rw [hbase]; exact hrej), ok_bind]
    · rw [if_pos (show Loaded p ins 4 from ⟨hr, hrej⟩)]
      by_cases hh : p.mem.Holds (p.reg.get (baseReg ins)) 4
      · rw [ldr_of_holds hk0 (by rw [hbase]; exact hh), ok_bind, hbase] at hstep
        have hcpsr : registersReadCpsr (p.fetched.reg.set (dataReg ins)
            (word b p.mem (p.reg.get (baseReg ins)))) = armReadCpsr p :=
          (registersReadCpsr_set (by have := dataReg_lt ins; omega)).trans (armReadCpsr_fetched p)
        rw [← loadExact_iff hw.rn hw.rd, LoadsWord, exists_ok_iff hstep]
        refine ⟨?_, ?_⟩
        · rintro ⟨hd, hn, -, -, hother⟩
          exact ⟨hh, hd, hn, hother⟩
        · rintro ⟨-, hd, hn, hother⟩
          exact ⟨hd, hn, rfl, hcpsr, hother⟩
      · have hns : ¬ p.fetched.mem.Safe (p.fetched.reg.get (baseReg ins)) 4 := by
          rw [hbase]; exact not_or.mpr ⟨hrej, hh⟩
        obtain ⟨f, hldr⟩ := ldr_fault (b := b) hk0 hns
        rw [hldr, error_bind] at hstep
        exact iff_of_false (not_exists_ok ⟨f, hstep⟩) fun h => hh h.1
  · rw [if_neg fun h : Loaded p ins 4 => hr h.1]
    exact loadsWord_of_fetched hw.rn hw.rd (armStep_of_not_reached hf hp hk hr)

end Word

/-- `str r0, [r1]` with the word already in place, the data register pointing past
the end of the memory. -/
theorem storesWord_iff_in_place :
    StoresWord (.trapping false) ⟨0, .ofFn fun i => if i = 0 then 0xE5810000 else 0,
      .ofBytes [0x00, 0x00, 0x81, 0xE5], []⟩ 0xE5810000 :=
  (storesWord_iff (by decide) (by decide) (by decide) (by decide)).mpr (by decide)

/-- `str r1, [r2, #4]` leaves the memory as it is, on a little-endian simulator. -/
theorem not_storesWord :
    ¬ StoresWord (.trapping false) ⟨0, .ofFn fun i => if i = 1 then 0x11223344 else 0,
      .ofBytes [0x04, 0x10, 0x82, 0xE5, 0, 0, 0, 0], []⟩ 0xE5821004 := by
  rintro ⟨r, p', hrun, hword, -⟩
  cases hrun
  exact absurd hword (by decide)

/-- `ldr r4, [r0]` with the PC's own word. -/
theorem loadsWord_iff_r4 :
    LoadsWord (.trapping false) ⟨0, .ofFn fun _ => 0, .ofBytes [0x00, 0x40, 0x90, 0xE5], []⟩
      0xE5904000 :=
  (loadsWord_iff (by decide) (by decide) (by decide) (by decide)).mpr (by decide)

/-- `ldr r1, [r2, #4]` loads R4 from R0, on a little-endian simulator. -/
theorem not_loadsWord :
    ¬ LoadsWord (.trapping false) ⟨0, .ofFn fun _ => 0,
      .ofBytes [0x04, 0x10, 0x92, 0xE5, 1, 2, 3, 4], []⟩ 0xE5921004 := by
  rintro ⟨r, p', hrun, hword, -⟩
  cases hrun
  exact absurd hword (by decide)

end Armator.Sim
