import Armator.Lib.Returns
import Armator.Proof.Multiple
import Armator.Proof.Narrow
import Armator.Proof.Operations

/-!
# What one step may touch

`Keeps regs memory p p'`: between `p` and `p'` only the registers in `regs` have changed,
and the memory only if `memory`. Each class of instructions has such a frame, and returns
0, -1 or the code of an undefined instruction, for none of which `armException` does
anything.
-/

namespace Armator.Sim

open Lib Spec

structure Keeps (regs : Nat → Prop) (memory : Prop) (p p' : ArmCore) : Prop where
  cycles : p'.cycleCount = p.cycleCount
  size : p'.mem.taille = p.mem.taille
  mem : ¬ memory → p'.mem = p.mem
  reg : ∀ i, ¬ regs i → p'.reg.get i = p.reg.get i

/-- A result for which `armException` does nothing. -/
def Harmless (r : Int) : Prop := r = 0 ∨ r = -1 ∨ r = UNDEFINED_INSTRUCTION

section Keeps

variable {p q : ArmCore} {regs regs' : Nat → Prop} {memory memory' : Prop}

theorem Keeps.refl (p : ArmCore) : Keeps regs memory p p := ⟨rfl, rfl, fun _ => rfl, fun _ _ => rfl⟩

theorem Keeps.mono (h : Keeps regs memory p q) (hr : ∀ i, regs i → regs' i)
    (hm : memory → memory') : Keeps regs' memory' p q :=
  ⟨h.cycles, h.size, fun hn => h.mem fun h' => hn (hm h'),
    fun i hi => h.reg i fun h' => hi (hr i h')⟩

theorem Keeps.set (h : Keeps regs memory p q) {j : Nat} {v : BitVec 32} (hj : j < NB_REGISTER)
    (hr : regs j) : Keeps regs memory p { q with reg := q.reg.set j v } := by
  refine ⟨h.cycles, h.size, h.mem, fun i hi => ?_⟩
  have hne : i ≠ j := fun e => hi (e ▸ hr)
  dsimp only
  rw [Registers.get_set hj, if_neg hne]
  exact h.reg i hi

end Keeps

/-! ## The classes -/

section Classes

variable {b : Build} {p : ArmCore} {ins : BitVec 32}

theorem updateCpsr_keeps (p : ArmCore) (dest : BitVec 32) (s rd c v : BitVec 8) :
    Keeps (· = 16) False p (updateCpsr p dest s rd c v) := by
  have hw (w : BitVec 32) : Keeps (· = 16) False p (armWriteCpsr p w) :=
    Keeps.set (.refl p) (by decide) rfl
  unfold updateCpsr
  dsimp only
  split
  · split
    · exact hw _
    · exact .refl p
  · split
    · exact hw _
    · exact .refl p

/-- One of the four comparisons, which write no register. -/
def Compares (opcode : BitVec 8) : Prop := 8 ≤ opcode.toNat ∧ opcode.toNat ≤ 11

/-- What an operation of the table leaves: updated flags, and a value in `Rd` if it is not a
comparison. -/
def OperationLeaves (p : ArmCore) (opcode s rd : BitVec 8) (p' : ArmCore) : Prop :=
  ∃ dest c v,
    (Compares opcode ∧ p' = updateCpsr p dest 1 0 c v) ∨
    (¬ Compares opcode ∧ ∃ value, p' = { updateCpsr p dest s rd c v with
      reg := (updateCpsr p dest s rd c v).reg.set rd.toNat value })

/-- **What an operation does**: it returns 0 and leaves updated flags and `Rd`. -/
theorem dataProcessing_effect {opcode s rn rd c : BitVec 8} (op2 : BitVec 32)
    (hop : opcode.toNat < 16) (hrn : rn.toNat < 16) (hrd : rd.toNat < 16) :
    ∃ p', dataProcessing p opcode s rn rd op2 c = .ok (0, p') ∧
      OperationLeaves p opcode s rd p' := by
  refine ⟨_, dataProcessing_eq _ _ _ hop (armReadRegister_of_lt hrn) hrd, ?_⟩
  by_cases h : Discards opcode.toNat
  · exact ⟨_, _, _, .inl ⟨h, if_pos h⟩⟩
  · exact ⟨_, _, _, .inr ⟨h, _, if_neg h⟩⟩

theorem OperationLeaves.keeps {opcode s rd : BitVec 8} {p' : ArmCore} (hrd : rd.toNat < 16)
    (h : OperationLeaves p opcode s rd p') :
    Keeps (fun i => i = 16 ∨ i = rd.toNat) False p p' := by
  have hupdate (dest : BitVec 32) (s rd' c v : BitVec 8) :
      Keeps (fun i => i = 16 ∨ i = rd.toNat) False p (updateCpsr p dest s rd' c v) :=
    (updateCpsr_keeps p dest s rd' c v).mono (fun i hi => .inl hi) id
  obtain ⟨dest, c, v, ⟨-, rfl⟩ | ⟨-, value, rfl⟩⟩ := h
  · exact hupdate dest 1 0 c v
  · exact Keeps.set (hupdate dest s rd c v) (by unfold NB_REGISTER; omega) (.inr rfl)

theorem lt_of_nibble (ins : BitVec 32) (k : Nat) :
    (((ins >>> k) &&& 0x0F).setWidth 8 : BitVec 8).toNat < 16 := by
  rw [toNat_nibble]
  exact (ins.extractLsb' k 4).isLt

theorem toNat_rd (ins : BitVec 32) :
    (((ins >>> 12) &&& 0x0F).setWidth 8 : BitVec 8).toNat = rd ins := toNat_nibble ins 12

theorem dispatch_operation (hk : kind ins = 0 ∨ kind ins = 1) :
    Returns (dispatch b p ins) fun y => y.1 = 0 ∧
      OperationLeaves p (((ins >>> 21) &&& 0x0F).setWidth 8) (((ins >>> 20) &&& 0x01).setWidth 8)
        (((ins >>> 12) &&& 0x0F).setWidth 8) y.2 := by
  have hall (x : BitVec 32 × BitVec 8) :
      Returns (dataProcessing p (((ins >>> 21) &&& 0x0F).setWidth 8)
        (((ins >>> 20) &&& 0x01).setWidth 8) (((ins >>> 16) &&& 0x0F).setWidth 8)
        (((ins >>> 12) &&& 0x0F).setWidth 8) x.1 x.2) fun y => y.1 = 0 ∧
          OperationLeaves p (((ins >>> 21) &&& 0x0F).setWidth 8)
            (((ins >>> 20) &&& 0x01).setWidth 8) (((ins >>> 12) &&& 0x0F).setWidth 8) y.2 := by
    obtain ⟨p', hp', hleaves⟩ := dataProcessing_effect (p := p)
      (s := ((ins >>> 20) &&& 0x01).setWidth 8) (c := x.2) x.1 (lt_of_nibble ins 21)
      (lt_of_nibble ins 16) (lt_of_nibble ins 12)
    rw [hp']
    exact returns_ok ⟨rfl, hleaves⟩
  rcases hk with hk | hk
  · rw [dispatch_dataProcessing hk]
    exact returns_bind fun x => hall x
  · rw [dispatch_immediate hk]
    exact returns_bind fun x => hall x

theorem dispatch_data_keeps (hk : kind ins = 0 ∨ kind ins = 1) :
    Returns (dispatch b p ins) fun y =>
      Harmless y.1 ∧ Keeps (fun i => i = 16 ∨ i = rd ins) False p y.2 := by
  refine (dispatch_operation hk).mono fun y ⟨hcode, hleaves⟩ => ⟨.inl hcode, ?_⟩
  rw [← toNat_rd]
  exact hleaves.keeps (lt_of_nibble ins 12)

theorem guardedWrite_size {mem : Memory} {a : BitVec 32} (bs : List (BitVec 8))
    (hl : 0 < bs.length) :
    Returns (guardedWrite mem a bs) fun x => x.2.taille = mem.taille := by
  by_cases hr : mem.Rejects a bs.length
  · rw [guardedWrite_of_rejects hr]
    exact returns_ok rfl
  · by_cases hh : mem.Holds a bs.length
    · rw [guardedWrite_of_holds hl hh]
      exact returns_ok (Memory.taille_write bs)
    · obtain ⟨f, hf⟩ := guardedWrite_fault bs hr hh
      rw [hf]
      exact returns_error

theorem strRegs_keeps (p : ArmCore) (ins : BitVec 32) :
    Keeps (· < 15) (bitL ins = false) p { p with reg := strRegs p ins } := by
  have hlt := baseReg_lt ins
  unfold strRegs
  split
  · exact Keeps.set (.refl p) (by unfold NB_REGISTER; omega) hlt
  · exact .refl p

theorem transfer_keeps (hk : kind ins = 2) :
    Returns (transfer b p ins) fun y => Keeps (· < 15) (bitL ins = false) p y.2 := by
  have hk0 : kind ins ≠ 0 := by rw [hk]; decide
  have hlt := dataReg_lt ins
  have hd : dataReg ins < NB_REGISTER := by unfold NB_REGISTER; omega
  unfold transfer
  split
  · obtain ⟨x, hstr⟩ := str_eq (b := b) (p := p) hk
    rw [hstr]
    exact returns_bind fun y => returns_ok (strRegs_keeps p ins)
  · rename_i hL _
    rw [strh_eq hk0]
    refine Returns.bind (guardedWrite_size (strhBytes b p ins) ?_) fun x hx => returns_ok ?_
    · exact Nat.lt_of_lt_of_eq Nat.two_pos (length_split 2 _ _).symm
    · exact ⟨rfl, hx, fun hn => absurd hL hn, fun _ _ => rfl⟩
  · by_cases hs : p.mem.Safe (p.reg.get (baseReg ins)) 4
    · rcases hs with hr | hh
      · rw [ldr_of_rejects hk0 hr]
        exact returns_ok (.refl p)
      · rw [ldr_of_holds hk0 hh]
        exact returns_ok (Keeps.set (.refl p) hd hlt)
    · obtain ⟨f, hf⟩ := ldr_fault (b := b) hk0 hs
      rw [hf]
      exact returns_error
  · rw [ldrb_eq hk0]
    refine returns_bind fun x => returns_ok ?_
    split
    · exact .refl p
    · exact Keeps.set (.refl p) hd hlt

theorem storeBytes_keeps (ws : List (BitVec 32 × BitVec 8)) (p : ArmCore) :
    Returns (storeBytes p ws) fun y => Keeps (fun _ => False) True p y.2 := by
  induction ws generalizing p with
  | nil => exact returns_ok (.refl p)
  | cons w ws ih =>
    have hsize : Returns (armWriteByte p w.1 w.2) fun x =>
        Keeps (fun _ => False) True p x.2 := by
      rw [armWriteByte, memoryWriteByte_eq]
      refine Returns.bind (guardedWrite_size [w.2] Nat.one_pos) fun x hx => returns_ok ?_
      exact ⟨rfl, hx, fun h => absurd trivial h, fun _ _ => rfl⟩
    refine hsize.bind fun x hx => returns_ite (fun _ => returns_ok hx) fun _ => ?_
    refine (ih x.2).mono fun y hy => ?_
    exact ⟨hy.cycles.trans hx.cycles, hy.size.trans hx.size, fun h => absurd trivial h,
      fun i hi => (hy.reg i hi).trans (hx.reg i hi)⟩

theorem setAll_keeps (p : ArmCore) (ins v : BitVec 32) :
    Keeps (· < 15) False p { p with reg := setAll p.reg (visited ins) v } := by
  refine ⟨rfl, rfl, fun _ => rfl, fun i hi => ?_⟩
  dsimp only
  rw [setAll_get fun j hj => lt_of_mem_visited hj, if_neg fun hm => hi (lt_of_mem_visited hm)]

/-- A user-mode transfer is none at all. -/
theorem dispatch_userMode (hk : kind ins = 4) (hB : bitB ins = true) :
    dispatch b p ins = .ok (0, p) := by
  have h0 : ins ≠ 0 := ne_zero_of_kind (by rw [hk]; decide)
  have h22 : ¬ (ins >>> 22) &&& 1 = 0 := fun h => by
    rw [bitB, bit_eq_zero.mp h] at hB
    cases hB
  rw [dispatch_loadStoreMultiple hk, armLoadStoreMultiple, if_neg h0]
  simp only [stm, ldm, if_neg h0, h22, if_false, ite_self, ok_bind]

theorem dispatch_multiple_keeps (hk : kind ins = 4) :
    Returns (dispatch b p ins) fun y =>
      y.1 = 0 ∧ Keeps (· < 15) (bitL ins = false) p y.2 := by
  cases hB : bitB ins with
  | true =>
    rw [dispatch_userMode hk hB]
    exact returns_ok ⟨rfl, .refl p⟩
  | false =>
    cases hL : bitL ins with
    | false =>
      rw [dispatch_stm hk hB hL]
      refine (storeBytes_keeps _ p).bind fun x hx => returns_ok ⟨rfl, ?_⟩
      exact hx.mono (fun _ h => h.elim) fun _ => rfl
    | true =>
      rw [dispatch_ldm hk hB hL]
      refine returns_bind fun x => returns_ok ⟨rfl, ?_⟩
      split
      · exact .refl p
      · exact (setAll_keeps p ins _).mono (fun _ h => h) fun h => h.elim

theorem armBranch_keeps (p : ArmCore) (ins : BitVec 32) :
    Returns (armBranch p ins) fun y =>
      Harmless y.1 ∧ Keeps (fun i => i = 14 ∨ i = 15) False p y.2 := by
  have hjump (q : ArmCore) (v : BitVec 32) (hq : Keeps (fun i => i = 14 ∨ i = 15) False p q) :
      Returns (armWriteRegister q 15 v >>= fun q => .ok ((0 : Int), q)) fun y =>
        Harmless y.1 ∧ Keeps (fun i => i = 14 ∨ i = 15) False p y.2 := by
    rw [armWriteRegister_of_lt (by decide), ok_bind]
    exact returns_ok ⟨.inl rfl, Keeps.set hq (by decide) (.inr rfl)⟩
  refine returns_bind fun pc => returns_ite (fun _ => ?_)
    fun _ => returns_ok ⟨.inr (.inl rfl), .refl p⟩
  refine returns_ite (fun _ => ?_) fun _ => hjump p _ (.refl p)
  rw [armWriteRegister_of_lt (by decide), ok_bind]
  exact hjump _ _ (Keeps.set (.refl p) (by decide) (.inl rfl))

end Classes

/-! ## One step -/

/-- A data processing instruction: class 000 or 001. -/
def IsData (ins : BitVec 32) : Prop := kind ins = 0 ∨ kind ins = 1

/-- A store: class 010, 011 or 100 with L clear. -/
def IsStore (ins : BitVec 32) : Prop :=
  (kind ins = 2 ∨ kind ins = 3 ∨ kind ins = 4) ∧ bitL ins = false

/-- R15 is the `Rd` of a data processing instruction or of a single load, or in the list
of a multiple load. -/
def NamesPc (ins : BitVec 32) : Prop :=
  (IsData ins ∨ (kind ins = 2 ∨ kind ins = 3) ∧ bitL ins = true) ∧ rd ins = 15 ∨
    kind ins = 4 ∧ bitL ins = true ∧ ins.getLsbD 15 = true

/-- What a step from `p` to `p'` at the instruction `ins` leaves unchanged. -/
structure StepFrame (p p' : ArmCore) (ins : BitVec 32) : Prop where
  cycles : p'.cycleCount = p.cycleCount + 1
  size : p'.mem.taille = p.mem.taille
  mem : ¬ (IsStore ins ∧ armCheckCond p ins ≠ 0) → p'.mem = p.mem
  cpsr : ¬ (IsData ins ∧ armCheckCond p ins ≠ 0) → p'.reg.get 16 = p.reg.get 16
  pc : ¬ (kind ins = 5 ∨ NamesPc ins) → p'.reg.get 15 = p.reg.get 15 + 4

section Step

variable {b : Build} {p : ArmCore} {ins : BitVec 32}

/-- The registers an instruction may change, the PC's own advance apart. -/
def Written (ins : BitVec 32) (i : Nat) : Prop :=
  IsData ins ∧ (i = 16 ∨ i = rd ins) ∨ kind ins = 5 ∧ (i = 14 ∨ i = 15) ∨ i < 15

/-- Every class returns a harmless result and has its frame. -/
theorem dispatch_keeps (b : Build) (p : ArmCore) (ins : BitVec 32) :
    Returns (dispatch b p ins) fun y =>
      Harmless y.1 ∧ Keeps (Written ins) (IsStore ins) p y.2 := by
  have hdata (hk : IsData ins) : Returns (dispatch b p ins) fun y =>
      Harmless y.1 ∧ Keeps (Written ins) (IsStore ins) p y.2 :=
    (dispatch_data_keeps hk).mono fun y hy =>
      ⟨hy.1, hy.2.mono (fun i hi => .inl ⟨hk, hi⟩) False.elim⟩
  rcases kind_cases ins with hk | hk | hk | hk | hk | hk
  · exact hdata (.inl hk)
  · exact hdata (.inr hk)
  · rw [dispatch_loadStore hk, armLoadStore_eq hk]
    refine (transfer_keeps hk).bind fun y hy => returns_ok ⟨.inl rfl, hy.mono ?_ ?_⟩
    · exact fun i hi => .inr (.inr hi)
    · exact fun hL => ⟨.inl hk, hL⟩
  · refine (dispatch_multiple_keeps hk).mono fun y hy => ⟨.inl hy.1, hy.2.mono ?_ ?_⟩
    · exact fun i hi => .inr (.inr hi)
    · exact fun hL => ⟨.inr (.inr hk), hL⟩
  · rw [dispatch_branch hk]
    refine (armBranch_keeps p ins).mono fun y hy => ⟨hy.1, hy.2.mono ?_ False.elim⟩
    exact fun i hi => .inr (.inl ⟨hk, hi⟩)
  · rw [dispatch_refused hk]
    exact returns_ok ⟨.inr (.inr rfl), .refl p⟩

theorem finish_of_harmless {r : Int} (h : Harmless r) : ∃ r', finish b (r, p) = .ok (r', p) := by
  rcases h with rfl | rfl | rfl
  · exact ⟨0, rfl⟩
  · exact ⟨255, rfl⟩
  · exact ⟨UNDEFINED_INSTRUCTION, rfl⟩

theorem harmless_ne_reset {r : Int} (h : Harmless r) : BitVec.ofInt 8 r ≠ BitVec.ofInt 8 RESET := by
  rcases h with rfl | rfl | rfl <;> decide

theorem memoryReadWord_harmless (mem : Memory) (a v : BitVec 32) (be : BitVec 8) :
    Returns (memoryReadWord mem a v be) fun x => Harmless x.1 :=
  returns_ite (fun _ => returns_ok (.inr (.inl rfl)))
    fun _ => returns_bind fun _ => returns_ok (.inl rfl)

theorem armExecuteInstruction_harmless (b : Build) (p : ArmCore) :
    Returns (armExecuteInstruction b p) fun x => Harmless x.1 := by
  refine Returns.bind (P := fun x => Harmless x.1) ?_ fun x hx => ?_
  · refine returns_bind fun address => returns_bind fun r => ?_
    exact (memoryReadWord_harmless _ _ _ _).bind fun x hx => returns_ok hx
  · refine returns_ite (fun _ => returns_ok hx) fun _ => ?_
    refine returns_ite (fun _ => ?_) fun _ => returns_ok hx
    exact (dispatch_keeps b x.2.2 x.2.1).mono fun y hy => hy.1

theorem stepFrame_of_keeps {p' : ArmCore} (hc : armCheckCond p ins ≠ 0)
    (h : Keeps (Written ins) (IsStore ins) p.fetched p') : StepFrame p p' ins := by
  refine ⟨h.cycles, h.size, fun hn => ?_, fun hn => ?_, fun hn => ?_⟩
  · exact h.mem fun hs => hn ⟨hs, hc⟩
  · rw [h.reg 16, fetched_get (by decide)]
    rintro (⟨hd, -⟩ | ⟨-, h16⟩ | h16)
    · exact hn ⟨hd, hc⟩
    · omega
    · omega
  · rw [h.reg 15, fetched_get_pc]
    rintro (⟨hd, h15⟩ | ⟨h5, -⟩ | h15)
    · exact hn (.inr (.inl ⟨.inl hd, by omega⟩))
    · exact hn (.inl h5)
    · omega

/-- **Frame of a step**: every step that returns has it, and none returns the code of a
reset to `armException`. -/
theorem armStep_frame (hf : Fetches b p ins) :
    (∀ r p', armStep b p = .ok (r, p') → StepFrame p p' ins) ∧
      ∀ r p', armExecuteInstruction b p = .ok (r, p') →
        BitVec.ofInt 8 r ≠ BitVec.ofInt 8 RESET := by
  refine ⟨fun r p' hstep => ?_, fun r p' hexec =>
    harmless_ne_reset (armExecuteInstruction_harmless b p _ hexec)⟩
  by_cases hc : armCheckCond p ins = 0
  · rw [armStep_of_skipped hf hc] at hstep
    cases hstep
    exact ⟨rfl, rfl, fun _ => rfl, fun _ => fetched_get (by decide), fun _ => fetched_get_pc p⟩
  · rw [armStep_of_dispatched hf hc] at hstep
    have hframe : Returns (dispatch b p.fetched ins >>= finish b) fun y =>
        StepFrame p y.2 ins := by
      refine (dispatch_keeps b p.fetched ins).bind fun y hy => ?_
      obtain ⟨r', hr'⟩ := finish_of_harmless (b := b) (p := y.2) hy.1
      rw [hr']
      exact returns_ok (stepFrame_of_keeps hc hy.2)
    exact hframe _ hstep

end Step

/-- `ldr r4, [r0]` -/
theorem armStep_frame_ldr :
    ∃ r p', armStep (.trapping false) ⟨7, .ofFn fun _ => 0, .ofBytes [0x00, 0x40, 0x90, 0xE5], []⟩ =
        .ok (r, p') ∧
      StepFrame ⟨7, .ofFn fun _ => 0, .ofBytes [0x00, 0x40, 0x90, 0xE5], []⟩ p' 0xE5904000 :=
  ⟨_, _, rfl, (armStep_frame (b := .trapping false) (by decide)).1 _ _ rfl⟩

end Armator.Sim
