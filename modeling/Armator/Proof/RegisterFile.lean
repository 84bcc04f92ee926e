import Armator.Lib.Related
import Armator.Proof.Modes

/-!
# The register file

The sixteen general registers, the CPSR and the SPSR are cells of one array. An access by number
to a cell past R15 is found with a watch on these cells: a computation that makes one stops with
whatever fault the watch is given (`Strays`). The runs of a processor and of the same processor
with a watch are compared access by access, together with what they write to the CPSR.
-/

namespace Armator.Sim

open Lib Spec

/-! ## Accesses past R15 -/

/-- The computation accesses a register past R15 by its number: with a watch on these registers
it stops with the fault of the watch, whatever fault that is. -/
def Strays {α : Type} (run : Registers → Except Halt α) (r : Registers) : Prop :=
  ∀ f, run (r.watched f) = .error (.fault f)

example : Strays (fun r => lift (registersRead r 16 SVC)) registersCreate := fun _ => rfl

example : ¬ Strays (fun r => lift (registersRead r 15 SVC)) registersCreate :=
  fun h => nomatch h (.shift 0)

theorem not_strays {α β : Type} {R : β → α → Prop} {run : Registers → Except Halt α}
    {r : Registers} {x : Except Halt β} (h : ∀ f, Related R x (run (r.watched f))) :
    ¬ Strays run r := by
  intro hs
  have hstop (f : Fault) : x = .error (.fault f) := by
    have hf := h f
    rw [hs f] at hf
    cases x with
    | error e => exact congrArg Except.error hf
    | ok a => exact hf.elim
  have htwo := (hstop (.shift 0)).symm.trans (hstop (.shift 1))
  cases htwo

/-! ## Two runs, one of them watched -/

/-- The two processors differ at most in the watch. -/
structure Alike (p q : ArmCore) : Prop where
  cycles : q.cycleCount = p.cycleCount
  mem : q.mem = p.mem
  printed : q.printed = p.printed
  reg : ∀ i, q.reg.get i = p.reg.get i

/-- Between `p` and `p'` the CPSR was written with `registers_write_cpsr` only. -/
def StatusKept (p p' : ArmCore) : Prop :=
  p'.reg.get 16 = p.reg.get 16 ∨ ∃ w, p'.reg.get 16 = w &&& ~~~CPSR_Reserved_Mask

/-- Where a run from `p₀` and a watched one have come to. -/
structure Track (p₀ p q : ArmCore) : Prop extends Alike p q where
  kept : StatusKept p₀ p

section Track

variable {p₀ p q : ArmCore} {i : Nat} {f : Fault}

theorem Alike.refl (p : ArmCore) : Alike p p := ⟨rfl, rfl, rfl, fun _ => rfl⟩

theorem alike_watched (p : ArmCore) (f : Fault) :
    Alike p { p with reg := p.reg.watched f } := ⟨rfl, rfl, rfl, fun _ => rfl⟩

theorem Alike.track (h : Alike p q) : Track p p q := ⟨h, .inl rfl⟩

theorem Alike.status (h : Alike p q) : armReadCpsr q = armReadCpsr p := by
  unfold armReadCpsr registersReadCpsr
  rw [h.reg]

theorem Alike.read (h : Alike p q) (i : Nat) : q.read i = p.read i := by
  unfold ArmCore.read
  rw [h.reg, h.reg]

theorem Track.setMem (h : Track p₀ p q) (mem : Memory) :
    Track p₀ { p with mem := mem } { q with mem := mem } :=
  ⟨⟨h.cycles, rfl, h.printed, h.reg⟩, h.kept⟩

theorem Track.set (h : Track p₀ p q) (hi : i < 16) (v : BitVec 32) :
    Track p₀ { p with reg := p.reg.set i v } { q with reg := q.reg.set i v } := by
  have hget (r : Registers) (j : Nat) : (r.set i v).get j = if j = i then v else r.get j :=
    Registers.get_set (by unfold NB_REGISTER; omega)
  refine ⟨⟨h.cycles, h.mem, h.printed, fun j => ?_⟩, ?_⟩
  · rw [hget, hget, h.reg j]
  · unfold StatusKept
    rw [hget, if_neg (by omega)]
    exact h.kept

theorem Track.writeCpsr (h : Track p₀ p q) (w : BitVec 32) :
    Track p₀ (armWriteCpsr p w) (armWriteCpsr q w) := by
  have hget (p : ArmCore) (j : Nat) : (armWriteCpsr p w).reg.get j =
      if j = 16 then w &&& ~~~CPSR_Reserved_Mask else p.reg.get j := Registers.get_set (by decide)
  refine ⟨⟨h.cycles, h.mem, h.printed, fun j => ?_⟩, .inr ⟨w, ?_⟩⟩
  · rw [hget, hget, h.reg j]
  · rw [hget, if_pos rfl]

theorem Track.updateCpsr (h : Track p₀ p q) (dest : BitVec 32) (s rd c v : BitVec 8) :
    Track p₀ (updateCpsr p dest s rd c v) (updateCpsr q dest s rd c v) := by
  have hspsr (p : ArmCore) : armCurrentModeHasSpsr p = 1 := rfl
  unfold Sim.updateCpsr
  dsimp only
  rw [hspsr, hspsr, h.status]
  split
  · exact h.writeCpsr _
  · split
    · exact h.writeCpsr _
    · exact h

end Track

/-! ## Rules for the accesses -/

section Rules

variable {ε β : Type} {p₀ p q : ArmCore} {n : BitVec 8} {R : β → β → Prop}

theorem Alike.armReadRegister (h : Alike p q) (hn : n.toNat < 16) :
    armReadRegister q n = armReadRegister p n := by
  rw [armReadRegister_of_lt hn, armReadRegister_of_lt hn, h.read]

theorem related_read (h : Track p₀ p q) (hn : n.toNat < 16)
    {f g : BitVec 32 → Except Fault β} (hf : ∀ v, Related R (f v) (g v)) :
    Related R (armReadRegister p n >>= f) (armReadRegister q n >>= g) :=
  related_same (h.armReadRegister hn).symm hf

theorem related_write (h : Track p₀ p q) (hn : n.toNat < 16) (v : BitVec 32)
    {f g : ArmCore → Except Fault β} (hf : ∀ p' q', Track p₀ p' q' → Related R (f p') (g q')) :
    Related R (armWriteRegister p n v >>= f) (armWriteRegister q n v >>= g) := by
  rw [armWriteRegister_of_lt hn, armWriteRegister_of_lt hn]
  exact hf _ _ (h.set hn v)

/-- Equal results, and states come to from `p₀` on the same way. -/
def Alongside (p₀ : ArmCore) (x y : Int × ArmCore) : Prop := x.1 = y.1 ∧ Track p₀ x.2 y.2

theorem related_alongside (h : Track p₀ p q) (r : Int) :
    Related (Alongside p₀) (.ok (r, p) : Except ε (Int × ArmCore)) (.ok (r, q)) :=
  related_ok ⟨rfl, h⟩

end Rules

/-! ## Data processing -/

section DataProcessing

variable {b : Build} {p₀ p q : ArmCore} {ins : BitVec 32}

theorem related_dataProcessing (h : Track p₀ p q) {opcode rn rd : BitVec 8} (s c : BitVec 8)
    (op2 : BitVec 32) (hop : opcode.toNat < 16) (hrn : rn.toNat < 16) (hrd : rd.toNat < 16) :
    Related (Alongside p₀) (dataProcessing p opcode s rn rd op2 c)
      (dataProcessing q opcode s rn rd op2 c) := by
  have hback (dest value : BitVec 32) (c v : BitVec 8) :
      Related (Alongside p₀) (DataProcessing.writeBack rd (value, updateCpsr p dest s rd c v))
        (DataProcessing.writeBack rd (value, updateCpsr q dest s rd c v)) :=
    related_write (h.updateCpsr dest s rd c v) hrd value fun p' q' h' => related_alongside h' 0
  have htwo (dest value : BitVec 32 → BitVec 32 → BitVec 32) (c v : BitVec 32 → BitVec 8) :
      Related (Alongside p₀)
        ((armReadRegister p rn >>= fun src => armReadRegister p rd >>= fun old =>
          .ok (value src old, updateCpsr p (dest src old) s rd (c src) (v src))) >>=
            DataProcessing.writeBack rd)
        ((armReadRegister q rn >>= fun src => armReadRegister q rd >>= fun old =>
          .ok (value src old, updateCpsr q (dest src old) s rd (c src) (v src))) >>=
            DataProcessing.writeBack rd) := by
    rw [armReadRegister_of_lt hrn, armReadRegister_of_lt hrd, armReadRegister_of_lt hrn,
      armReadRegister_of_lt hrd, h.read, h.read]
    exact hback _ _ _ _
  have hone (dest : BitVec 32) (c v : BitVec 8) :
      Related (Alongside p₀)
        ((armReadRegister p rd >>= fun _ => .ok (dest, updateCpsr p dest s rd c v)) >>=
          DataProcessing.writeBack rd)
        ((armReadRegister q rd >>= fun _ => .ok (dest, updateCpsr q dest s rd c v)) >>=
          DataProcessing.writeBack rd) := by
    rw [armReadRegister_of_lt hrd, armReadRegister_of_lt hrd]
    exact hback _ _ _ _
  have hcompare (dest : BitVec 32 → BitVec 32) (c v : BitVec 32 → BitVec 8) :
      Related (Alongside p₀)
        ((armReadRegister p rn >>= fun src =>
          .ok (updateCpsr p (dest src) 1 0 (c src) (v src))) >>= fun p => .ok ((0 : Int), p))
        ((armReadRegister q rn >>= fun src =>
          .ok (updateCpsr q (dest src) 1 0 (c src) (v src))) >>= fun q => .ok ((0 : Int), q)) := by
    rw [armReadRegister_of_lt hrn, armReadRegister_of_lt hrn, h.read]
    exact related_alongside (h.updateCpsr _ 1 0 _ _) 0
  unfold dataProcessing
  generalize hn : opcode.toNat = n at hop
  interval_cases n
  all_goals first
    | exact htwo _ _ _ _
    | exact hone _ _ _
    | exact hcompare _ _ _
    | skip
  -- the three operations that read the carry
  all_goals
    dsimp only [DataProcessing.adc, DataProcessing.sbc, DataProcessing.rsc]
    rw [h.status]
    exact htwo _ _ _ _

/-- The shifter reads two registers at most, and the carry. -/
theorem shift_congr (h : Alike p q) : shift b p ins = shift b q ins := by
  have hrm : armReadRegister q ((ins &&& 0x0F).setWidth 8) =
      armReadRegister p ((ins &&& 0x0F).setWidth 8) := by
    have hlt := lt_of_nibble ins 0
    rw [BitVec.ushiftRight_zero] at hlt
    exact h.armReadRegister hlt
  have hrs : armReadRegister q (((ins >>> 8) &&& 0x0F).setWidth 8) =
      armReadRegister p (((ins >>> 8) &&& 0x0F).setWidth 8) :=
    h.armReadRegister (lt_of_nibble ins 8)
  have himm : shiftByImmediate b q ins = shiftByImmediate b p ins := by
    unfold shiftByImmediate
    dsimp only
    rw [hrm, h.status]
  have hreg : shiftByRegister b q ins = shiftByRegister b p ins := by
    unfold shiftByRegister
    dsimp only
    rw [hrm, hrs, h.status]
  unfold shift
  rw [himm, hreg]

theorem rotate_congr (h : Alike p q) : rotate b p ins = rotate b q ins := by
  unfold rotate
  rw [h.status]

end DataProcessing

/-! ## Transfers -/

section Transfers

variable {b : Build} {p₀ p q : ArmCore} {ins : BitVec 32}

theorem masked_field_lt (ins : BitVec 32) (k : Nat) :
    (((ins >>> k) &&& 0x04).setWidth 8 : BitVec 8).toNat < 16 := by
  rw [toNat_masked]
  exact Nat.lt_succ_of_lt (masked_lt _)

theorem related_load {β : Type} (h : Track p₀ p q)
    (read : Memory → BitVec 32 → Except Fault (Int × β)) (out : β → BitVec 32) :
    Related (Alongside p₀)
      (armReadRegister p (((ins >>> 16) &&& 0x04).setWidth 8) >>= fun v =>
        read p.mem v >>= fun x => if x.1 ≠ 0 then .ok (-1, p) else
          armWriteRegister p (((ins >>> 12) &&& 0x04).setWidth 8) (out x.2) >>= fun p =>
            .ok ((0 : Int), p))
      (armReadRegister q (((ins >>> 16) &&& 0x04).setWidth 8) >>= fun v =>
        read q.mem v >>= fun x => if x.1 ≠ 0 then .ok (-1, q) else
          armWriteRegister q (((ins >>> 12) &&& 0x04).setWidth 8) (out x.2) >>= fun q =>
            .ok ((0 : Int), q)) := by
  refine related_read h (masked_field_lt ins 16) fun v => ?_
  refine related_same (congrArg (read · v) h.mem.symm) fun x => ?_
  refine related_ite (fun _ => related_alongside h (-1)) fun _ => ?_
  exact related_write h (masked_field_lt ins 12) _ fun p' q' h' => related_alongside h' 0

theorem related_ldr (h : Track p₀ p q) : Related (Alongside p₀) (ldr b p ins) (ldr b q ins) :=
  related_ite (fun _ => related_alongside h (-1)) fun _ =>
    related_load h (fun mem v => memoryReadWord mem v _ _) id

theorem related_ldrb (h : Track p₀ p q) : Related (Alongside p₀) (ldrb b p ins) (ldrb b q ins) :=
  related_ite (fun _ => related_alongside h (-1)) fun _ =>
    related_load h (fun mem v => memoryReadByte mem v _) (·.setWidth 32)

theorem related_store {f : Memory → Except Fault (Int × Memory)} (h : Track p₀ p q) :
    Related (Alongside p₀)
      (f p.mem >>= fun x => .ok (x.1, { p with mem := x.2 }))
      (f q.mem >>= fun x => .ok (x.1, { q with mem := x.2 })) :=
  related_same (congrArg f h.mem.symm) fun x => related_alongside (h.setMem x.2) x.1

theorem related_strh (h : Track p₀ p q) : Related (Alongside p₀) (strh b p ins) (strh b q ins) := by
  refine related_ite (fun _ => related_alongside h (-1)) fun _ => ?_
  refine related_read h (masked_field_lt ins 12) fun a => ?_
  refine related_read h (masked_field_lt ins 16) fun v => ?_
  refine (related_store (f := fun mem => memoryWriteHalf mem a (v.setWidth 16) b.endianess) h).bind
    fun x y hxy => ?_
  obtain ⟨x, p'⟩ := x
  obtain ⟨y, q'⟩ := y
  obtain ⟨rfl, h'⟩ := hxy
  exact related_ite (fun _ => related_alongside h' (-1)) fun _ => related_alongside h' 0

theorem related_strImmediate (h : Track p₀ p q) (bitP bitW bitU v offset : BitVec 32) :
    Related (fun x y => x.2.1 = y.2.1 ∧ Track p₀ x.2.2 y.2.2)
      (strImmediate b p bitP bitW bitU (((ins >>> 16) &&& 0x04).setWidth 8) v offset)
      (strImmediate b q bitP bitW bitU (((ins >>> 16) &&& 0x04).setWidth 8) v offset) := by
  unfold strImmediate
  refine related_ite (fun _ => related_ite (fun _ => related_ok ⟨rfl, h⟩) fun _ =>
    related_ok ⟨rfl, h⟩) fun _ => ?_
  refine related_ite (fun _ => related_ok ⟨rfl, h⟩) fun _ => ?_
  exact related_write h (masked_field_lt ins 16) _ fun p' q' h' => related_ok ⟨rfl, h'⟩

theorem related_str (hk : kind ins = 2) (h : Track p₀ p q) :
    Related (Alongside p₀) (str b p ins) (str b q ins) := by
  have h25 : (ins >>> 25) &&& 1 = 0 := bit_eq_zero.mpr (getLsbD_of_kind_two hk).1
  refine related_ite (fun _ => related_alongside h (-1)) fun _ => ?_
  refine related_read h (masked_field_lt ins 12) fun a => ?_
  refine related_read h (masked_field_lt ins 16) fun v => ?_
  dsimp only
  rw [if_pos h25, if_pos h25]
  refine (related_strImmediate h _ _ _ v _).bind fun x y hxy => ?_
  obtain ⟨address, base, p'⟩ := x
  obtain ⟨address', base', q'⟩ := y
  obtain ⟨hbase, h'⟩ := hxy
  cases hbase
  refine related_same (congrArg (fun mem => memoryReadWord mem a base _) h'.mem.symm) fun z => ?_
  exact related_ite (fun _ => related_alongside h' (-1)) fun _ => related_alongside h' 0

theorem related_transfer (hk : kind ins = 2) (h : Track p₀ p q) :
    Related (Alongside p₀) (transfer b p ins) (transfer b q ins) := by
  unfold transfer
  cases bitL ins with
  | false =>
    cases bitB ins with
    | false => exact related_str hk h
    | true => exact related_strh h
  | true =>
    cases bitB ins with
    | false => exact related_ldr h
    | true => exact related_ldrb h

theorem related_storeBytes (h : Track p₀ p q) (ws : List (BitVec 32 × BitVec 8)) :
    Related (Alongside p₀) (storeBytes p ws) (storeBytes q ws) := by
  induction ws generalizing p q with
  | nil => exact related_alongside h 0
  | cons w ws ih =>
    refine (related_store (f := fun mem => memoryWriteByte mem w.1 w.2) h).bind fun x y hxy => ?_
    obtain ⟨x, p'⟩ := x
    obtain ⟨y, q'⟩ := y
    obtain ⟨rfl, h'⟩ := hxy
    exact related_ite (fun _ => related_alongside h' (-1)) fun _ => ih h'

/-- The values stored are read before the first store. -/
theorem byteStores_congr (h : Alike p q) (base : BitVec 32) (rs : List Nat) (j : Nat) :
    byteStores ins base q.reg rs j = byteStores ins base p.reg rs j := by
  unfold byteStores
  exact List.map_congr_left fun x _ => by rw [h.reg x.1]

theorem Track.setAll (h : Track p₀ p q) {rs : List Nat} (hlt : ∀ i ∈ rs, i < 16) (v : BitVec 32) :
    Track p₀ { p with reg := setAll p.reg rs v } { q with reg := setAll q.reg rs v } := by
  induction rs generalizing p q with
  | nil => exact h
  | cons i rs ih =>
    obtain ⟨hi, hlt⟩ := List.forall_mem_cons.mp hlt
    exact ih (h.set hi v) hlt

theorem related_multiple (hk : kind ins = 4) (h : Track p₀ p q) :
    Related (Alongside p₀) (dispatch b p ins) (dispatch b q ins) := by
  cases hB : bitB ins with
  | true =>
    rw [dispatch_userMode hk hB, dispatch_userMode hk hB]
    exact related_alongside h 0
  | false =>
    cases hL : bitL ins with
    | false =>
      rw [dispatch_stm hk hB hL, dispatch_stm hk hB hL, h.reg, byteStores_congr h.toAlike]
      exact (related_storeBytes h _).bind fun x y hxy => related_alongside hxy.2 0
    | true =>
      rw [dispatch_ldm hk hB hL, dispatch_ldm hk hB hL, h.reg]
      refine related_same (congrArg (fun mem => memoryReadByte mem _ _) h.mem.symm) fun x =>
        related_ok ⟨rfl, ?_⟩
      dsimp only
      split
      · exact h
      · exact h.setAll (fun i hi => Nat.lt_succ_of_lt (lt_of_mem_visited hi)) _

theorem related_branch (h : Track p₀ p q) :
    Related (Alongside p₀) (armBranch p ins) (armBranch q ins) := by
  have hcond : armCheckCond q ins = armCheckCond p ins := by
    unfold armCheckCond
    rw [h.status]
  have hjump {p q : ArmCore} (h : Track p₀ p q) (v : BitVec 32) :
      Related (Alongside p₀) (armWriteRegister p 15 v >>= fun p => .ok ((0 : Int), p))
        (armWriteRegister q 15 v >>= fun q => .ok ((0 : Int), q)) :=
    related_write (n := 15) h (by decide) v fun p' q' h' => related_alongside h' 0
  refine related_read (n := 15) h (by decide) fun pc => ?_
  dsimp only
  rw [hcond]
  refine related_ite (fun _ => related_ite (fun _ => ?_) fun _ => hjump h _) fun _ =>
    related_alongside h (-1)
  exact related_write (n := 14) h (by decide) _ fun p' q' h' => hjump h' _

end Transfers

/-! ## One step -/

section Step

variable {b : Build} {p₀ p q : ArmCore} {ins : BitVec 32}

theorem related_dispatch (h : Track p₀ p q) :
    Related (Alongside p₀) (dispatch b p ins) (dispatch b q ins) := by
  have hdata (x : BitVec 32 × BitVec 8) :
      Related (Alongside p₀)
        (dataProcessing p (((ins >>> 21) &&& 0x0F).setWidth 8) (((ins >>> 20) &&& 0x01).setWidth 8)
          (((ins >>> 16) &&& 0x0F).setWidth 8) (((ins >>> 12) &&& 0x0F).setWidth 8) x.1 x.2)
        (dataProcessing q (((ins >>> 21) &&& 0x0F).setWidth 8) (((ins >>> 20) &&& 0x01).setWidth 8)
          (((ins >>> 16) &&& 0x0F).setWidth 8) (((ins >>> 12) &&& 0x0F).setWidth 8) x.1 x.2) :=
    related_dataProcessing h _ x.2 x.1 (lt_of_nibble ins 21) (lt_of_nibble ins 16)
      (lt_of_nibble ins 12)
  rcases kind_cases ins with hk | hk | hk | hk | hk | hk
  · rw [dispatch_dataProcessing hk, dispatch_dataProcessing hk]
    exact related_same (shift_congr h.toAlike) hdata
  · rw [dispatch_immediate hk, dispatch_immediate hk]
    exact related_same (rotate_congr h.toAlike) hdata
  · rw [dispatch_loadStore hk, dispatch_loadStore hk, armLoadStore_eq hk, armLoadStore_eq hk]
    exact (related_transfer hk h).bind fun x y hxy => related_alongside hxy.2 0
  · exact related_multiple hk h
  · rw [dispatch_branch hk, dispatch_branch hk]
    exact related_branch h
  · rw [dispatch_refused hk, dispatch_refused hk]
    exact related_alongside h _

theorem armFetch_eq (b : Build) (p : ArmCore) (v : BitVec 32) :
    armFetch b p v = (memoryReadWord p.mem (p.reg.get 15) v b.endianess >>= fun x =>
      .ok (x.1, x.2, p.fetched)) := by
  have h15 : (15 : BitVec 8).toNat < 16 := by decide
  unfold armFetch
  dsimp only
  rw [registersRead_of_lt h15, ok_bind, registersWrite_of_lt h15, ok_bind]
  rfl

theorem Track.fetched (h : Track p₀ p q) : Track p₀ p.fetched q.fetched := by
  have hset := h.set (by decide : 15 < 16) (p.reg.get 15 + 4)
  have hcycles : q.cycleCount + 1 = p.cycleCount + 1 := by rw [h.cycles]
  unfold ArmCore.fetched
  rw [h.reg 15]
  exact ⟨⟨hcycles, hset.mem, hset.printed, hset.reg⟩, hset.kept⟩

theorem related_finish {r : Int} (hr : Harmless r) (h : Track p₀ p q) :
    Related (Alongside p₀) (finish b (r, p)) (finish b (r, q)) := by
  rcases hr with rfl | rfl | rfl
  · exact related_alongside h 0
  · exact related_alongside h 255
  · exact related_alongside h UNDEFINED_INSTRUCTION

theorem related_armStep (h : Track p₀ p q) :
    Related (Alongside p₀) (armStep b p) (armStep b q) := by
  have hexec :
      Related (Alongside p₀) (armExecuteInstruction b p) (armExecuteInstruction b q) := by
    unfold armExecuteInstruction
    rw [armFetch_eq, armFetch_eq, h.mem, h.reg 15]
    cases memoryReadWord p.mem (p.reg.get 15) (b.junk .fetchedInstruction) b.endianess with
    | error f => exact related_error f
    | ok x =>
      obtain ⟨code, ins⟩ := x
      have hcond : armCheckCond q.fetched ins = armCheckCond p.fetched ins := by
        unfold armCheckCond
        rw [h.fetched.status]
      refine related_ite (fun _ => related_alongside h.fetched code) fun _ => ?_
      rw [hcond]
      exact related_ite (fun _ => related_dispatch h.fetched) fun _ =>
        related_alongside h.fetched code
  refine (hexec.and_returns (armExecuteInstruction_harmless b p)).bind fun x y hxy => ?_
  obtain ⟨r, p'⟩ := x
  obtain ⟨r', q'⟩ := y
  obtain ⟨⟨rfl, h'⟩, hr⟩ := hxy
  exact related_finish hr h'

end Step

/-! ## One exception -/

section Exception

variable {b : Build} {p₀ p q : ArmCore} {code : BitVec 8}

theorem Track.putchar (h : Track p₀ p q) (c : BitVec 8) :
    Track p₀ { p with printed := p.printed ++ [c] } { q with printed := q.printed ++ [c] } :=
  ⟨⟨h.cycles, h.mem, by rw [h.printed], h.reg⟩, h.kept⟩

theorem related_armException (h : Track p₀ p q) :
    Related (Alongside p₀) (armException b p code) (armException b q code) := by
  have hreset : Related (Alongside p₀)
      (if (code.toNat : Int) = RESET then
        armWriteRegister (armWriteCpsr p (0x1d3 ||| Exception_bit_9)) 15 0 >>= fun p =>
          .ok ((code.toNat : Int), p)
        else .ok ((code.toNat : Int), p))
      (if (code.toNat : Int) = RESET then
        armWriteRegister (armWriteCpsr q (0x1d3 ||| Exception_bit_9)) 15 0 >>= fun q =>
          .ok ((code.toNat : Int), q)
        else .ok ((code.toNat : Int), q)) := by
    refine related_ite (fun _ => ?_) fun _ => related_alongside h _
    exact related_write (n := 15) (h.writeCpsr _) (by decide) 0
      fun p' q' h' => related_alongside h' _
  unfold armException
  refine related_ite (fun _ => ?_) fun _ => hreset
  refine related_read (n := 15) h (by decide) fun address => ?_
  refine related_same (congrArg (fun mem => memoryReadWord mem _ _ _) h.mem.symm) fun x => ?_
  refine related_ite (fun _ => related_alongside h _) fun _ => ?_
  refine related_ite (fun _ => ?_) fun _ => hreset
  exact related_read (n := 0) h (by decide) fun v => related_alongside (h.putchar _) 0

end Exception

/-! ## The debugger's writes -/

section Write

variable {h : Host} {p₀ : ArmCore} {g g' : Gdb}

theorem Related.lift {α β : Type} {R : α → β → Prop} {x : Except Fault α} {y : Except Fault β}
    (h : Related R x y) : Related R (Sim.lift x) (Sim.lift y) := by
  cases x with
  | error f =>
    cases y with
    | error f' => exact congrArg Halt.fault h
    | ok b => exact h
  | ok a =>
    cases y with
    | error f' => exact h
    | ok b => exact h

theorem related_writeRegister (ht : Track p₀ g.arm g'.arm) (reg : BitVec 32) (data : Pointer) :
    Related (fun g g' => Track p₀ g.arm g'.arm) (writeRegister h g reg data)
      (writeRegister h g' reg data) := by
  unfold writeRegister
  refine related_same rfl fun v => related_ite (fun hlt => ?_) fun _ => related_error _
  have hbyte : (reg.setWidth 8).toNat = reg.toNat := by
    rw [BitVec.toNat_setWidth]
    omega
  rw [registersWrite_of_lt (by rw [hbyte]; exact hlt),
    registersWrite_of_lt (by rw [hbyte]; exact hlt), hbyte]
  exact related_ok (ht.set hlt v)

/-- The words of a request `G`: an induction on the words. -/
theorem related_writeWords (is : List Nat) (data : Pointer) (ht : Track p₀ g.arm g'.arm) :
    Related (fun x y => x.2 = y.2 ∧ Track p₀ x.1.arm y.1.arm)
      (is.foldlM (fun x i => do
        let gdb ← writeRegister h x.1 (BitVec.ofNat 32 i) x.2
        .ok (gdb, x.2.add 8)) (g, data) : Except Halt (Gdb × Pointer))
      (is.foldlM (fun x i => do
        let gdb ← writeRegister h x.1 (BitVec.ofNat 32 i) x.2
        .ok (gdb, x.2.add 8)) (g', data)) := by
  induction is generalizing g g' data with
  | nil => exact related_ok ⟨rfl, ht⟩
  | cons i is ih =>
    rw [List.foldlM_cons, List.foldlM_cons]
    refine Related.bind (R := fun x y => x.2 = y.2 ∧ Track p₀ x.1.arm y.1.arm)
      ((related_writeRegister ht _ data).bind fun a b hab => related_ok ⟨rfl, hab⟩)
      fun x y hxy => ?_
    obtain ⟨a, data'⟩ := x
    obtain ⟨b, data''⟩ := y
    obtain ⟨rfl, hab⟩ := hxy
    exact ih data' hab

theorem related_ok_reply (ht : Track p₀ g.arm g'.arm) :
    Related (fun g g' => Track p₀ g.arm g'.arm) (lift (gdbSendData g (text "OK")))
      (lift (gdbSendData g' (text "OK"))) := by
  obtain ⟨p, hp⟩ := gdbSendData_ok g
  obtain ⟨p', hp'⟩ := gdbSendData_ok g'
  rw [hp, hp']
  exact related_ok ht

end Write

/-! ## All calls -/

section Calls

variable {h : Host} {p p' q : ArmCore} {t : List (ArmCore × Call)}

theorem related_call (hq : Alike p q) (c : Call) :
    Related (Alongside p) (c.run h p) (c.run h q) := by
  cases c with
  | step mem => exact Related.lift (related_armStep (hq.track.setMem mem))
  | exception code => exact Related.lift (related_armException hq.track)
  | writeSingle g data =>
    refine Related.bind (R := fun a b => Track p a.arm b.arm) ?_ fun a b hab =>
      related_ok ⟨rfl, hab⟩
    have ht : Track p ({ g with arm := p } : Gdb).arm ({ g with arm := q } : Gdb).arm := hq.track
    unfold writeSingleRegister
    refine related_same rfl fun s => related_same rfl fun found => ?_
    exact (related_writeRegister ht _ _).bind fun a b hab => related_ok_reply hab
  | writeGeneral g data =>
    refine Related.bind (R := fun a b => Track p a.arm b.arm) ?_ fun a b hab =>
      related_ok ⟨rfl, hab⟩
    have ht : Track p ({ g with arm := p } : Gdb).arm ({ g with arm := q } : Gdb).arm := hq.track
    unfold writeGeneralRegisters
    refine (related_writeWords _ _ ht).bind fun x y hxy => ?_
    obtain ⟨a, data'⟩ := x
    obtain ⟨b, data''⟩ := y
    obtain ⟨rfl, hab⟩ := hxy
    exact related_same rfl fun w => related_ok_reply (hab.writeCpsr w)

theorem call_not_strays (h : Host) (p : ArmCore) (c : Call) :
    ¬ Strays (fun r => c.run h { p with reg := r }) p.reg :=
  not_strays (x := c.run h p) fun f => related_call (alike_watched p f) c

theorem armCreate_not_strays (b : Build) (r : Registers) (mem : Memory) :
    ¬ Strays (fun r => lift (armCreate b r mem)) r := by
  intro hs
  have hstop : lift (armCreate b (r.watched (.shift 0)) mem) = .error (.fault (.shift 0)) :=
    hs (.shift 0)
  rw [armCreate_eq] at hstop
  cases hstop

theorem reserved_masked (w : BitVec 32) :
    w &&& ~~~CPSR_Reserved_Mask &&& CPSR_Reserved_Mask = 0 := by
  rw [BitVec.and_assoc, BitVec.not_and_self]
  exact BitVec.and_zero

theorem statusKept_of_performs {c : Call} (hc : Performs h p c p') : StatusKept p p' := by
  obtain ⟨r, hrun⟩ := hc
  obtain ⟨y, -, -, htrack⟩ := (related_call (h := h) (.refl p) c).returns hrun
  exact htrack.kept

theorem reserved_call {c : Call} (hp : p.reg.get 16 &&& CPSR_Reserved_Mask = 0)
    (hc : Performs h p c p') : p'.reg.get 16 &&& CPSR_Reserved_Mask = 0 := by
  obtain hsame | ⟨w, hw⟩ := statusKept_of_performs hc
  · exact (congrArg (· &&& CPSR_Reserved_Mask) hsame).trans hp
  · exact (congrArg (· &&& CPSR_Reserved_Mask) hw).trans (reserved_masked w)

theorem reserved_created (hp : Created h p) : p.reg.get 16 &&& CPSR_Reserved_Mask = 0 := by
  obtain ⟨mem, hmem⟩ := hp
  rw [created_status hmem]
  exact reserved_masked _

/-- **The register file**: neither the creation of a processor nor any call in a state reached
accesses a register past R15 by its number, the CPSR is written with `registers_write_cpsr` only,
and its reserved bits are clear. -/
theorem registerFile_invariant (hr : Reaches h t p) :
    p.reg.get 16 &&& CPSR_Reserved_Mask = 0 ∧
      (∀ mem, ¬ Strays (fun r => lift (armCreate h.build r mem)) registersCreate) ∧
      ∀ c : Call, ¬ Strays (fun r => c.run h { p with reg := r }) p.reg ∧
        ∀ p', Performs h p c p' → StatusKept p p' :=
  ⟨hr.invariant (fun _ => reserved_created) fun _ _ _ => reserved_call,
    fun mem => armCreate_not_strays h.build registersCreate mem,
    fun c => ⟨call_not_strays h p c, fun _ => statusKept_of_performs⟩⟩

end Calls

/-- After the step of `movs pc, #0`. -/
theorem registerFile_invariant_movs : movsDone.reg.get 16 &&& CPSR_Reserved_Mask = 0 ∧
    (∀ mem, ¬ Strays (fun r => lift (armCreate (Host.zeros).build r mem)) registersCreate) ∧
    ∀ c : Call, ¬ Strays (fun r => c.run .zeros { movsDone with reg := r }) movsDone.reg ∧
      ∀ p', Performs .zeros movsDone c p' → StatusKept movsDone p' :=
  registerFile_invariant reaches_movs

end Armator.Sim
