import Armator.Proof.Watching

/-!
# Decoding a request

`Complete` says of each request what its payload must hold to be decoded safely. The handlers
check next to nothing of it.
-/

namespace Armator.Sim

open Lib

/-! ## What a payload must hold -/

/-- The arguments `%x,%x`. -/
def scanPair (s : List (BitVec 8)) : List Int :=
  sscanf [.hex none, .literal (char ','), .hex none] s

/-- The arguments `%hhx,%x,%x`. -/
def scanTriple (s : List (BitVec 8)) : List Int :=
  sscanf [.hex none, .literal (char ','), .hex none, .literal (char ','), .hex none] s

/-- A number can be read with `%08x` at a position. -/
def HasField (s : List (BitVec 8)) (p : Nat) : Prop := sscanf [.hex (some 8)] (stringAt s p) ≠ []

/-- The number of bytes in binary data, of which an escaped one takes two characters. -/
def dataBytes : List (BitVec 8) → Nat
  | [] => 0
  | [c] => if c = 0x7d then 0 else 1
  | c :: d :: s => if c = 0x7d then dataBytes s + 1 else dataBytes (d :: s) + 1

/-- How many bytes are fetched for `size` of them to be stored from an address on: the store
behind the last byte of the memory faults. -/
def bytesFetched (mem : Memory) (address size : Nat) : Nat :=
  if 2 ^ 32 ≤ memoryGetSize mem then size else min size (memoryGetSize mem - address + 1)

/-- `m`: an address, and a size if the address is in the memory -/
def CompleteRead (h : Host) (g : Gdb) (s : List (BitVec 8)) : Prop :=
  let values := scanPair (stringAt s 0)
  1 ≤ values.length ∧
    ((h.assigned 32 values 0 .readMemoryAddress).toNat < memoryGetSize g.arm.mem →
      2 ≤ values.length)

/-- `p`: a register, its number taken modulo 256 -/
def CompleteRegister (h : Host) (s : List (BitVec 8)) : Prop :=
  ((BitVec.ofInt 32 (atoi h (stringAt s 0))).setWidth 8 : BitVec 8).toNat < 16

/-- `G`: the sixteen registers and, behind the fields that are skipped, the status -/
def CompleteRegisters (s : List (BitVec 8)) : Prop := ∀ i, i < 16 ∨ i = 41 → HasField s (8 * i)

/-- `P`: a register, and a value behind the first `=` -/
def CompleteAssignment (h : Host) (s : List (BitVec 8)) : Prop :=
  let values := sscanf [.hex none] (stringAt s 0)
  1 ≤ values.length ∧ (h.assigned 32 values 0 .writeRegisterReg).toNat < 16 ∧
    ∃ i, (stringAt s 0).findIdx? (· = char '=') = some i ∧ HasField s (i + 1)

/-- `X`: an address and a size, and the bytes that are fetched behind the first `:` -/
def CompleteWrite (h : Host) (g : Gdb) (s : List (BitVec 8)) : Prop :=
  let values := scanPair (stringAt s 0)
  let address : BitVec 32 := h.assigned 32 values 0 .writeMemoryAddress
  let size : BitVec 32 := h.assigned 32 values 1 .writeMemorySize
  2 ≤ values.length ∧ ∃ i, (stringAt s 0).findIdx? (· = char ':') = some i ∧
    (address.toNat < memoryGetSize g.arm.mem →
      bytesFetched g.arm.mem address.toNat size.toNat ≤ dataBytes (s.drop (i + 1)))

/-- `z`, `Z`: a type, and an address if the type is 0 -/
def CompleteBreakpoint (h : Host) (s : List (BitVec 8)) : Prop :=
  let values := scanTriple (stringAt s 0)
  1 ≤ values.length ∧
    ((h.assigned 8 values 0 .setBreakpointType : BitVec 8) = 0 → 2 ≤ values.length)

/-- The payload `c :: s` holds the arguments the handler goes on with. -/
def Complete (h : Host) (g : Gdb) (c : BitVec 8) (s : List (BitVec 8)) : Prop :=
  if c = char 'm' then CompleteRead h g s
  else if c = char 'p' then CompleteRegister h s
  else if c = char 'H' then s ≠ []
  else if c = char 'G' then CompleteRegisters s
  else if c = char 'X' then CompleteWrite h g s
  else if c = char 'P' then CompleteAssignment h s
  else if c = char 'z' then CompleteBreakpoint h s
  else if c = char 'Z' then CompleteBreakpoint h s
  else True

/-! ## Rules of the watch -/

section Rules

variable {α β : Type} {h : Host} {s : List (BitVec 8)} {g : Gdb} {p i w : Nat}
  {values : List Int} {x : GdbLocal} {c : BitVec 8}

theorem errs_ite_iff {y z : Except Misuse α} {b : Prop} [Decidable b] {Q : Misuse → Prop} :
    Errs (if b then y else z) Q ↔ (b → Errs y Q) ∧ (¬ b → Errs z Q) := by
  by_cases hb : b
  · rw [if_pos hb]
    exact ⟨fun hy => ⟨fun _ => hy, fun hn => absurd hb hn⟩, fun hall => hall.1 hb⟩
  · rw [if_neg hb]
    exact ⟨fun hz => ⟨fun hy => absurd hy hb, fun _ => hz⟩, fun hall => hall.2 hb⟩

theorem errs_ok_iff {a : α} {Q : Misuse → Prop} : Errs (.ok a) Q ↔ True :=
  iff_of_true (errs_ok a) trivial

theorem errs_bind_iff {y : Except Misuse α} {f : α → Except Misuse β} {b B : Prop}
    (hok : b → ∃ a, y = .ok a ∧ (Errs (f a) Misuse.OfTarget ↔ B))
    (hstop : ¬ b → ∃ e, y = .error e ∧ ¬ e.OfTarget) :
    Errs (y >>= f) Misuse.OfTarget ↔ b ∧ B := by
  by_cases hb : b
  · obtain ⟨a, ha, hf⟩ := hok hb
    rw [errs_bind_ok ha, hf]
    exact (and_iff_right hb).symm
  · obtain ⟨e, he, hno⟩ := hstop hb
    exact iff_of_false (not_errs_bind he hno) fun hall => hb hall.1

theorem errs_string {f : List (BitVec 8) → Except Misuse β} :
    Errs ((h.watching s).string p >>= f) Misuse.OfTarget ↔
      p ≤ s.length ∧ Errs (f (stringAt s p)) Misuse.OfTarget :=
  errs_bind_iff (fun hp => ⟨_, if_pos hp, Iff.rfl⟩) fun hp => ⟨_, if_neg hp, not_false⟩

theorem errs_deref {f : BitVec 8 → Except Misuse β} {B : Prop}
    (hf : ∀ c, Errs (f c) Misuse.OfTarget ↔ B) :
    Errs ((h.watching s).deref p >>= f) Misuse.OfTarget ↔ p < s.length ∧ B := by
  refine errs_bind_iff (fun hp => ⟨s[p], ?_, hf _⟩) fun hp => ⟨.beyond, ?_, not_false⟩
  · unfold Host.watching
    dsimp only
    rw [List.getElem?_eq_getElem hp]
  · unfold Host.watching
    dsimp only
    rw [List.getElem?_eq_none (Nat.not_lt.mp hp)]

theorem errs_assigned {f : BitVec w → Except Misuse β} :
    Errs ((h.watching s).assigned w values i x >>= f) Misuse.OfTarget ↔
      i < values.length ∧ Errs (f (h.assigned w values i x)) Misuse.OfTarget := by
  refine errs_bind_iff (fun hi => ⟨_, ?_, Iff.rfl⟩) fun hi => ⟨.unassigned x, ?_, not_false⟩
  · unfold Host.watching Host.assigned
    dsimp only
    rw [List.getElem?_eq_getElem hi]
  · unfold Host.watching
    dsimp only
    rw [List.getElem?_eq_none (Nat.not_lt.mp hi)]

theorem errs_index {f : Nat → Except Misuse β} :
    Errs ((h.watching s).index 0 c >>= f) Misuse.OfTarget ↔
      ∃ i, (stringAt s 0).findIdx? (· = c) = some i ∧ Errs (f i) Misuse.OfTarget := by
  cases hfind : (stringAt s 0).findIdx? (· = c) with
  | none =>
    have hrun : (h.watching s).index 0 c = .error .null := by
      unfold Host.watching
      dsimp only
      rw [if_pos s.length.zero_le, hfind]
    refine iff_of_false (not_errs_bind hrun not_false) ?_
    rintro ⟨i, hi, -⟩
    cases hi
  | some i =>
    have hrun : (h.watching s).index 0 c = .ok (0 + i) := by
      unfold Host.watching
      dsimp only
      rw [if_pos s.length.zero_le, hfind]
    rw [errs_bind_ok hrun, Nat.zero_add]
    refine ⟨fun hf => ⟨i, rfl, hf⟩, ?_⟩
    rintro ⟨j, hj, hf⟩
    cases hj
    exact hf

theorem assigned_of_lt (hi : i < values.length) (y : GdbLocal) :
    h.assigned w values i x = h.assigned w values i y := by
  unfold Host.assigned
  rw [List.getElem?_eq_getElem hi]

/-- Only an assertion of the target is misuse. -/
theorem errs_target {y : Except Halt α} (hy : Errs y (· ≠ .assertion)) :
    Errs ((h.watching s).target y) Misuse.OfTarget := by
  cases y with
  | ok a => exact errs_ok a
  | error e =>
    refine errs_error.mpr ?_
    cases e with
    | fault f => trivial
    | assertion => exact errs_error.mp hy rfl
    | running => trivial

theorem errs_lift {y : Except Fault α} : Errs (lift y) (· ≠ .assertion) := by
  cases y with
  | ok a => exact errs_ok a
  | error f => exact errs_error.mpr Halt.noConfusion

end Rules

/-! ## Handlers -/

section Handlers

variable {h : Host} {steps : Nat} {s : List (BitVec 8)} {g : Gdb}

theorem errs_contLoop (h : Host) (steps : Nat) (g : Gdb) :
    Errs (contLoop h steps g) (· ≠ .assertion) := by
  induction steps generalizing g with
  | zero => exact errs_error.mpr Halt.noConfusion
  | succ steps ih =>
    refine errs_bind.mpr ⟨errs_lift, fun g₁ _ => errs_bind.mpr ⟨errs_lift, fun PC _ => ?_⟩⟩
    refine errs_bind.mpr ⟨errs_lift, fun position _ => ?_⟩
    exact errs_ite (fun _ => errs_ok g₁) fun _ => ih g₁

theorem errs_cont : Errs ((h.watching s).cont h steps g) Misuse.OfTarget :=
  errs_bind.mpr ⟨errs_target (errs_contLoop h steps g), fun _ _ => errs_ok _⟩

theorem errs_step : Errs ((h.watching s).step h g) Misuse.OfTarget :=
  errs_bind.mpr ⟨errs_target errs_lift, fun _ _ => errs_ok _⟩

theorem errs_query : Errs ((h.watching s).query g 0) Misuse.OfTarget :=
  errs_string.mpr ⟨Nat.zero_le _, errs_ok _⟩

theorem errs_readMemory :
    Errs ((h.watching s).readMemory g 0) Misuse.OfTarget ↔ CompleteRead h g s := by
  unfold Reading.readMemory CompleteRead scanPair
  rw [errs_string, and_iff_right (Nat.zero_le _), errs_assigned, errs_ite_iff]
  refine and_congr_right fun _ => ?_
  rw [and_iff_left fun _ => errs_ok _]
  refine imp_congr_right fun _ => ?_
  rw [errs_assigned, and_iff_left (errs_ok _)]
  exact Iff.rfl

theorem errs_readSingleRegister :
    Errs ((h.watching s).readSingleRegister h g 0) Misuse.OfTarget ↔ CompleteRegister h s := by
  unfold Reading.readSingleRegister CompleteRegister
  rw [errs_string, and_iff_right (Nat.zero_le _), errs_ite_iff]
  constructor
  · rintro ⟨-, hbad⟩
    by_contra hreg
    exact errs_error.mp (hbad hreg)
  · intro hreg
    refine ⟨fun _ => ?_, fun hno => absurd hreg hno⟩
    exact errs_bind.mpr ⟨errs_target errs_lift, fun value _ => errs_ok _⟩

theorem errs_setThread :
    Errs ((h.watching s).setThread h g 0) Misuse.OfTarget ↔ s ≠ [] := by
  unfold Reading.setThread
  rw [errs_deref (B := 0 < s.length) fun type => ?_, and_self, ← List.length_pos_iff]
  rw [errs_string, and_iff_left (errs_ite (fun _ => errs_ok _) fun _ => errs_ok _)]
  exact Iff.rfl

theorem hasField_le {p : Nat} (hf : HasField s p) : p ≤ s.length := by
  by_contra hp
  refine hf ?_
  unfold stringAt
  rw [List.drop_eq_nil_of_le (Nat.le_of_not_le hp)]
  rfl

theorem errs_readUint32 {β : Type} {p : Nat} {f : BitVec 32 → Except Misuse β} {B : Prop}
    (hf : ∀ value, Errs (f value) Misuse.OfTarget ↔ B) :
    Errs ((h.watching s).readUint32 p >>= f) Misuse.OfTarget ↔ HasField s p ∧ B := by
  unfold Reading.readUint32
  rw [bind_assoc, errs_string, errs_assigned, hf, List.length_pos_iff, ← and_assoc]
  exact and_congr_left fun _ => ⟨And.right, fun hfield => ⟨hasField_le hfield, hfield⟩⟩

theorem errs_writeRegister {β : Type} {reg : BitVec 32} {p : Nat} {f : Gdb → Except Misuse β}
    {B : Prop} (hf : ∀ g₁ : Gdb, g₁.arm.mem = g.arm.mem → (Errs (f g₁) Misuse.OfTarget ↔ B)) :
    Errs ((h.watching s).writeRegister g reg p >>= f) Misuse.OfTarget ↔
      HasField s p ∧ reg.toNat < 16 ∧ B := by
  unfold Reading.writeRegister
  rw [bind_assoc]
  refine errs_readUint32 fun value => errs_bind_iff (fun hreg => ?_) fun hreg => ?_
  · have hbyte : (reg.setWidth 8).toNat = reg.toNat := by
      rw [BitVec.toNat_setWidth]
      omega
    rw [if_pos hreg, registersWrite_of_lt (by rw [hbyte]; exact hreg)]
    exact ⟨_, rfl, hf _ rfl⟩
  · exact ⟨_, if_neg hreg, not_false⟩

/-- An induction on the registers that are left. -/
theorem errs_writeWords {β : Type} {is : List Nat} {p : Nat} {f : Gdb × Nat → Except Misuse β}
    {B : Prop} (his : ∀ i ∈ is, i < 16)
    (hf : ∀ g₁, Errs (f (g₁, p + 8 * is.length)) Misuse.OfTarget ↔ B) :
    Errs ((h.watching s).writeWords is g p >>= f) Misuse.OfTarget ↔
      (∀ k < is.length, HasField s (p + 8 * k)) ∧ B := by
  induction is generalizing g p with
  | nil =>
    refine (hf g).trans (iff_and_self.mpr fun _ k hk => ?_)
    exact absurd hk (Nat.not_lt_zero k)
  | cons i is ih =>
    obtain ⟨hi, his⟩ := List.forall_mem_cons.mp his
    have hreg : (BitVec.ofNat 32 i).toNat < 16 := by
      rw [BitVec.toNat_ofNat]
      omega
    have hrest (g₁ : Gdb) :
        Errs ((h.watching s).writeWords is g₁ (p + 8) >>= f) Misuse.OfTarget ↔
          (∀ k < is.length, HasField s (p + 8 + 8 * k)) ∧ B := by
      refine ih his fun g₂ => ?_
      rw [← hf g₂, List.length_cons, Nat.mul_succ, Nat.add_assoc, Nat.add_comm 8]
    have hfirst : (h.watching s).writeWords (i :: is) g p >>= f =
        (h.watching s).writeRegister g (BitVec.ofNat 32 i) p >>= fun g₁ =>
          (h.watching s).writeWords is g₁ (p + 8) >>= f := by
      unfold Reading.writeWords
      rw [List.foldlM_cons, bind_assoc, bind_assoc]
      rfl
    rw [hfirst, errs_writeRegister fun g₁ _ => hrest g₁, and_iff_right hreg, ← and_assoc]
    refine and_congr_left fun _ => ?_
    rw [List.length_cons, Nat.forall_lt_succ_left]
    refine and_congr_right fun _ => forall₂_congr fun k _ => ?_
    rw [Nat.mul_succ, Nat.add_assoc, Nat.add_comm 8]

theorem errs_writeGeneralRegisters :
    Errs ((h.watching s).writeGeneralRegisters g 0) Misuse.OfTarget ↔ CompleteRegisters s := by
  have hstatus (p : Nat) (f : BitVec 32 → Response) :
      Errs ((h.watching s).readUint32 p >>= fun value => .ok (f value)) Misuse.OfTarget ↔
        HasField s p :=
    (errs_readUint32 fun _ => errs_ok_iff).trans (and_iff_left trivial)
  unfold Reading.writeGeneralRegisters CompleteRegisters
  refine (errs_writeWords (fun i => List.mem_range.mp) fun _ => hstatus _ _).trans ?_
  constructor
  · rintro ⟨hwords, hlast⟩ i (hi | rfl)
    · rw [← Nat.zero_add (8 * i)]
      exact hwords i hi
    · exact hlast
  · intro hall
    refine ⟨fun k hk => ?_, hall 41 (.inr rfl)⟩
    rw [Nat.zero_add]
    exact hall k (.inl hk)

theorem errs_writeSingleRegister :
    Errs ((h.watching s).writeSingleRegister g 0) Misuse.OfTarget ↔ CompleteAssignment h s := by
  unfold Reading.writeSingleRegister CompleteAssignment
  rw [errs_string, and_iff_right (Nat.zero_le _), errs_assigned, errs_index]
  refine and_congr_right fun _ => ?_
  have hwrite (reg : BitVec 32) (i : Nat) :
      Errs ((h.watching s).writeRegister g reg (i + 1) >>= fun g₁ =>
          .ok (Response.reply g₁ (text "OK"))) Misuse.OfTarget ↔
        HasField s (i + 1) ∧ reg.toNat < 16 ∧ True :=
    errs_writeRegister fun g₁ _ => errs_ok_iff
  constructor
  · rintro ⟨i, hi, hrun⟩
    obtain ⟨hfield, hreg, -⟩ := (hwrite _ i).mp hrun
    exact ⟨hreg, i, hi, hfield⟩
  · rintro ⟨hreg, i, hi, hfield⟩
    exact ⟨i, hi, (hwrite _ i).mpr ⟨hfield, hreg, trivial⟩⟩

theorem watching_deref (h : Host) (s : List (BitVec 8)) (p : Nat) :
    (h.watching s).deref p = match s.drop p with
      | c :: _ => .ok c
      | [] => .error .beyond := by
  unfold Host.watching
  dsimp only
  rw [← List.head?_drop]
  cases s.drop p <;> rfl

theorem contentByte_cases (h : Host) (s : List (BitVec 8)) (p : Nat) :
    (dataBytes (s.drop p) = 0 ∧ (h.watching s).contentByte p = .error .beyond) ∨
    ∃ v q, (h.watching s).contentByte p = .ok (v, q) ∧
      dataBytes (s.drop p) = dataBytes (s.drop q) + 1 := by
  have hnext := watching_deref h s (p + 1)
  have hdrop (n : Nat) : s.drop (p + n) = (s.drop p).drop n := (List.drop_drop ..).symm
  unfold Reading.contentByte
  rw [watching_deref]
  rw [hdrop 1] at hnext
  cases hs : s.drop p with
  | nil => exact .inl ⟨rfl, rfl⟩
  | cons c t =>
    rw [hs] at hnext
    rw [ok_bind]
    by_cases hc : c = 0x7d
    · rw [if_pos hc]
      cases t with
      | nil =>
        refine .inl ⟨if_pos hc, ?_⟩
        change (h.watching s).deref (p + 1) >>= _ = _
        rw [hnext]
        rfl
      | cons d t =>
        refine .inr ⟨d ^^^ 0x20, p + 2, ?_, ?_⟩
        · change (h.watching s).deref (p + 1) >>= _ = _
          rw [hnext]
          rfl
        · rw [hdrop 2, hs, dataBytes, if_pos hc]
          rfl
    · rw [if_neg hc]
      refine .inr ⟨c, p + 1, rfl, ?_⟩
      rw [hdrop 1, hs]
      cases t with
      | nil => exact if_neg hc
      | cons d t => exact if_neg hc

/-- The loop fetches a byte for each it stores, and one more if the store faults: an
induction on how many are left. -/
theorem errs_writeMemoryLoop {n p : Nat} {a : BitVec 32} (ha : a.toNat ≤ g.arm.mem.taille) :
    Errs ((h.watching s).writeMemoryLoop n p a g) Misuse.OfTarget ↔
      bytesFetched g.arm.mem a.toNat n ≤ dataBytes (s.drop p) := by
  induction n generalizing p a g with
  | zero =>
    refine iff_of_true (errs_ok _) ?_
    unfold bytesFetched
    rw [Nat.zero_min, ite_self]
    exact Nat.zero_le _
  | succ n ih =>
    have hpos : 1 ≤ bytesFetched g.arm.mem a.toNat (n + 1) := by
      unfold bytesFetched
      split <;> omega
    unfold Reading.writeMemoryLoop
    rcases contentByte_cases h s p with ⟨hnone, hrun⟩ | ⟨v, q, hrun, hsome⟩
    · exact iff_of_false (not_errs_bind hrun not_false) fun hle => by omega
    · rw [errs_bind_ok hrun, hsome]
      dsimp only
      have hnot : ¬ memoryGetSize g.arm.mem < a.toNat := Nat.not_lt.mpr ha
      rcases Nat.lt_or_ge a.toNat g.arm.mem.taille with hlt | hge
      · have hwrite : memoryWriteByte g.arm.mem a v = .ok (0, g.arm.mem.set a.toNat v) := by
          rw [memoryWriteByte, if_neg hnot, Memory.store_of_lt hlt]
          rfl
        have hadd : (a + 1).toNat = (a.toNat + 1) % 2 ^ 32 := BitVec.toNat_add ..
        have hfetch : bytesFetched g.arm.mem a.toNat (n + 1) =
            bytesFetched (g.arm.mem.set a.toNat v) (a + 1).toNat n + 1 := by
          have hsize : (g.arm.mem.set a.toNat v).taille = g.arm.mem.taille := rfl
          unfold bytesFetched memoryGetSize
          rw [hsize, hadd]
          split <;> omega
        have hwritten : (h.watching s).target (lift (memoryWriteByte g.arm.mem a v)) =
            .ok (0, g.arm.mem.set a.toNat v) := by
          rw [hwrite]
          rfl
        rw [errs_bind_ok hwritten, hfetch, Nat.add_le_add_iff_right]
        dsimp only
        rw [if_pos rfl]
        refine ih (g := { g with arm := { g.arm with mem := g.arm.mem.set a.toNat v } }) ?_
        rw [hadd]
        exact (Nat.mod_le _ _).trans hlt
      · obtain ⟨f, hf⟩ := g.arm.mem.store_of_le (v := v) hge
        have hwritten : (h.watching s).target (lift (memoryWriteByte g.arm.mem a v)) =
            .error (.halt (.fault f)) := by
          rw [memoryWriteByte, if_neg hnot, hf]
          rfl
        refine iff_of_true ?_ ?_
        · rw [hwritten]
          exact errs_error.mpr trivial
        · have hlt := a.isLt
          unfold bytesFetched memoryGetSize
          rw [if_neg (by omega)]
          omega

theorem errs_writeMemoryBinary :
    Errs ((h.watching s).writeMemoryBinary g 0) Misuse.OfTarget ↔ CompleteWrite h g s := by
  unfold Reading.writeMemoryBinary CompleteWrite scanPair
  rw [errs_string, and_iff_right (Nat.zero_le _), errs_assigned, errs_assigned, errs_index]
  have hreply (x : Gdb × Bool) : Errs (if x.2 = true then
      (.ok (.reply x.1 (text "OK")) : Except Misuse Response) else .ok (.reply x.1 (text "E02")))
        Misuse.OfTarget :=
    errs_ite (fun _ => errs_ok _) fun _ => errs_ok _
  have hloop (i : Nat) (address : BitVec 32) (size : Nat) :
      Errs (if address.toNat < memoryGetSize g.arm.mem then
          (h.watching s).writeMemoryLoop size (i + 1) address g >>= fun x =>
            if x.2 = true then .ok (.reply x.1 (text "OK")) else .ok (.reply x.1 (text "E02"))
        else if false = true then .ok (.reply g (text "OK"))
          else .ok (.reply g (text "E02")) : Except Misuse Response) Misuse.OfTarget ↔
        (address.toNat < memoryGetSize g.arm.mem →
          bytesFetched g.arm.mem address.toNat size ≤ dataBytes (s.drop (i + 1))) := by
    rw [errs_ite_iff, and_iff_left fun _ => hreply (g, false)]
    refine imp_congr_right fun hlt => ?_
    rw [errs_bind, and_iff_left fun x _ => hreply x]
    exact errs_writeMemoryLoop (Nat.le_of_lt hlt)
  constructor
  · rintro ⟨h1, h2, i, hi, hrun⟩
    exact ⟨h2, i, hi, (hloop i _ _).mp hrun⟩
  · rintro ⟨h2, i, hi, hfetch⟩
    exact ⟨Nat.lt_of_succ_lt h2, h2, i, hi, (hloop i _ _).mpr hfetch⟩

theorem errs_breakpoint {typeLocal addressLocal : GdbLocal}
    {call : Breakpoints → BitVec 32 → Except Fault (Int × Breakpoints)}
    {failed : List (BitVec 8)} :
    Errs ((h.watching s).breakpoint typeLocal addressLocal call failed g 0) Misuse.OfTarget ↔
      CompleteBreakpoint h s := by
  unfold Reading.breakpoint CompleteBreakpoint scanTriple
  rw [errs_string, and_iff_right (Nat.zero_le _), errs_assigned, errs_ite_iff]
  refine and_congr_right fun h1 => ?_
  rw [and_iff_right fun _ => errs_ok _, assigned_of_lt h1 .setBreakpointType, Classical.not_not]
  refine imp_congr_right fun _ => ?_
  rw [errs_assigned, and_iff_left]
  · exact Iff.rfl
  · exact errs_bind.mpr ⟨errs_target errs_lift, fun y _ =>
      errs_ite (fun _ => errs_ok _) fun _ => errs_ok _⟩

theorem errs_serve {c : BitVec 8} (hm : c ≠ char 'm') (hp : c ≠ char 'p') (hH : c ≠ char 'H')
    (hG : c ≠ char 'G') (hX : c ≠ char 'X') (hP : c ≠ char 'P') (hz : c ≠ char 'z')
    (hZ : c ≠ char 'Z') : DecodesSafely h steps g c s := by
  unfold DecodesSafely Reading.serve
  refine errs_ite (fun _ => errs_cont) fun _ => ?_
  refine errs_ite (fun _ => errs_cont) fun _ => ?_
  refine errs_ite (fun _ => errs_ok _) fun _ => ?_
  refine errs_ite (fun _ => errs_query) fun _ => ?_
  refine errs_ite (fun _ => errs_ok _) fun _ => ?_
  rw [if_neg hm, if_neg hp]
  refine errs_ite (fun _ => errs_ok _) fun _ => ?_
  rw [if_neg hH]
  refine errs_ite (fun _ => errs_step) fun _ => ?_
  refine errs_ite (fun _ => errs_step) fun _ => ?_
  rw [if_neg hG, if_neg hX, if_neg hP, if_neg hz, if_neg hZ]
  exact errs_ok _

/-- **A request is decoded safely** if and only if its arguments are complete. -/
theorem decodesSafely_iff (h : Host) (steps : Nat) (g : Gdb) (c : BitVec 8)
    (s : List (BitVec 8)) : DecodesSafely h steps g c s ↔ Complete h g c s := by
  unfold Complete
  by_cases hm : c = char 'm'
  · subst hm
    exact errs_readMemory
  rw [if_neg hm]
  by_cases hp : c = char 'p'
  · subst hp
    exact errs_readSingleRegister
  rw [if_neg hp]
  by_cases hH : c = char 'H'
  · subst hH
    exact errs_setThread
  rw [if_neg hH]
  by_cases hG : c = char 'G'
  · subst hG
    exact errs_writeGeneralRegisters
  rw [if_neg hG]
  by_cases hX : c = char 'X'
  · subst hX
    exact errs_writeMemoryBinary
  rw [if_neg hX]
  by_cases hP : c = char 'P'
  · subst hP
    exact errs_writeSingleRegister
  rw [if_neg hP]
  by_cases hz : c = char 'z'
  · subst hz
    exact errs_breakpoint
  rw [if_neg hz]
  by_cases hZ : c = char 'Z'
  · subst hZ
    exact errs_breakpoint
  rw [if_neg hZ]
  exact iff_of_true (errs_serve hm hp hH hG hX hP hz hZ) trivial

/-- No `=`, no address, no such register, and fewer data than declared. -/
theorem not_decodesSafely_incomplete :
    ¬ DecodesSafely .zeros 0 (session (.ofBytes [1, 2, 3])) (char 'P') (text "0") ∧
    ¬ DecodesSafely .zeros 0 (session (.ofBytes [1, 2, 3])) (char 'm') [] ∧
    ¬ DecodesSafely .zeros 0 (session (.ofBytes [1, 2, 3])) (char 'p') (text "16") ∧
    ¬ DecodesSafely .zeros 0 (session (.ofBytes [1, 2, 3])) (char 'X') (text "0,2:a") :=
  ⟨fun hd => hd .null rfl, fun hd => hd (.unassigned .readMemoryAddress) rfl,
    fun hd => hd (.halt .assertion) rfl, fun hd => hd .beyond rfl⟩

end Handlers

end Armator.Sim
