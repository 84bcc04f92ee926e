import Armator.Proof.Transfer

/-!
# Multiple transfers

`stm` stores one byte for each listed register below R15, next to one another from the
base register of the code on (`stmLoop_eq`: after `j` registers the running address is
`cursor ins base j`), and stops at the first address it rejects; `ldm` reads one byte
and puts it in every listed register below R15. Neither writes the base back. The
theorems say in which states this stores or loads the block of words the encoding asks
for, and when a push followed by a pop restores its registers.
-/

namespace Armator.Sim

open Lib Spec

/-- A multiple transfer without the S bit: it lists a register, its base is not the
PC, and is not listed if written back. -/
@[mk_iff]
structure BlockTransfer (ins : BitVec 32) : Prop where
  kind : kind ins = 4
  user : bitB ins = false
  listed : regList ins ≠ []
  rn : rn ins ≠ 15
  base : bitW ins = true → Spec.rn ins ∉ regList ins

instance (ins : BitVec 32) : Decidable (BlockTransfer ins) :=
  decidable_of_iff' _ (blockTransfer_iff ins)

/-! ## Blocks of words -/

section Words

variable {b : Build} {mem : Memory} {a : BitVec 32}

theorem word_eq_iff {v : BitVec 32} :
    word b mem a = v ↔ mem.bytes a 4 = split 4 b.bigEndianSimulator v.toNat :=
  assemble_eq_iff (k := 4) rfl _ Memory.length_bytes v

theorem words_iff (vs : List (BitVec 32)) (k : Nat) :
    (∀ x ∈ vs.zipIdx k, word b mem (a + BitVec.ofNat 32 (4 * x.2)) = x.1) ↔
      mem.bytes (a + BitVec.ofNat 32 (4 * k)) (4 * vs.length) =
        vs.flatMap fun v => split 4 b.bigEndianSimulator v.toNat := by
  induction vs generalizing k with
  | nil => simp [Memory.bytes, span]
  | cons v vs ih =>
    have hnext : a + BitVec.ofNat 32 (4 * k) + BitVec.ofNat 32 4 =
        a + BitVec.ofNat 32 (4 * (k + 1)) := by
      rw [BitVec.add_assoc, ← BitVec.ofNat_add]; rfl
    have hlen : 4 * (v :: vs).length = 4 + 4 * vs.length := by rw [List.length_cons]; omega
    rw [List.zipIdx_cons, List.forall_mem_cons, ih (k + 1), hlen, Memory.bytes_add,
      List.flatMap_cons, hnext, word_eq_iff]
    refine ⟨?_, ?_⟩
    · rintro ⟨h1, h2⟩
      rw [h1, h2]
    · intro h
      exact List.append_inj h (by simp)

end Words

/-- The stores of a block of the words `vs` from `a` on, byte by byte. -/
def blockStores (b : Build) (a : BitVec 32) (vs : List (BitVec 32)) : List (Nat × BitVec 8) :=
  (span a (4 * vs.length)).zip (vs.flatMap fun v => split 4 b.bigEndianSimulator v.toNat)

section Stores

variable {b : Build} {a : BitVec 32} {vs : List (BitVec 32)}

theorem length_flatMap_split (b : Build) (vs : List (BitVec 32)) :
    (vs.flatMap fun v => split 4 b.bigEndianSimulator v.toNat).length = 4 * vs.length := by
  induction vs with
  | nil => rfl
  | cons v vs ih =>
    rw [List.flatMap_cons, List.length_append, ih, length_split, List.length_cons]
    omega

theorem keys_blockStores : keys (blockStores b a vs) = span a (4 * vs.length) := by
  rw [keys, blockStores, List.map_fst_zip]
  rw [length_flatMap_split]
  simp [span]

/-- The words stand in the block and the rest is unchanged: an overlay. -/
theorem block_iff (b : Build) (mem mem' : Memory) (a : BitVec 32) (hl : 4 * vs.length ≤ 2 ^ 32) :
    ((∀ x ∈ vs.zipIdx, word b mem' (a + BitVec.ofNat 32 (4 * x.2)) = x.1) ∧
        ∀ x, x ∉ span a (4 * vs.length) → mem'.get x = mem.get x) ↔
      ∀ x, mem'.get x = overlay mem.get (blockStores b a vs) x := by
  have hnodup : (keys (blockStores b a vs)).Nodup := by
    rw [keys_blockStores]
    exact nodup_span hl
  rw [eq_overlay_iff hnodup, keys_blockStores, words_iff]
  rw [show a + BitVec.ofNat 32 (4 * 0) = a by simp,
    Memory.bytes_eq_iff (length_flatMap_split b vs), blockStores]

end Stores

/-! ## The loop of `stm` -/

/-- The listed registers the loops visit: R15 is not among them. -/
def visited (ins : BitVec 32) : List Nat := listedBelow 15 ins

/-- The running address after `j` stores. -/
def cursor (ins base : BitVec 32) (j : Nat) : BitVec 32 := indexed ins base (BitVec.ofNat 32 j)

/-- The address of store number `j`. -/
def byteSlot (ins base : BitVec 32) (j : Nat) : BitVec 32 :=
  cursor ins base (if bitP ins then j + 1 else j)

/-- The stores of the low bytes of the registers `rs`, the first being number `j`. -/
def byteStores (ins base : BitVec 32) (reg : Registers) (rs : List Nat) (j : Nat) :
    List (BitVec 32 × BitVec 8) :=
  (rs.zipIdx j).map fun x => (byteSlot ins base x.2, (reg.get x.1).setWidth 8)

/-- Byte stores one after the other, up to the first that fails. -/
def storeBytes (p : ArmCore) : List (BitVec 32 × BitVec 8) → Except Fault (Int × ArmCore)
  | [] => .ok (0, p)
  | w :: ws => armWriteByte p w.1 w.2 >>= fun x =>
    if x.1 ≠ 0 then .ok (-1, x.2) else storeBytes x.2 ws

section Loop

variable {p : ArmCore} {ins base : BitVec 32}

theorem cursor_succ (ins base : BitVec 32) (j : Nat) :
    cursor ins base (j + 1) =
      if bitU ins then cursor ins base j + 1 else cursor ins base j - 1 := by
  have hsucc : BitVec.ofNat 32 (j + 1) = BitVec.ofNat 32 j + 1 := BitVec.ofNat_add j 1
  unfold cursor indexed
  rw [hsucc]
  split
  · rw [BitVec.add_assoc]
  · rw [BitVec.sub_eq_add_neg, BitVec.neg_add, BitVec.sub_eq_add_neg, BitVec.sub_eq_add_neg,
      BitVec.sub_eq_add_neg base, BitVec.add_assoc]

theorem toNat_ofNat_of_lt {i : Nat} (h : i < 15) : (BitVec.ofNat 8 i).toNat = i := by
  rw [BitVec.toNat_ofNat, Nat.mod_eq_of_lt (by omega)]

theorem armWriteByte_reg {a : BitVec 32} {v : BitVec 8} {x : Int × ArmCore}
    (h : armWriteByte p a v = .ok x) : x.2.reg = p.reg := by
  unfold armWriteByte at h
  cases hm : memoryWriteByte p.mem a v with
  | error f => rw [hm] at h; cases h
  | ok y => rw [hm] at h; cases h; rfl

/-- The loop stores the low bytes of the listed registers it still has to visit, from
the running address on: an induction on these, `j` stores having been made. -/
theorem stmLoop_eq {is : List Nat} (his : ∀ i ∈ is, i < 15) (j : Nat) (p : ArmCore) :
    stmLoop ins is (cursor ins base j) p =
      storeBytes p (byteStores ins base p.reg (is.filter fun i => ins.getLsbD i) j) := by
  induction is generalizing j p with
  | nil => rfl
  | cons i is ih =>
    have hi : i < 15 := his i List.mem_cons_self
    have his' : ∀ k ∈ is, k < 15 := fun k hk => his k (List.mem_cons_of_mem _ hk)
    rw [stmLoop]
    cases hbit : ins.getLsbD i with
    | false =>
      have hk : ¬ (ins >>> i) &&& 1 = 1 := by rw [bit_eq_one, hbit]; decide
      rw [List.filter_cons_of_neg (by simp [hbit]), ← ih his' j p]
      simp only [hk, if_false]
    | true =>
      rw [List.filter_cons_of_pos (by simp [hbit])]
      have hread : armReadRegister p (BitVec.ofNat 8 i) = .ok (p.reg.get i) := by
        have hn := toNat_ofNat_of_lt hi
        rw [armReadRegister_of_lt (by omega), hn, ArmCore.read_of_ne (by omega)]
      have hstep : storeBytes p (byteStores ins base p.reg
            (i :: is.filter fun i => ins.getLsbD i) j) =
          (armWriteByte p (byteSlot ins base j) ((p.reg.get i).setWidth 8) >>= fun x =>
            if x.1 ≠ 0 then .ok (-1, x.2) else stmLoop ins is (cursor ins base (j + 1)) x.2) := by
        rw [byteStores, List.zipIdx_cons, List.map_cons, storeBytes]
        cases hw : armWriteByte p (byteSlot ins base j) ((p.reg.get i).setWidth 8) with
        | error f => rfl
        | ok x =>
          rw [ok_bind, ok_bind, ih his' (j + 1) x.2, armWriteByte_reg hw]
          rfl
      rw [hstep]
      have hP : ins.getLsbD 24 = bitP ins := rfl
      have hU : ins.getLsbD 23 = bitU ins := rfl
      simp only [bit_eq, hbit, hread, hP, hU, ok_bind]
      unfold byteSlot
      cases bitP ins <;> cases hU' : bitU ins <;> simp [cursor_succ, hU']

end Loop

/-- The byte stores made before the first rejected one, in a memory of `n` bytes. -/
def performed (n : Nat) (ws : List (BitVec 32 × BitVec 8)) : List (Nat × BitVec 8) :=
  (ws.map fun w => (w.1.toNat, w.2)).takeWhile fun w => w.1 ≤ n

section Bytes

variable {p : ArmCore} {a : BitVec 32} {v : BitVec 8}

theorem armWriteByte_of_gt (h : p.mem.taille < a.toNat) : armWriteByte p a v = .ok (-1, p) := by
  have hw : memoryWriteByte p.mem a v = .ok (-1, p.mem) := if_pos h
  rw [armWriteByte, hw]
  rfl

theorem armWriteByte_of_lt (h : a.toNat < p.mem.taille) :
    armWriteByte p a v = .ok (0, { p with mem := p.mem.set a.toNat v }) := by
  have hn : ¬ p.mem.taille < a.toNat := by omega
  have hw : memoryWriteByte p.mem a v = .ok (0, p.mem.set a.toNat v) := by
    rw [memoryWriteByte, if_neg (show ¬ memoryGetSize p.mem < a.toNat from hn),
      Memory.store_of_lt h]
    rfl
  rw [armWriteByte, hw]
  rfl

theorem armWriteByte_fault (h : a.toNat = p.mem.taille) : ∃ f, armWriteByte p a v = .error f := by
  obtain ⟨f, hf⟩ := Memory.store_of_le (v := v) (Nat.le_of_eq h.symm)
  have hn : ¬ p.mem.taille < a.toNat := by omega
  refine ⟨f, ?_⟩
  rw [armWriteByte, memoryWriteByte, if_neg (show ¬ memoryGetSize p.mem < a.toNat from hn), hf]
  rfl

theorem performed_of_gt {n : Nat} {w : BitVec 32 × BitVec 8} (ws : List (BitVec 32 × BitVec 8))
    (h : n < w.1.toNat) : performed n (w :: ws) = [] := by
  rw [performed, List.map_cons, List.takeWhile_cons_of_neg (by simpa using h)]

theorem performed_of_le {n : Nat} {w : BitVec 32 × BitVec 8} (ws : List (BitVec 32 × BitVec 8))
    (h : ¬ n < w.1.toNat) : performed n (w :: ws) = (w.1.toNat, w.2) :: performed n ws := by
  rw [performed, List.map_cons, List.takeWhile_cons_of_pos (by simpa using h), performed]

theorem storeBytes_of_ne {ws : List (BitVec 32 × BitVec 8)}
    (h : ∀ w ∈ performed p.mem.taille ws, w.1 ≠ p.mem.taille) :
    ∃ r m, storeBytes p ws = .ok (r, { p with mem := m }) ∧ m.taille = p.mem.taille ∧
      m.get = overlay p.mem.get (performed p.mem.taille ws) := by
  induction ws generalizing p with
  | nil => exact ⟨0, p.mem, rfl, rfl, rfl⟩
  | cons w ws ih =>
    by_cases hgt : p.mem.taille < w.1.toNat
    · refine ⟨-1, p.mem, ?_, rfl, by rw [performed_of_gt ws hgt]; rfl⟩
      rw [storeBytes, armWriteByte_of_gt hgt]
      rfl
    · have hcons := performed_of_le ws hgt
      rw [hcons, List.forall_mem_cons] at h
      have hlt : w.1.toNat < p.mem.taille := by
        have := h.1
        dsimp only at this
        omega
      obtain ⟨r, m, hrun, ht, hm⟩ := ih (p := { p with mem := p.mem.set w.1.toNat w.2 }) h.2
      refine ⟨r, m, ?_, ht, ?_⟩
      · rw [storeBytes, armWriteByte_of_lt hlt, ok_bind]
        exact hrun
      · rw [hm, hcons, overlay_cons]
        congr 1
        funext x
        rw [Memory.get_set hlt, Function.update_apply]

theorem storeBytes_fault {ws : List (BitVec 32 × BitVec 8)}
    (h : ¬ ∀ w ∈ performed p.mem.taille ws, w.1 ≠ p.mem.taille) :
    ∃ f, storeBytes p ws = .error f := by
  induction ws generalizing p with
  | nil => exact absurd (fun w hw => absurd hw List.not_mem_nil) h
  | cons w ws ih =>
    by_cases hgt : p.mem.taille < w.1.toNat
    · rw [performed_of_gt ws hgt] at h
      exact absurd (fun w hw => absurd hw List.not_mem_nil) h
    · rw [performed_of_le ws hgt, List.forall_mem_cons, not_and_or] at h
      rw [storeBytes]
      by_cases heq : w.1.toNat = p.mem.taille
      · obtain ⟨f, hf⟩ := armWriteByte_fault (p := p) (v := w.2) heq
        exact ⟨f, by rw [hf, error_bind]⟩
      · have hlt : w.1.toNat < p.mem.taille := by omega
        obtain ⟨f, hf⟩ := ih (p := { p with mem := p.mem.set w.1.toNat w.2 })
          (h.resolve_left (not_not.mpr heq))
        refine ⟨f, ?_⟩
        rw [armWriteByte_of_lt hlt, ok_bind]
        exact hf

end Bytes

/-! ## Block stores -/

/-- The step stores the block of words as the encoding of `ins` asks; R15 is stored as
instructions read it. -/
def StoresBlock (b : Build) (p : ArmCore) (ins : BitVec 32) : Prop :=
  ∃ r p', armStep b p = .ok (r, p') ∧ p'.mem.taille = p.mem.taille ∧
    (∀ x ∈ (regList ins).zipIdx,
      word b p'.mem (slot ins (p.reg.get (rn ins)) x.2) = p.fetched.read x.1) ∧
    (∀ j, j ∉ span (blockStart ins (p.reg.get (rn ins))) (4 * (regList ins).length) →
      p'.mem.get j = p.mem.get j) ∧
    p'.reg.get (rn ins) =
      (if bitW ins then blockBase ins (p.reg.get (rn ins)) else p.reg.get (rn ins)) ∧
    ∀ i, i ≠ 15 → i ≠ rn ins → p'.reg.get i = p.reg.get i

/-- The byte stores the code makes: none for a refused instruction. -/
def stmStores (p : ArmCore) (ins : BitVec 32) : List (Nat × BitVec 8) :=
  if Refused p ins then []
  else performed p.mem.taille
    (byteStores ins (p.reg.get (baseReg ins)) p.reg (visited ins) 0)

/-- When a step at a block store does what the encoding asks for: no write-back is
wanted, no byte goes to the index one past the end, and the bytes stored agree with the
block of words over the old memory. -/
def StmExact (b : Build) (p : ArmCore) (ins : BitVec 32) : Prop :=
  bitW ins = false ∧ (∀ w ∈ stmStores p ins, w.1 ≠ p.mem.taille) ∧
    Agrees p.mem.get (stmStores p ins)
      (blockStores b (blockStart ins (p.reg.get (rn ins))) ((regList ins).map p.fetched.read))

instance (b : Build) (p : ArmCore) (ins : BitVec 32) : Decidable (StmExact b p ins) :=
  inferInstanceAs (Decidable (_ ∧ _ ∧ _))

section Block

variable {b : Build} {p : ArmCore} {ins : BitVec 32}

theorem length_regList (ins : BitVec 32) : (regList ins).length ≤ 16 := length_listedBelow 16 ins

theorem length_visited (ins : BitVec 32) : (visited ins).length ≤ 15 := length_listedBelow 15 ins

theorem mem_regList {r : Nat} : r ∈ regList ins ↔ r < 16 ∧ ins.getLsbD r = true :=
  mem_listedBelow

theorem lt_of_mem_visited {r : Nat} (h : r ∈ visited ins) : r < 15 := (mem_listedBelow.mp h).1

theorem blockBase_ne (hl : regList ins ≠ []) (base : BitVec 32) : blockBase ins base ≠ base := by
  have hpos := List.length_pos_iff.mpr hl
  have hle := length_regList ins
  have hsize : blockSize ins ≠ 0 := fun h => by
    have h := congrArg BitVec.toNat h
    rw [blockSize, BitVec.toNat_ofNat, Nat.mod_eq_of_lt (by omega),
      show (0 : BitVec 32).toNat = 0 from rfl] at h
    omega
  exact fun h => hsize (indexed_eq_self.mp h)

theorem keepsBlockBase_iff (hl : regList ins ≠ []) {base : BitVec 32} :
    base = (if bitW ins then blockBase ins base else base) ↔ bitW ins = false := by
  cases bitW ins with
  | false => simp
  | true =>
    rw [if_pos rfl]
    exact iff_of_false (blockBase_ne hl base).symm (by decide)

theorem dispatch_stm (hk : kind ins = 4) (hB : bitB ins = false) (hL : bitL ins = false) :
    dispatch b p ins =
      (storeBytes p (byteStores ins (p.reg.get (baseReg ins)) p.reg (visited ins) 0) >>= fun x =>
        .ok (0, x.2)) := by
  have h0 : ins ≠ 0 := ne_zero_of_kind (by rw [hk]; decide)
  have hls : (ins >>> 20) &&& 1 = ARM_INS_STORE := bit_eq_zero.mpr hL
  have h22 : (ins >>> 22) &&& 1 = 0 := bit_eq_zero.mpr hB
  have hcur (base : BitVec 32) : cursor ins base 0 = base := indexed_eq_self.mpr rfl
  have hstm : stm p ins =
      storeBytes p (byteStores ins (p.reg.get (baseReg ins)) p.reg (visited ins) 0) := by
    rw [stm, if_neg h0]
    simp only [h22, if_true, armReadRegister_masked, ok_bind]
    rw [visited, listedBelow, ← stmLoop_eq (fun i hi => List.mem_range.mp hi) 0 p, hcur]
    rfl
  rw [dispatch_loadStoreMultiple hk, armLoadStoreMultiple, if_neg h0]
  simp only [hls, if_true, hstm]

theorem byteStores_fetched (base : BitVec 32) (j : Nat) :
    byteStores ins base p.fetched.reg (visited ins) j =
      byteStores ins base p.reg (visited ins) j := by
  refine List.map_congr_left fun x hx => ?_
  have hlt := lt_of_mem_visited (List.fst_mem_of_mem_zipIdx hx)
  rw [fetched_get (by omega)]

theorem byteSlot_inj {base : BitVec 32} {j k : Nat} (hj : j < 16) (hk : k < 16)
    (h : byteSlot ins base j = byteSlot ins base k) : j = k := by
  have hoff {x y : Nat} (hx : x < 32) (hy : y < 32) (e : cursor ins base x = cursor ins base y) :
      x = y := by
    have e := congrArg BitVec.toNat (indexed_inj.mp e)
    rwa [BitVec.toNat_ofNat, BitVec.toNat_ofNat, Nat.mod_eq_of_lt (by omega),
      Nat.mod_eq_of_lt (by omega)] at e
  unfold byteSlot at h
  cases hP : bitP ins with
  | true =>
    rw [hP, if_pos rfl, if_pos rfl] at h
    exact Nat.succ.inj (hoff (by omega) (by omega) h)
  | false =>
    rw [hP, if_neg Bool.false_ne_true, if_neg Bool.false_ne_true] at h
    exact hoff (by omega) (by omega) h

theorem nodup_stmStores (p : ArmCore) (ins : BitVec 32) : (keys (stmStores p ins)).Nodup := by
  unfold stmStores
  split
  · exact List.nodup_nil
  · have hsub := (List.takeWhile_prefix (fun w : Nat × BitVec 8 => decide (w.1 ≤ p.mem.taille))
      (l := (byteStores ins (p.reg.get (baseReg ins)) p.reg (visited ins) 0).map
        fun w => (w.1.toNat, w.2))).sublist.map Prod.fst
    refine List.Nodup.sublist hsub ?_
    have hkeys : ((byteStores ins (p.reg.get (baseReg ins)) p.reg (visited ins) 0).map
          fun w => (w.1.toNat, w.2)).map Prod.fst =
        (List.range' 0 (visited ins).length).map
          fun j => (byteSlot ins (p.reg.get (baseReg ins)) j).toNat := by
      rw [← List.zipIdx_map_snd 0 (visited ins), byteStores]
      simp only [List.map_map]
      rfl
    rw [hkeys]
    refine List.Nodup.map_on (fun j hj k hk h => ?_) List.nodup_range'
    have hlen := length_visited ins
    rw [List.mem_range'_1] at hj hk
    exact byteSlot_inj (by omega) (by omega) (BitVec.eq_of_toNat_eq h)

theorem armStep_stm_accepted (hf : Fetches b p ins) (hp : Passes p ins) (ht : BlockTransfer ins)
    (hL : bitL ins = false) (hr : ¬ Refused p ins) :
    armStep b p = (storeBytes p.fetched
      (byteStores ins (p.reg.get (baseReg ins)) p.reg (visited ins) 0) >>= fun x =>
        .ok (0, x.2)) := by
  have hb : p.fetched.reg.get (baseReg ins) = p.reg.get (baseReg ins) := fetched_get_masked p _
  rw [armStep_of_accepted hf hp hr, dispatch_stm ht.kind ht.user hL, hb, byteStores_fetched,
    bind_assoc]
  rfl

theorem armStep_stm (hf : Fetches b p ins) (hp : Passes p ins) (ht : BlockTransfer ins)
    (hL : bitL ins = false) (h : ∀ w ∈ stmStores p ins, w.1 ≠ p.mem.taille) :
    ∃ m, armStep b p = .ok (0, { p.fetched with mem := m }) ∧ m.taille = p.mem.taille ∧
      m.get = overlay p.mem.get (stmStores p ins) := by
  unfold stmStores at h ⊢
  by_cases hr : Refused p ins
  · exact ⟨p.mem, armStep_of_refused hf hp hr, rfl, by rw [if_pos hr]; rfl⟩
  · rw [if_neg hr] at h ⊢
    obtain ⟨r, m, hrun, hmt, hm⟩ := storeBytes_of_ne (p := p.fetched) h
    refine ⟨m, ?_, hmt, hm⟩
    rw [armStep_stm_accepted hf hp ht hL hr, hrun, ok_bind]

theorem armStep_stm_fault (hf : Fetches b p ins) (hp : Passes p ins) (ht : BlockTransfer ins)
    (hL : bitL ins = false) (h : ¬ ∀ w ∈ stmStores p ins, w.1 ≠ p.mem.taille) :
    ∃ f, armStep b p = .error f := by
  unfold stmStores at h
  by_cases hr : Refused p ins
  · rw [if_pos hr] at h
    exact absurd (fun w hw => absurd hw List.not_mem_nil) h
  · rw [if_neg hr] at h
    obtain ⟨f, hrun⟩ := storeBytes_fault (p := p.fetched) h
    exact ⟨f, by rw [armStep_stm_accepted hf hp ht hL hr, hrun, error_bind]⟩

/-- **Block stores**: which steps store the block of words as the encoding asks. -/
theorem storesBlock_iff (hf : Fetches b p ins) (hp : Passes p ins) (ht : BlockTransfer ins)
    (hL : bitL ins = false) : StoresBlock b p ins ↔ StmExact b p ins := by
  have hlen : 4 * ((regList ins).map p.fetched.read).length ≤ 2 ^ 32 := by
    have := length_regList ins
    rw [List.length_map]
    omega
  have hblock (m : Memory) := block_iff b p.mem m (blockStart ins (p.reg.get (rn ins))) hlen
  simp only [List.length_map, List.zipIdx_map, List.forall_mem_map, Prod.map] at hblock
  rw [StmExact, ← overlay_eq_iff (nodup_stmStores p ins), StoresBlock]
  by_cases hne : ∀ w ∈ stmStores p ins, w.1 ≠ p.mem.taille
  · obtain ⟨m, hstep, hmt, hm⟩ := armStep_stm hf hp ht hL hne
    rw [exists_ok_iff hstep, fetched_get ht.rn, keepsBlockBase_iff ht.listed]
    refine ⟨?_, ?_⟩
    · rintro ⟨-, hwords, hrest, hW, -⟩
      refine ⟨hW, hne, fun x => ?_⟩
      rw [← hm]
      exact (hblock m).mp ⟨hwords, hrest⟩ x
    · rintro ⟨hW, -, hover⟩
      obtain ⟨hwords, hrest⟩ := (hblock m).mpr fun x => by rw [hm, hover x]
      exact ⟨hmt, hwords, hrest, hW, fun i h15 _ => fetched_get h15⟩
  · exact iff_of_false (not_exists_ok (armStep_stm_fault hf hp ht hL hne)) fun h => hne h.2.1

end Block

/-- `stmia r0, {r1}` where only the low byte of the word is new. -/
theorem storesBlock_iff_low_byte :
    StoresBlock (.trapping false) ⟨0, .ofFn fun i => if i = 0 then 4 else
      if i = 1 then 0x11223344 else 0,
      .ofBytes [0x02, 0x00, 0x80, 0xE8, 0, 0x33, 0x22, 0x11], []⟩ 0xE8800002 :=
  (storesBlock_iff (by decide) (by decide) (by decide) (by decide)).mpr (by decide)

/-- `stmia r0, {r1}` stores one byte of the word, on a little-endian simulator. -/
theorem not_storesBlock :
    ¬ StoresBlock (.trapping false) ⟨0, .ofFn fun i => if i = 0 then 4 else
      if i = 1 then 0x11223344 else 0, .ofBytes [0x02, 0x00, 0x80, 0xE8, 0, 0, 0, 0], []⟩
      0xE8800002 := by
  rintro ⟨r, p', hrun, -, hwords, -⟩
  cases hrun
  exact absurd (hwords (1, 0) (by decide)) (by decide)

/-! ## Block loads -/

/-- The step loads the block of words as the encoding of `ins` asks; a word for R15 must
be aligned. -/
def LoadsBlock (b : Build) (p : ArmCore) (ins : BitVec 32) : Prop :=
  ∃ r p', armStep b p = .ok (r, p') ∧
    (∀ x ∈ (regList ins).zipIdx,
      (x.1 = 15 → (word b p.mem (slot ins (p.reg.get (rn ins)) x.2)).toNat % 4 = 0) →
        p'.reg.get x.1 = word b p.mem (slot ins (p.reg.get (rn ins)) x.2)) ∧
    (rn ins ∉ regList ins → p'.reg.get (rn ins) =
      if bitW ins then blockBase ins (p.reg.get (rn ins)) else p.reg.get (rn ins)) ∧
    (∀ i, i ≠ 15 → i ≠ rn ins → i ∉ regList ins → p'.reg.get i = p.reg.get i) ∧
    p'.mem = p.mem ∧ armReadCpsr p' = armReadCpsr p

/-- The code reads a byte at its base register: the instruction is not refused, and
the read is let through. -/
def ByteLoaded (p : ArmCore) (ins : BitVec 32) : Prop :=
  ¬ Refused p ins ∧ ¬ p.mem.Rejects (p.reg.get (baseReg ins)) 1

instance (p : ArmCore) (ins : BitVec 32) : Decidable (ByteLoaded p ins) :=
  inferInstanceAs (Decidable (_ ∧ _))

/-- What the code leaves in a listed register below R15: that byte, if it was read. -/
def held (p : ArmCore) (ins : BitVec 32) (r : Nat) : BitVec 32 :=
  if ByteLoaded p ins then (p.mem.get (p.reg.get (baseReg ins)).toNat).setWidth 32
  else p.reg.get r

/-- When a step at a block load does what the encoding asks for: no write-back is
wanted, the byte read is in the memory, every word of the block is what the code
leaves in its register, and an aligned one for R15 is the next address. -/
def LdmExact (b : Build) (p : ArmCore) (ins : BitVec 32) : Prop :=
  bitW ins = false ∧ (ByteLoaded p ins → p.mem.Holds (p.reg.get (baseReg ins)) 1) ∧
    ∀ x ∈ (regList ins).zipIdx,
      if x.1 = 15 then
        (word b p.mem (slot ins (p.reg.get (rn ins)) x.2)).toNat % 4 = 0 →
          word b p.mem (slot ins (p.reg.get (rn ins)) x.2) = p.reg.get 15 + 4
      else word b p.mem (slot ins (p.reg.get (rn ins)) x.2) = held p ins x.1

/-- `v` in every register of `rs`. -/
def setAll (reg : Registers) (rs : List Nat) (v : BitVec 32) : Registers :=
  rs.foldl (fun reg i => reg.set i v) reg

section LoadLoop

variable {b : Build} {p : ArmCore} {ins : BitVec 32}

theorem setAll_get {reg : Registers} {rs : List Nat} {v : BitVec 32} (h : ∀ i ∈ rs, i < 15)
    (k : Nat) : (setAll reg rs v).get k = if k ∈ rs then v else reg.get k := by
  induction rs generalizing reg with
  | nil => rfl
  | cons i rs ih =>
    have hi := h i List.mem_cons_self
    have hrec : (setAll (reg.set i v) rs v).get k = if k ∈ rs then v else (reg.set i v).get k :=
      ih fun j hj => h j (List.mem_cons_of_mem _ hj)
    change (setAll (reg.set i v) rs v).get k = _
    rw [hrec, Registers.get_set (by unfold NB_REGISTER; omega)]
    by_cases hk : k ∈ rs
    · rw [if_pos hk, if_pos (List.mem_cons_of_mem _ hk)]
    · by_cases he : k = i
      · rw [if_neg hk, if_pos he, if_pos (by rw [he]; exact List.mem_cons_self)]
      · rw [if_neg hk, if_neg he, if_neg (by simp [he, hk])]

/-- The loop of `ldm` writes its one value whatever the mode. -/
theorem ldmLoop_eq {is : List Nat} (his : ∀ i ∈ is, i < 15) (v : BitVec 8) (addr : BitVec 32)
    (p : ArmCore) :
    ldmLoop ins v is addr p = .ok (0, { p with
      reg := setAll p.reg (is.filter fun i => ins.getLsbD i) (v.setWidth 32) }) := by
  induction is generalizing addr p with
  | nil => rfl
  | cons i is ih =>
    have hi : i < 15 := his i List.mem_cons_self
    have his' : ∀ k ∈ is, k < 15 := fun k hk => his k (List.mem_cons_of_mem _ hk)
    rw [ldmLoop]
    cases hbit : ins.getLsbD i with
    | false =>
      have hk : ¬ (ins >>> i) &&& 1 = 1 := by rw [bit_eq_one, hbit]; decide
      rw [List.filter_cons_of_neg (by simp [hbit])]
      simp only [hk, if_false]
      exact ih his' addr p
    | true =>
      have hk : (ins >>> i) &&& 1 = 1 := by rw [bit_eq_one, hbit]
      have hwrite : armWriteRegister p (BitVec.ofNat 8 i) (v.setWidth 32) =
          .ok { p with reg := p.reg.set i (v.setWidth 32) } := by
        have hn := toNat_ofNat_of_lt hi
        rw [armWriteRegister_of_lt (by omega), hn]
      rw [List.filter_cons_of_pos (by simp [hbit])]
      simp only [hk, if_true, hwrite, ok_bind, ih his']
      split
      · rfl
      · split
        · rfl
        · split <;> rfl

theorem mem_visited {r : Nat} (h : r ≠ 15) : r ∈ visited ins ↔ r ∈ regList ins := by
  rw [mem_regList, visited, mem_listedBelow]
  exact and_congr_left fun _ => by omega

theorem dispatch_ldm (hk : kind ins = 4) (hB : bitB ins = false) (hL : bitL ins = true) :
    dispatch b p ins =
      (memoryReadByte p.mem (p.reg.get (baseReg ins)) ((b.junk .ldmValue).setWidth 8) >>= fun y =>
        .ok (0, if y.1 ≠ 0 then p
          else { p with reg := setAll p.reg (visited ins) (y.2.setWidth 32) })) := by
  have h0 : ins ≠ 0 := ne_zero_of_kind (by rw [hk]; decide)
  have hls : ¬ (ins >>> 20) &&& 1 = ARM_INS_STORE := fun h => by
    rw [bitL, bit_eq_zero.mp h] at hL
    cases hL
  have h22 : (ins >>> 22) &&& 1 = 0 := bit_eq_zero.mpr hB
  have hloop (v : BitVec 8) (addr : BitVec 32) : ldmLoop ins v (List.range 15) addr p =
      .ok (0, { p with reg := setAll p.reg (visited ins) (v.setWidth 32) }) :=
    ldmLoop_eq (fun i hi => List.mem_range.mp hi) v addr p
  rw [dispatch_loadStoreMultiple hk, armLoadStoreMultiple, if_neg h0]
  simp only [hls, if_false, ldm, if_neg h0, h22, if_true, armReadRegister_masked, ok_bind,
    armReadByte, hloop]
  change ((memoryReadByte p.mem (p.reg.get (baseReg ins)) _ >>= _) >>= _) = _
  cases memoryReadByte p.mem (p.reg.get (baseReg ins)) ((b.junk .ldmValue).setWidth 8) with
  | error f => rfl
  | ok y =>
    simp only [ok_bind]
    split <;> rfl

theorem armStep_ldm (hf : Fetches b p ins) (hp : Passes p ins) (ht : BlockTransfer ins)
    (hL : bitL ins = true)
    (h : ByteLoaded p ins → p.mem.Holds (p.reg.get (baseReg ins)) 1) :
    ∃ p', armStep b p = .ok (0, p') ∧ p'.mem = p.mem ∧ p'.reg.get 15 = p.reg.get 15 + 4 ∧
      ∀ i, i ≠ 15 → p'.reg.get i = if i ∈ regList ins then held p ins i else p.reg.get i := by
  have hb : p.fetched.reg.get (baseReg ins) = p.reg.get (baseReg ins) := fetched_get_masked p _
  by_cases hl : ByteLoaded p ins
  · have hstep : armStep b p = .ok (0, { p.fetched with
        reg := setAll p.fetched.reg (visited ins)
          ((p.mem.get (p.reg.get (baseReg ins)).toNat).setWidth 32) }) := by
      rw [armStep_of_accepted hf hp hl.1, dispatch_ldm ht.kind ht.user hL, hb, fetched_mem,
        memoryReadByte_of_holds (h hl)]
      rfl
    refine ⟨_, hstep, rfl, ?_, fun i h15 => ?_⟩
    · dsimp only
      rw [setAll_get fun i hi => lt_of_mem_visited hi,
        if_neg fun hm => absurd (lt_of_mem_visited hm) (by omega), fetched_get_pc]
    · dsimp only
      rw [setAll_get fun i hi => lt_of_mem_visited hi, fetched_get h15, held, if_pos hl]
      exact if_congr (mem_visited h15) rfl rfl
  · have hstep : armStep b p = .ok (0, p.fetched) := by
      by_cases hr : Refused p ins
      · exact armStep_of_refused hf hp hr
      · have hrej : p.mem.Rejects (p.reg.get (baseReg ins)) 1 := by
          by_contra hn
          exact hl ⟨hr, hn⟩
        rw [armStep_of_accepted hf hp hr, dispatch_ldm ht.kind ht.user hL, hb, fetched_mem,
          memoryReadByte_of_rejects hrej]
        rfl
    refine ⟨_, hstep, rfl, fetched_get_pc p, fun i h15 => ?_⟩
    rw [fetched_get h15, held, if_neg hl, ite_self]

theorem armStep_ldm_fault (hf : Fetches b p ins) (hp : Passes p ins) (ht : BlockTransfer ins)
    (hL : bitL ins = true)
    (h : ¬ (ByteLoaded p ins → p.mem.Holds (p.reg.get (baseReg ins)) 1)) :
    ∃ f, armStep b p = .error f := by
  obtain ⟨hl, hh⟩ := Classical.not_imp.mp h
  have hb : p.fetched.reg.get (baseReg ins) = p.reg.get (baseReg ins) := fetched_get_masked p _
  obtain ⟨f, hread⟩ := memoryReadByte_fault ((b.junk .ldmValue).setWidth 8) hl.2 hh
  refine ⟨f, ?_⟩
  rw [armStep_of_accepted hf hp hl.1, dispatch_ldm ht.kind ht.user hL, hb, fetched_mem, hread]
  rfl

theorem loadsBlock_iff_exact (hf : Fetches b p ins) (hp : Passes p ins) (ht : BlockTransfer ins)
    (hL : bitL ins = true) : LoadsBlock b p ins ↔ LdmExact b p ins := by
  have hlt {x : Nat × Nat} (hx : x ∈ (regList ins).zipIdx) : x.1 ∈ regList ins :=
    List.fst_mem_of_mem_zipIdx hx
  rw [LdmExact, LoadsBlock]
  by_cases hh : ByteLoaded p ins → p.mem.Holds (p.reg.get (baseReg ins)) 1
  · obtain ⟨q, hstep, hmem, hpc, hget⟩ := armStep_ldm hf hp ht hL hh
    have hbase (hn : rn ins ∉ regList ins) : q.reg.get (rn ins) = p.reg.get (rn ins) := by
      rw [hget _ ht.rn, if_neg hn]
    have hcpsr : armReadCpsr q = armReadCpsr p := by
      have h16 : q.reg.get 16 = p.reg.get 16 := by
        rw [hget 16 (by omega), if_neg fun hm => absurd (mem_regList.mp hm).1 (by omega)]
      rw [armReadCpsr, registersReadCpsr, h16]
      rfl
    rw [exists_ok_iff hstep]
    refine ⟨?_, ?_⟩
    · rintro ⟨hwords, hback, -⟩
      refine ⟨?_, hh, fun x hx => ?_⟩
      · by_contra hW
        rw [Bool.not_eq_false] at hW
        have hn := ht.base hW
        have h := (hbase hn).symm.trans (hback hn)
        rw [keepsBlockBase_iff ht.listed, hW] at h
        cases h
      · split
        · rename_i h15
          intro h4
          rw [← hwords x hx fun _ => h4, h15, hpc]
        · rename_i h15
          rw [← hwords x hx fun e => absurd e h15, hget _ h15, if_pos (hlt hx)]
    · rintro ⟨hW, -, hwords⟩
      refine ⟨fun x hx h4 => ?_, fun hn => ?_, fun i h15 _ hi => ?_, hmem, hcpsr⟩
      · have hw := hwords x hx
        by_cases h15 : x.1 = 15
        · rw [if_pos h15] at hw
          rw [hw (h4 h15), h15, hpc]
        · rw [if_neg h15] at hw
          rw [hget _ h15, if_pos (hlt hx), hw]
      · rw [hbase hn, hW, if_neg Bool.false_ne_true]
      · rw [hget _ h15, if_neg hi]
  · exact iff_of_false (not_exists_ok (armStep_ldm_fault hf hp ht hL hh)) fun h => hh h.2.1

end LoadLoop

/-! ## Push and pop -/

/-- `push` stores a list below its base, `pop` loads the same list back, and both write
the same base back. -/
structure PushPop (push pop : BitVec 32) : Prop where
  pushBlock : BlockTransfer push
  store : bitL push = false
  before : bitP push = true
  down : bitU push = false
  pushed : bitW push = true
  popBlock : BlockTransfer pop
  load : bitL pop = true
  after : bitP pop = false
  up : bitU pop = true
  popped : bitW pop = true
  base : rn pop = rn push
  list : regList pop = regList push
  noPc : 15 ∉ regList push

/-- The two steps from `p` restore the listed registers and the base. -/
def PairRestores (b : Build) (p : ArmCore) (push : BitVec 32) : Prop :=
  ∃ r₁ p₁ r₂ p₂, armStep b p = .ok (r₁, p₁) ∧ armStep b p₁ = .ok (r₂, p₂) ∧
    (∀ r ∈ regList push, p₂.reg.get r = p.reg.get r) ∧
    p₂.reg.get (rn push) = p.reg.get (rn push)

/-- When they do: no byte is pushed to the index one past the end, and if a byte is
popped, it is in the memory and is already the value of every listed register. -/
def PairExact (p : ArmCore) (push pop : BitVec 32) : Prop :=
  (∀ w ∈ stmStores p push, w.1 ≠ p.mem.taille) ∧
    (ByteLoaded p pop → p.mem.Holds (p.reg.get (baseReg pop)) 1 ∧
      ∀ r ∈ regList pop, held p pop r = p.reg.get r)

section Pair

variable {b : Build} {p : ArmCore} {push pop : BitVec 32}

theorem base_notMem_stmStores (hpp : PushPop push pop) :
    (p.reg.get (baseReg push)).toNat ∉ keys (stmStores p push) := by
  intro hmem
  obtain ⟨w, hw, hbase⟩ := List.mem_map.mp hmem
  unfold stmStores at hw
  split at hw
  · cases hw
  · obtain ⟨v, hv, rfl⟩ := List.mem_map.mp ((List.takeWhile_prefix _).subset hw)
    obtain ⟨x, hx, rfl⟩ := List.mem_map.mp hv
    have hj : x.2 < 15 := by
      have h := List.snd_lt_of_mem_zipIdx hx
      have := length_visited push
      omega
    have he : byteSlot push (p.reg.get (baseReg push)) x.2 = p.reg.get (baseReg push) :=
      BitVec.eq_of_toNat_eq hbase
    rw [byteSlot, hpp.before, if_pos rfl] at he
    have h0 := congrArg BitVec.toNat (indexed_eq_self.mp he)
    rw [BitVec.toNat_ofNat, Nat.mod_eq_of_lt (by omega),
      show (0 : BitVec 32).toNat = 0 from rfl] at h0
    omega

/-- A push leaves what its pop reads: the flags, the registers and the byte at the base. -/
theorem held_after_push (hpp : PushPop push pop) {m : Memory} (ht : m.taille = p.mem.taille)
    (hm : m.get = overlay p.mem.get (stmStores p push)) :
    (ByteLoaded { p.fetched with mem := m } pop ↔ ByteLoaded p pop) ∧
      (m.Holds (p.fetched.reg.get (baseReg pop)) 1 ↔ p.mem.Holds (p.reg.get (baseReg pop)) 1) ∧
      ∀ r, r ≠ 15 → held { p.fetched with mem := m } pop r = held p pop r := by
  have hb : p.fetched.reg.get (baseReg pop) = p.reg.get (baseReg pop) := fetched_get_masked p _
  have hpush : baseReg pop = baseReg push := by rw [baseReg, baseReg, hpp.base]
  have hbyte :
      m.get (p.reg.get (baseReg pop)).toNat = p.mem.get (p.reg.get (baseReg pop)).toNat := by
    rw [hm, hpush, overlay_of_notMem (base_notMem_stmStores hpp)]
  have hload : ByteLoaded { p.fetched with mem := m } pop ↔ ByteLoaded p pop := by
    unfold ByteLoaded Memory.Rejects
    rw [← refused_fetched (p := p)]
    dsimp only
    rw [ht, hb]
    rfl
  refine ⟨hload, ?_, fun r h15 => ?_⟩
  · unfold Memory.Holds
    rw [ht, hb]
  · unfold held
    dsimp only
    rw [hb, hbyte, fetched_get h15]
    exact if_congr hload rfl rfl

theorem pairRestores_iff (hf : Fetches b p push) (hp : Passes p push) (hp' : Passes p pop)
    (hpp : PushPop push pop)
    (hnext : ∀ r p₁, armStep b p = .ok (r, p₁) → Fetches b p₁ pop) :
    PairRestores b p push ↔ PairExact p push pop := by
  have hlist {r : Nat} : r ∈ regList push ↔ r ∈ regList pop := by rw [hpp.list]
  have hne {r : Nat} (hr : r ∈ regList pop) : r ≠ 15 := fun h => by
    rw [h, ← hlist] at hr
    exact hpp.noPc hr
  rw [PairExact]
  by_cases hst : ∀ w ∈ stmStores p push, w.1 ≠ p.mem.taille
  · obtain ⟨m, hstep, hmt, hm⟩ := armStep_stm hf hp hpp.pushBlock hpp.store hst
    obtain ⟨hload, hholds, hheld⟩ := held_after_push hpp hmt hm
    have hf' := hnext _ _ hstep
    have hp₁ : Passes { p.fetched with mem := m } pop := passes_fetched.mpr hp'
    by_cases hh : ByteLoaded p pop → p.mem.Holds (p.reg.get (baseReg pop)) 1
    · obtain ⟨q, hstep', -, -, hget⟩ :=
        armStep_ldm hf' hp₁ hpp.popBlock hpp.load fun h => hholds.mpr (hh (hload.mp h))
      have hq {r : Nat} (hr : r ∈ regList pop) : q.reg.get r = held p pop r := by
        rw [hget r (hne hr), if_pos hr, hheld r (hne hr)]
      refine ⟨?_, ?_⟩
      · rintro ⟨r₁, p₁, r₂, p₂, h1, h2, hregs, -⟩
        rw [hstep] at h1
        cases h1
        rw [hstep'] at h2
        cases h2
        exact ⟨hst, fun hl => ⟨hh hl, fun r hr => by rw [← hq hr, hregs r (hlist.mpr hr)]⟩⟩
      · rintro ⟨-, hex⟩
        refine ⟨_, _, _, q, hstep, hstep', fun r hr => ?_, ?_⟩
        · rw [hq (hlist.mp hr)]
          by_cases hl : ByteLoaded p pop
          · exact (hex hl).2 r (hlist.mp hr)
          · rw [held, if_neg hl]
        · rw [hget _ hpp.pushBlock.rn,
            if_neg fun hr => hpp.pushBlock.base hpp.pushed (hlist.mpr hr)]
          exact fetched_get hpp.pushBlock.rn
    · obtain ⟨f, hstep'⟩ := armStep_ldm_fault hf' hp₁ hpp.popBlock hpp.load
        fun h => hh fun hl => hholds.mp (h (hload.mpr hl))
      refine ⟨?_, fun h => absurd (fun hl => (h.2 hl).1) hh⟩
      rintro ⟨r₁, p₁, r₂, p₂, h1, h2, -⟩
      rw [hstep] at h1
      cases h1
      rw [hstep'] at h2
      cases h2
  · obtain ⟨f, hstep⟩ := armStep_stm_fault hf hp hpp.pushBlock hpp.store hst
    refine ⟨?_, fun h => absurd h.1 hst⟩
    rintro ⟨r₁, p₁, r₂, p₂, h1, -⟩
    rw [hstep] at h1
    cases h1

end Pair

/-- **Block loads**: which steps load the block of words as the encoding asks, and which
pushes a pop undoes. -/
theorem loadsBlock_pairRestores_iff (b : Build) (p : ArmCore) :
    (∀ ins, Fetches b p ins → Passes p ins → BlockTransfer ins → bitL ins = true →
      (LoadsBlock b p ins ↔ LdmExact b p ins)) ∧
    ∀ push pop, Fetches b p push → Passes p push → Passes p pop → PushPop push pop →
      (∀ r p₁, armStep b p = .ok (r, p₁) → Fetches b p₁ pop) →
      (PairRestores b p push ↔ PairExact p push pop) :=
  ⟨fun _ hf hp ht hL => loadsBlock_iff_exact hf hp ht hL,
    fun _ _ hf hp hp' hpp hnext => pairRestores_iff hf hp hp' hpp hnext⟩

/-- `ldmia r0, {r1}` of a word below 256, and `push {r1}; pop {r1}` with R4 past the end
of the memory. -/
theorem loadsBlock_pairRestores_iff_r1 :
    LoadsBlock (.trapping false) ⟨0, .ofFn fun i => if i = 0 then 4 else 0,
      .ofBytes [0x02, 0x00, 0x90, 0xE8, 5, 0, 0, 0], []⟩ 0xE8900002 ∧
    PairRestores (.trapping false) ⟨0, .ofFn fun i => if i = 4 then 0xFFFFFFFF else
      if i = 13 then 12 else 0, .ofBytes [0x02, 0x00, 0x2D, 0xE9, 0x02, 0x00, 0xBD, 0xE8,
        0, 0, 0, 0], []⟩ 0xE92D0002 := by
  refine ⟨?_, ?_⟩
  · refine ((loadsBlock_pairRestores_iff _ _).1 _ ?_ ?_ ?_ ?_).mpr ?_
    · decide
    · decide
    · decide
    · decide
    · unfold LdmExact; decide
  · refine ((loadsBlock_pairRestores_iff _ _).2 _ 0xE8BD0002 ?_ ?_ ?_ ?_ ?_).mpr ?_
    · decide
    · decide
    · decide
    · constructor <;> decide
    · rintro r p₁ h
      cases h
      decide
    · unfold PairExact; decide

/-- `ldmia r0, {r1}` loads one byte of the word, on a little-endian simulator. -/
theorem not_loadsBlock :
    ¬ LoadsBlock (.trapping false) ⟨0, .ofFn fun i => if i = 0 then 4 else 0,
      .ofBytes [0x02, 0x00, 0x90, 0xE8, 0x44, 0x33, 0x22, 0x11], []⟩ 0xE8900002 := by
  rintro ⟨r, p', hrun, hwords, -⟩
  cases hrun
  exact absurd (hwords (1, 0) (by decide) (by decide)) (by decide)

end Armator.Sim
