import Armator.Proof.Framing

/-!
# Registers through the debugger

The payload of the reply to `g`, and of a `G` request behind its letter, is a `layout`:
sixteen words of eight digits, twenty-five fields of eight characters that nobody reads,
and the status word. `read_general_registers` writes the layout `dump r`, and
`write_general_registers` takes a layout apart at the same offsets.
-/

namespace Armator.Sim

open Lib

/-- The text of all the fields. -/
def layout (word : Nat → List (BitVec 8)) (skipped status : List (BitVec 8)) : List (BitVec 8) :=
  (List.range 16).flatMap word ++ (skipped ++ status)

/-- What stands in the unimplemented fields. -/
def unimplemented : List (BitVec 8) :=
  (List.range (8 * 3)).flatMap (fun _ => text "xxxxxxxx") ++ text "xxxxxxxx"

/-- The reply to `g`. -/
def dump (r : Registers) : List (BitVec 8) :=
  layout (fun i => hexText 8 (r.get i).toNat) unimplemented
    (hexText 8 (registersReadCpsr r).toNat)

/-- The text is the number `v` in eight digits of either case. -/
structure IsField (s : List (BitVec 8)) (v : BitVec 32) : Prop where
  length : s.length = 8
  digits : ∀ c ∈ s, isHex c = true
  value : hexVal s = v.toNat

section Fields

variable {s r : List (BitVec 8)} {v : BitVec 32} {word : Nat → List (BitVec 8)} {n k : Nat}

theorem isField_hexText (v : BitVec 32) : IsField (hexText 8 v.toNat) v :=
  ⟨length_hexText _ _, fun _ => isHex_of_mem_hexText, hexVal_hexText_of_lt v.isLt⟩

theorem IsField.ne_nil (h : IsField s v) : s ≠ [] := by
  rintro rfl
  cases h.length

theorem IsField.not_mem (h : IsField s v) : 0 ∉ s := fun hm => hex_ne_zero (h.digits 0 hm) rfl

theorem length_flatMap_word (h : ∀ i, i < n → (word i).length = k) :
    ((List.range n).flatMap word).length = k * n := by
  induction n with
  | zero => rfl
  | succ n ih =>
    rw [List.range_succ, List.flatMap_append, List.length_append,
      ih fun i hi => h i (Nat.lt_succ_of_lt hi), List.flatMap_singleton,
      h n (Nat.lt_succ_self n), Nat.mul_succ]

end Fields

/-! ## Writing the dump -/

section Lift

variable {α β : Type}

theorem lift_bind (x : Except Fault α) (f : α → Except Fault β) :
    lift (x >>= f) = lift x >>= fun a => lift (f a) := by
  cases x <;> rfl

theorem returns_lift {x : Except Fault α} {Q : α → Prop} (h : Returns x Q) :
    Returns (lift x) Q := by
  cases x with
  | error f => exact returns_error
  | ok a => exact returns_ok (h a rfl)

/-- A field stored over the NUL of what was stored before it. -/
theorem lift_put_next (g : Gdb) (i : Nat) (s : List (BitVec 8)) (t : ArmCore → List (BitVec 8))
    (f : Gdb → Except Halt β) :
    (lift (g.put i (s ++ [0])) >>= fun g => lift (g.put (i + s.length) (t g.arm ++ [0])) >>= f) =
      lift (g.put i (s ++ t g.arm ++ [0])) >>= f := by
  have hne : t g.arm ++ [0] ≠ [] := List.append_ne_nil_of_right_ne_nil _ (List.cons_ne_nil _ _)
  rw [List.append_assoc, ← put_put g i s hne, lift_bind, bind_assoc]
  refine (returns_lift (put_packet g i _)).bind_congr ?_
  rintro g' ⟨p, rfl⟩
  rfl

end Lift

section Dump

/-- Every field is stored over the NUL of the one before: an induction on the fields. -/
theorem putFields_eq (write : Gdb → Nat → Nat → Except Halt Gdb)
    (field : ArmCore → Nat → List (BitVec 8)) (is : List Nat) (hne : is ≠ [])
    (hlen : ∀ p, ∀ i ∈ is, (field p i).length = 8)
    (hwrite : ∀ g k, ∀ i ∈ is, write g k i = lift (g.put k (field g.arm i ++ [0])))
    (g : Gdb) (k : Nat) :
    putFields write is g k = lift (g.put k (is.flatMap (field g.arm) ++ [0])) >>= fun g =>
      .ok (g, k + 8 * is.length) := by
  induction is generalizing g k with
  | nil => exact absurd rfl hne
  | cons i is ih =>
    obtain ⟨hi, hwrite⟩ := List.forall_mem_cons.mp fun j hj => fun g k => hwrite g k j hj
    obtain ⟨hli, hlen⟩ := List.forall_mem_cons.mp fun j hj => fun p => hlen p j hj
    have hfold : putFields write (i :: is) g k =
        lift (g.put k (field g.arm i ++ [0])) >>= fun g => putFields write is g (k + 8) := by
      unfold putFields
      rw [List.foldlM_cons]
      dsimp only
      rw [hi]
      cases g.put k (field g.arm i ++ [0]) <;> rfl
    rw [hfold]
    cases is with
    | nil =>
      rw [List.flatMap_singleton]
      rfl
    | cons j is =>
      have hnext (g : Gdb) : putFields write (j :: is) g (k + 8) =
          lift (g.put (k + 8) ((j :: is).flatMap (field g.arm) ++ [0])) >>= fun g =>
            .ok (g, k + 8 + 8 * (j :: is).length) :=
        ih (List.cons_ne_nil _ _) (fun p j hj => hlen j hj p) (fun g k j hj => hwrite j hj g k) g _
      have hput := lift_put_next g k (field g.arm i) (fun p => (j :: is).flatMap (field p)) fun g =>
        .ok (g, k + 8 * (i :: j :: is).length)
      rw [hli g.arm] at hput
      rw [List.flatMap_cons (x := i), ← hput]
      refine bind_congr fun g' => ?_
      rw [hnext, List.length_cons (a := i), Nat.mul_succ, Nat.add_assoc, Nat.add_comm 8]

theorem readRegister_eq {i : Nat} (hi : i < 16) (g : Gdb) (k : Nat) :
    readRegister g k (BitVec.ofNat 8 i) =
      lift (g.put k (hexText 8 (g.arm.reg.get i).toNat ++ [0])) := by
  have hnat : (BitVec.ofNat 8 i).toNat = i := by
    rw [BitVec.toNat_ofNat]
    omega
  unfold readRegister writeUint32
  rw [if_pos (by rw [hnat]; exact hi), registersRead_of_lt (by rw [hnat]; exact hi), hnat]
  rfl

theorem clean_flatMap {is : List Nat} {f : Nat → List (BitVec 8)} (h : ∀ i, Clean (f i)) :
    Clean (is.flatMap f) := by
  intro c hc
  obtain ⟨i, -, hi⟩ := List.mem_flatMap.mp hc
  exact h i c hi

theorem clean_dump (r : Registers) : Clean (dump r) := by
  have hx : Clean (text "xxxxxxxx") := by decide
  exact (clean_flatMap fun i => clean_hexText _ _).append
    (((clean_flatMap fun _ => hx).append hx).append (clean_hexText _ _))

theorem length_dump (r : Registers) : (dump r).length = 336 := by
  have hx : (text "xxxxxxxx").length = 8 := rfl
  unfold dump layout unimplemented
  simp only [List.length_append, length_hexText, hx,
    length_flatMap_word fun i _ => length_hexText 8 (r.get i).toNat,
    length_flatMap_word fun i _ => hx]

/-- The reply to `g` is sent as if it had been stored as one string. -/
theorem readGeneralRegisters_send (h : Host) (steps : Nat) (g : Gdb) (data : Pointer) :
    readGeneralRegisters h steps g data = lift (gdbSendData g (dump g.arm.reg)) := by
  have hx : (text "xxxxxxxx").length = 8 := rfl
  have hwords := putFields_eq (fun g k i => readRegister g k (BitVec.ofNat 8 i))
    (fun p i => hexText 8 (p.reg.get i).toNat) (List.range 16) (by decide)
    (fun _ _ _ => length_hexText _ _) (fun g k i hi => readRegister_eq (List.mem_range.mp hi) g k)
  have hfloats := putFields_eq (fun g k _ => lift (g.put k (text "xxxxxxxx" ++ [0])))
    (fun _ _ => text "xxxxxxxx") (List.range (8 * 3)) (by decide) (fun _ _ _ => hx)
    (fun _ _ _ _ => rfl)
  -- the four parts, one behind the other
  obtain ⟨words, hw⟩ : ∃ words : ArmCore → List (BitVec 8), words = fun p =>
    (List.range 16).flatMap fun i => hexText 8 (p.reg.get i).toNat := ⟨_, rfl⟩
  obtain ⟨floats, hf⟩ : ∃ floats, floats = (List.range (8 * 3)).flatMap fun _ => text "xxxxxxxx" :=
    ⟨_, rfl⟩
  have hlw : (words g.arm).length = 128 := by
    rw [hw]
    exact length_flatMap_word fun i _ => length_hexText _ _
  have hlf : floats.length = 192 := by
    rw [hf]
    exact length_flatMap_word fun _ _ => hx
  have hparts : readGeneralRegisters h steps g data =
      lift (g.put buffer (words g.arm ++ [0])) >>= fun g =>
        lift (g.put (buffer + 128) (floats ++ [0])) >>= fun g =>
          lift (g.put (buffer + 320) (text "xxxxxxxx" ++ [0])) >>= fun g =>
            lift (g.put (buffer + 328) (hexText 8 (registersReadCpsr g.arm.reg).toNat ++ [0])) >>=
              fun g => lift (gdbSendBuffer g) := by
    unfold readGeneralRegisters writeUint32
    dsimp only
    rw [hwords, bind_assoc, hw, hf]
    refine bind_congr fun g₁ => ?_
    rw [ok_bind]
    dsimp only
    rw [hfloats, bind_assoc]
    rfl
  have hdump : words g.arm ++ floats ++ text "xxxxxxxx" ++
      hexText 8 (registersReadCpsr g.arm.reg).toNat = dump g.arm.reg := by
    rw [hw, hf]
    unfold dump layout unimplemented
    simp only [List.append_assoc]
  have hnext (s : List (BitVec 8)) (t : ArmCore → List (BitVec 8)) (f : Gdb → Except Halt Gdb) :=
    lift_put_next g buffer s t f
  have h₁ := hnext (words g.arm) (fun _ => floats)
  have h₂ := hnext (words g.arm ++ floats) (fun _ => text "xxxxxxxx")
  have h₃ := hnext (words g.arm ++ floats ++ text "xxxxxxxx") fun p =>
    hexText 8 (registersReadCpsr p.reg).toNat
  rw [hlw] at h₁
  rw [List.length_append, hlw, hlf] at h₂
  rw [List.length_append, List.length_append, hlw, hlf, hx] at h₃
  rw [hparts, h₁, h₂, h₃, hdump]
  unfold gdbSendData
  rw [lift_bind]

theorem readGeneralRegisters_eq (h : Host) (steps : Nat) (g : Gdb) (data : Pointer) :
    ∃ p, readGeneralRegisters h steps g data = .ok (g.sent p (dump g.arm.reg)) ∧
      frame (dump g.arm.reg) <+: p.value.cells := by
  obtain ⟨p, hp, hfirst⟩ := gdbSendData_sent (g := g) (clean_dump g.arm.reg).not_mem
    (by rw [length_dump]; decide)
  refine ⟨p, ?_, hfirst⟩
  rw [readGeneralRegisters_send, hp]
  rfl

end Dump

/-! ## Reading a layout -/

section Load

variable {h : Host} {g : Gdb} {data : Pointer} {s t rest : List (BitVec 8)} {v : BitVec 32}
  {word : Nat → List (BitVec 8)} {w : Nat → BitVec 32} {n : Nat}

theorem readUint32_eq (hs : IsField s v) (hcells : data.cells = s ++ t) (ht : 0 ∈ t) :
    readUint32 h data = .ok v := by
  have hscan := scanHex_width hs.ne_nil hs.digits
  rw [hs.length] at hscan
  unfold readUint32
  rw [Pointer.string_append hcells hs.not_mem ht, ok_bind, sscanf, hscan]
  dsimp only
  change Except.ok (h.fit 32 _) = _
  rw [hs.value, h.fit_toNat]

theorem writeRegister_eq {i : Nat} (hi : i < 16) (hs : IsField s v) (hcells : data.cells = s ++ t)
    (ht : 0 ∈ t) : writeRegister h g (BitVec.ofNat 32 i) data =
      .ok { g with arm := { g.arm with reg := g.arm.reg.set i v } } := by
  have hnat : (BitVec.ofNat 32 i).toNat = i := by
    rw [BitVec.toNat_ofNat]
    omega
  have hbyte : ((BitVec.ofNat 32 i).setWidth 8).toNat = i := by
    rw [BitVec.toNat_setWidth, hnat]
    omega
  have hwrite (mode : BitVec 8) :
      registersWrite g.arm.reg ((BitVec.ofNat 32 i).setWidth 8) mode v =
        .ok (g.arm.reg.set i v) := by
    rw [registersWrite_of_lt (by rw [hbyte]; exact hi), hbyte]
  unfold writeRegister
  rw [readUint32_eq hs hcells ht]
  dsimp only [lift]
  rw [ok_bind, if_pos (by rw [hnat]; exact hi), hwrite]
  rfl

/-- The first `n` words go to the first `n` registers: an induction on `n`. -/
theorem writeWords_ok (hn : n ≤ 16) (hw : ∀ i < n, IsField (word i) (w i))
    (hcells : data.cells = (List.range n).flatMap word ++ rest) (h0 : 0 ∈ rest) :
    ∃ r, (List.range n).foldlM (fun x i => do
        let gdb ← writeRegister h x.1 (BitVec.ofNat 32 i) x.2
        .ok (gdb, x.2.add 8)) (g, data) =
        (.ok ({ g with arm := { g.arm with reg := r } }, data.add (8 * n)) :
          Except Halt (Gdb × Pointer)) ∧ r.watch = g.arm.reg.watch ∧
      ∀ j, r.get j = if j < n then w j else g.arm.reg.get j := by
  induction n generalizing rest with
  | zero => exact ⟨g.arm.reg, rfl, rfl, fun j => rfl⟩
  | succ n ih =>
    rw [List.range_succ, List.flatMap_append, List.flatMap_singleton, List.append_assoc] at hcells
    obtain ⟨r, hr, hwatch, hget⟩ := ih (Nat.le_of_succ_le hn)
      (fun i hi => hw i (Nat.lt_succ_of_lt hi)) hcells (List.mem_append_right _ h0)
    have hpos : (data.add (8 * n)).cells = word n ++ rest := by
      rw [Pointer.cells_add, hcells]
      exact List.drop_left' (length_flatMap_word fun i hi => (hw i (Nat.lt_succ_of_lt hi)).length)
    refine ⟨r.set n (w n), ?_, hwatch, fun j => ?_⟩
    · rw [List.range_succ, List.foldlM_append, hr, ok_bind, List.foldlM_cons]
      dsimp only
      rw [writeRegister_eq hn (hw n (Nat.lt_succ_self n)) hpos h0]
      rfl
    · rw [Registers.get_set (by unfold NB_REGISTER; omega), hget]
      by_cases hj : j = n
      · rw [if_pos hj, if_pos (by omega), hj]
      · rw [if_neg hj]
        by_cases hlt : j < n
        · rw [if_pos hlt, if_pos (by omega)]
        · rw [if_neg hlt, if_neg (by omega)]

theorem skip_eq (data : Pointer) (n : Nat) :
    (List.range n).foldl (fun position _ => position.add 8) data = data.add (8 * n) := by
  induction n with
  | zero => rfl
  | succ n ih => rw [List.range_succ, List.foldl_append, ih]; rfl

theorem writeGeneralRegisters_eq (steps : Nat) {skipped status : List (BitVec 8)} {c : BitVec 32}
    (hw : ∀ i < 16, IsField (word i) (w i)) (hskip : skipped.length = 200)
    (hstatus : IsField status c) (hcells : data.cells = layout word skipped status ++ 0 :: rest) :
    ∃ r p, writeGeneralRegisters h steps g data =
        .ok (Gdb.sent { g with arm := { g.arm with reg := registersWriteCpsr r c } } p
          (text "OK")) ∧ r.watch = g.arm.reg.watch ∧
      ∀ j, r.get j = if j < 16 then w j else g.arm.reg.get j := by
  unfold layout at hcells
  rw [List.append_assoc] at hcells
  obtain ⟨r, hr, hwatch, hget⟩ :=
    writeWords_ok (h := h) (g := g) (Nat.le_refl 16) hw hcells (by simp)
  have hpos : (((data.add (8 * 16)).add (8 * (8 * 3))).add 8).cells = status ++ 0 :: rest := by
    have hlen := length_flatMap_word fun i hi => (hw i hi).length
    rw [Pointer.cells_add, Pointer.cells_add, Pointer.cells_add, hcells, List.drop_left' hlen,
      List.drop_drop, List.append_assoc]
    exact List.drop_left' hskip
  obtain ⟨p, hp⟩ := gdbSendData_ok { g with arm := { g.arm with reg := registersWriteCpsr r c } }
  refine ⟨r, p, ?_, hwatch, hget⟩
  unfold writeGeneralRegisters
  dsimp only
  rw [hr, ok_bind]
  dsimp only
  rw [skip_eq, readUint32_eq hstatus hpos List.mem_cons_self]
  dsimp only [lift]
  rw [ok_bind, hp]

end Load

/-! ## Round trips -/

section RoundTrip

variable {h : Host} {steps : Nat} {g : Gdb} {word : Nat → List (BitVec 8)} {w : Nat → BitVec 32}
  {skipped status : List (BitVec 8)} {c : BitVec 32}

theorem exchange_read (h : Host) (steps : Nat) (g : Gdb) :
    Exchange h steps g (text "g") (dump g.arm.reg) fun g' => g'.arm = g.arm :=
  exchange_of_handler (s := []) rfl fun data _ _ => by
    obtain ⟨p, hp, -⟩ := readGeneralRegisters_eq h steps g.begun data
    exact ⟨g.begun, p, hp, rfl, rfl⟩

theorem exchange_write (hw : ∀ i < 16, IsField (word i) (w i)) (hskip : skipped.length = 200)
    (hstatus : IsField status c) :
    Exchange h steps g (char 'G' :: layout word skipped status) (text "OK") fun g' =>
      ∃ r, g'.arm = { g.arm with reg := registersWriteCpsr r c } ∧ r.watch = g.arm.reg.watch ∧
        ∀ j, r.get j = if j < 16 then w j else g.arm.reg.get j :=
  exchange_of_handler rfl fun data rest hcells => by
    obtain ⟨r, p, hp, hr⟩ := writeGeneralRegisters_eq (h := h) (g := g.begun) steps
      hw hskip hstatus hcells
    exact ⟨_, p, hp, rfl, r, rfl, hr⟩

theorem and_not_eq_self {x m : BitVec 32} (h : x &&& m = 0) : x &&& ~~~m = x := by
  refine BitVec.eq_of_getLsbD_eq fun i hi => ?_
  have hbit := congrArg (fun v => v.getLsbD i) h
  rw [BitVec.getLsbD_and, BitVec.getLsbD_not]
  simp only [BitVec.getLsbD_and, BitVec.ofNat_eq_ofNat, BitVec.getLsbD_zero] at hbit
  cases hx : x.getLsbD i with
  | false => rfl
  | true =>
    rw [hx, Bool.true_and] at hbit
    rw [hbit, decide_eq_true hi]
    rfl

theorem registersWriteCpsr_read {r r' : Registers} (hres : r.get 16 &&& CPSR_Reserved_Mask = 0)
    (hwatch : r'.watch = r.watch) (hget : ∀ j, r'.get j = r.get j) :
    registersWriteCpsr r' (registersReadCpsr r) = r := by
  refine Registers.ext_get hwatch fun j _ => ?_
  by_cases hj : j = 16
  · rw [hj, registersWriteCpsr, Registers.get_set (by decide), if_pos rfl, registersReadCpsr,
      BitVec.and_assoc, BitVec.and_self, and_not_eq_self hres]
  · rw [registersWriteCpsr_get hj, hget]

/-- Sending back the reply to `g` leaves the processor as it is. -/
def SavesRegisters (h : Host) (steps : Nat) (g : Gdb) : Prop :=
  ∃ saved, Exchange h steps g (text "g") saved fun g₁ =>
    Exchange h steps g₁ (char 'G' :: saved) (text "OK") fun g₂ => g₂.arm = g.arm

/-- The words and the status sent in a request `G` come back in the reply to `g`, in the
same fields, without the reserved bits of the status. -/
def RestoresRegisters (h : Host) (steps : Nat) (g : Gdb) (word : Nat → List (BitVec 8))
    (skipped status : List (BitVec 8)) (w : Nat → BitVec 32) (c : BitVec 32) : Prop :=
  Exchange h steps g (char 'G' :: layout word skipped status) (text "OK") fun g₁ =>
    Exchange h steps g₁ (text "g") (layout (fun i => hexText 8 (w i).toNat) unimplemented
      (hexText 8 (c &&& ~~~CPSR_Reserved_Mask).toNat)) fun g₂ => g₂.arm = g₁.arm

theorem layout_congr {word' : Nat → List (BitVec 8)} (hword : ∀ i < 16, word i = word' i) :
    layout word skipped status = layout word' skipped status := by
  unfold layout
  rw [List.flatMap_congr fun i hi => hword i (List.mem_range.mp hi)]

/-- **Saving and restoring registers loses nothing.** -/
theorem registers_roundtrip (h : Host) (steps : Nat) (g : Gdb) :
    (g.arm.reg.get 16 &&& CPSR_Reserved_Mask = 0 → SavesRegisters h steps g) ∧
    ∀ word skipped status w c, (∀ i < 16, IsField (word i) (w i)) → skipped.length = 200 →
      IsField status c → RestoresRegisters h steps g word skipped status w c := by
  refine ⟨fun hres => ⟨dump g.arm.reg, ?_⟩, fun word skipped status w c hw hskip hstatus => ?_⟩
  · refine (exchange_read h steps g).mono fun g₁ harm => ?_
    refine (exchange_write (fun i _ => isField_hexText _) ?_ (isField_hexText _)).mono ?_
    · rfl
    · rintro g₂ ⟨r, harm₂, hwatch, hget⟩
      rw [harm] at hwatch
      rw [harm₂, harm, registersWriteCpsr_read hres hwatch fun j => ?_]
      rw [hget, harm, ite_self]
  · refine (exchange_write hw hskip hstatus).mono ?_
    rintro g₁ ⟨r, harm, -, hget⟩
    have hdump : dump g₁.arm.reg = layout (fun i => hexText 8 (w i).toNat) unimplemented
        (hexText 8 (c &&& ~~~CPSR_Reserved_Mask).toNat) := by
      unfold dump
      rw [harm, registersReadCpsr_write]
      refine layout_congr fun i hi => ?_
      rw [registersWriteCpsr_get (by omega), hget, if_pos hi]
    rw [← hdump]
    exact exchange_read h steps g₁

/-- Zeros saved and restored, then the words 0, 1, … with a status of ones. -/
theorem registers_roundtrip_zeros :
    SavesRegisters .zeros 0 (session (.ofBytes [])) ∧
    RestoresRegisters .zeros 0 (session (.ofBytes []))
      (fun i => hexText 8 (BitVec.ofNat 32 i).toNat) (List.replicate 200 (char '0'))
      (text "FFFFFFFF") (BitVec.ofNat 32) 0xFFFFFFFF :=
  ⟨(registers_roundtrip .zeros 0 _).1 (by decide),
    (registers_roundtrip .zeros 0 _).2 _ _ _ _ _ (fun _ _ => isField_hexText _)
      List.length_replicate ⟨rfl, by decide, by decide⟩⟩

end RoundTrip

end Armator.Sim
