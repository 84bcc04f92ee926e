import Armator.Proof.Server

/-!
# Memory through the debugger

A request `X` carries bytes in which four values are escaped, a request `m` is answered by
two digits a byte. Both walk the addresses in 32 bits, so both meet the same cells, those
of `span`: the bytes come back whatever the address is. They are the cells the request
names unless the address wraps around.
-/

namespace Armator.Sim

open Lib

/-- The bytes that cannot be sent as they are. -/
def isSpecial (b : BitVec 8) : Bool := b = 0x23 ∨ b = 0x24 ∨ b = 0x2a ∨ b = 0x7d

/-- The bytes as an `X` request carries them. -/
def escape (bs : List (BitVec 8)) : List (BitVec 8) :=
  bs.flatMap fun b => if isSpecial b then [0x7d, b ^^^ 0x20] else [b]

/-- The bytes as the reply to `m` has them. -/
def hexBytes (bs : List (BitVec 8)) : List (BitVec 8) := bs.flatMap fun b => hexText 2 b.toNat

/-- The text is the number `v` in hexadecimal digits of either case. -/
structure IsNumber (s : List (BitVec 8)) (v : Nat) : Prop where
  ne_nil : s ≠ []
  digits : ∀ c ∈ s, isHex c = true
  value : hexVal s = v

section Text

variable {A N r bs : List (BitVec 8)} {a n : Nat} {c : BitVec 8}

theorem IsNumber.not_mem (hA : IsNumber A a) (hc : isHex c = false) : c ∉ A := fun hm => by
  rw [hA.digits c hm] at hc
  cases hc

theorem sscanf_pair (hA : IsNumber A a) (hN : IsNumber N n) (hr : Ends r) :
    sscanf [.hex none, .literal (char ','), .hex none] (A ++ char ',' :: (N ++ r)) =
      [(a : Int), (n : Int)] := by
  have hcomma : Ends (char ',' :: (N ++ r)) := ends_cons (by decide)
  rw [sscanf, scanHex_digits hA.ne_nil hA.digits hcomma]
  dsimp only
  rw [sscanf, if_pos rfl, sscanf, scanHex_digits hN.ne_nil hN.digits hr]
  dsimp only
  rw [sscanf, hA.value, hN.value]

theorem hexBytes_cons (b : BitVec 8) (bs : List (BitVec 8)) :
    hexBytes (b :: bs) = hexText 2 b.toNat ++ hexBytes bs := rfl

theorem length_hexBytes (bs : List (BitVec 8)) : (hexBytes bs).length = 2 * bs.length := by
  induction bs with
  | nil => rfl
  | cons b bs ih =>
    rw [hexBytes_cons, List.length_append, length_hexText, ih, List.length_cons]
    omega

theorem clean_hexBytes (bs : List (BitVec 8)) : Clean (hexBytes bs) := by
  induction bs with
  | nil => exact clean_nil
  | cons b bs ih => exact (clean_hexText 2 b.toNat).append ih

theorem escape_cons (b : BitVec 8) (bs : List (BitVec 8)) :
    escape (b :: bs) = (if isSpecial b then [0x7d, b ^^^ 0x20] else [b]) ++ escape bs := rfl

end Text

/-! ## The two loops -/

section Loops

variable {g : Gdb} {a : BitVec 32} {content : Pointer} {bs rest t : List (BitVec 8)} {n : Nat}

/-- The loop stores the bytes that were escaped: an induction on them. -/
theorem writeMemoryLoop_eq (hcells : content.cells = escape bs ++ rest)
    (hold : g.arm.mem.Holds a bs.length) :
    writeMemoryLoop bs.length content a g =
      .ok ({ g with arm := { g.arm with mem := g.arm.mem.write a bs } }, true) := by
  induction bs generalizing g a content with
  | nil => rfl
  | cons b bs ih =>
    obtain ⟨h0, h1⟩ := Memory.holds_succ.mp hold
    have hwrite : memoryWriteByte g.arm.mem a b = .ok (0, g.arm.mem.set a.toNat b) := by
      rw [memoryWriteByte_eq]
      exact guardedWrite_of_holds Nat.one_pos fun i hi => by
        rwa [show i = 0 from Nat.lt_one_iff.mp hi, byteIndex_zero]
    rw [escape_cons, List.append_assoc] at hcells
    rw [List.length_cons, writeMemoryLoop]
    by_cases hb : isSpecial b = true
    · rw [if_pos hb] at hcells
      have hnext : (content.add 1).cells = (b ^^^ 0x20) :: (escape bs ++ rest) := by
        rw [Pointer.cells_add, hcells]
        rfl
      have hrest : ((content.add 1).add 1).cells = escape bs ++ rest := by
        rw [Pointer.cells_add, hnext]
        rfl
      have hxor : (b ^^^ 0x20) ^^^ 0x20 = b := by
        rw [BitVec.xor_assoc, BitVec.xor_self, BitVec.xor_zero]
      rw [Pointer.deref_cons hcells, ok_bind]
      dsimp only
      rw [if_pos rfl, Pointer.deref_cons hnext, ok_bind, hxor, ok_bind, hwrite, ok_bind]
      dsimp only
      rw [if_pos rfl]
      exact ih (g := { g with arm := { g.arm with mem := g.arm.mem.set a.toNat b } }) hrest h1
    · rw [if_neg hb] at hcells
      have hrest : (content.add 1).cells = escape bs ++ rest := by
        rw [Pointer.cells_add, hcells]
        rfl
      have hne : b ≠ 0x7d := fun he => hb (decide_eq_true (.inr (.inr (.inr he))))
      rw [Pointer.deref_cons hcells, ok_bind]
      dsimp only
      rw [if_neg hne, ok_bind, hwrite, ok_bind]
      dsimp only
      rw [if_pos rfl]
      exact ih (g := { g with arm := { g.arm with mem := g.arm.mem.set a.toNat b } }) hrest h1

/-- An induction on how many bytes are read. -/
theorem readDigits_of_holds {mem : Memory} (hold : mem.Holds a n) :
    readDigits mem n a = (hexBytes (mem.bytes a n), none) := by
  induction n generalizing a with
  | zero => rfl
  | succ n ih =>
    obtain ⟨h0, h1⟩ := Memory.holds_succ.mp hold
    have hread : memoryReadByte mem a 0 = .ok (0, mem.get a.toNat) :=
      memoryReadByte_of_holds fun i hi => hold i (by omega)
    rw [readDigits, hread]
    dsimp only
    rw [if_pos (by decide), ih h1, Memory.bytes_succ, hexBytes_cons]

end Loops

/-! ## The two handlers -/

section Handlers

variable {h : Host} {steps : Nat} {g : Gdb} {a : BitVec 32} {data : Pointer}
  {A N bs rest : List (BitVec 8)} {n : Nat}

theorem holds_of_le (h : a.toNat + n ≤ g.arm.mem.taille) : g.arm.mem.Holds a n := by
  intro i hi
  rw [byteIndex_eq]
  have hle := Nat.mod_le (a.toNat + i) (2 ^ 32)
  omega

theorem assigned_pair (h : Host) (a : BitVec 32) (hn : n < 2 ^ 32) (x y : GdbLocal) :
    h.assigned 32 [(a.toNat : Int), (n : Int)] 0 x = a ∧
      h.assigned 32 [(a.toNat : Int), (n : Int)] 1 y = BitVec.ofNat 32 n :=
  ⟨h.fit_toNat a, h.fit_ofNat hn⟩

/-- The header of an `X` request: its numbers, and the data behind the first `:`, which may
hold further ones. -/
theorem header_eq {a n : Nat} {t : List (BitVec 8)} (hA : IsNumber A a) (hN : IsNumber N n)
    (hcells : data.cells = A ++ char ',' :: N ++ char ':' :: t) (ht : 0 ∈ t) :
    ∃ s found, data.string = .ok s ∧
      sscanf [.hex none, .literal (char ','), .hex none] s = [(a : Int), (n : Int)] ∧
      index data (char ':') = .ok found ∧ (found.add 1).cells = t := by
  have hhead {c : BitVec 8} (hc : isHex c = false) (hne : c ≠ char ',') :
      c ∉ A ++ char ',' :: N := by
    rw [List.mem_append, List.mem_cons]
    rintro (hm | rfl | hm)
    · exact hA.not_mem hc hm
    · exact hne rfl
    · exact hN.not_mem hc hm
  have hsplit : data.cells = (A ++ char ',' :: N ++ [char ':']) ++ t := by
    rw [hcells, List.append_cons]
  have hstring := Pointer.string_append hsplit (by
    rw [List.mem_append, List.mem_singleton]
    rintro (hm | hm)
    · exact hhead (by decide) (by decide) hm
    · cases hm) ht
  rw [← List.append_cons] at hstring
  refine ⟨_, data.add (A ++ char ',' :: N).length, hstring, ?_, ?_, ?_⟩
  · rw [List.append_assoc]
    exact sscanf_pair hA hN (ends_cons (by decide))
  · exact index_eq hstring (hhead (by decide) (by decide))
  · rw [Pointer.cells_add, Pointer.cells_add, hcells, List.drop_left]
    rfl

theorem writeMemoryBinary_eq (steps : Nat) (hA : IsNumber A a.toNat) (hN : IsNumber N bs.length)
    (hlt : a.toNat < g.arm.mem.taille) (hn : bs.length < 2 ^ 32)
    (hmem : a.toNat + bs.length ≤ g.arm.mem.taille)
    (hcells : data.cells = A ++ char ',' :: (N ++ char ':' :: escape bs) ++ 0 :: rest) :
    ∃ p, writeMemoryBinary h steps g data =
      .ok (Gdb.sent { g with arm := { g.arm with mem := g.arm.mem.write a bs } } p
        (text "OK")) := by
  have hheader : data.cells = A ++ char ',' :: N ++ char ':' :: (escape bs ++ 0 :: rest) := by
    rw [hcells]
    simp
  obtain ⟨s, found, hstring, hscan, hfound, hcontent⟩ := header_eq hA hN hheader
    (List.mem_append_right _ List.mem_cons_self)
  obtain ⟨haddr, hsize⟩ := assigned_pair h a hn .writeMemoryAddress .writeMemorySize
  have hloop := writeMemoryLoop_eq hcontent (holds_of_le hmem)
  have hlt : a.toNat < memoryGetSize g.arm.mem := hlt
  have hnat : (BitVec.ofNat 32 bs.length).toNat = bs.length := by
    rw [BitVec.toNat_ofNat, Nat.mod_eq_of_lt hn]
  obtain ⟨p, hp⟩ := gdbSendData_ok { g with arm := { g.arm with mem := g.arm.mem.write a bs } }
  refine ⟨p, ?_⟩
  unfold writeMemoryBinary
  rw [hstring, ok_bind]
  dsimp only
  rw [hscan, haddr, hsize, hfound, ok_bind, if_pos hlt, hnat, hloop, ok_bind]
  dsimp only
  rw [if_pos rfl, hp]
  rfl

theorem readMemory_eq (steps : Nat) (hA : IsNumber A a.toNat) (hN : IsNumber N n) (h1 : 1 ≤ n)
    (hmem : a.toNat + n ≤ g.arm.mem.taille) (hfit : 2 * n + 5 ≤ MAX_PACKET_SIZE)
    (hcells : data.cells = A ++ char ',' :: N ++ 0 :: rest) :
    ∃ p, readMemory h steps g data = .ok (g.sent p (hexBytes (g.arm.mem.bytes a n))) := by
  have hn : n < 2 ^ 32 := by
    unfold MAX_PACKET_SIZE at hfit
    omega
  have hstring := Pointer.string_eq hcells (by
    rw [List.mem_append, List.mem_cons]
    rintro (hm | hm | hm)
    · exact hA.not_mem (by decide) hm
    · cases hm
    · exact hN.not_mem (by decide) hm)
  have hscan : sscanf [.hex none, .literal (char ','), .hex none] (A ++ char ',' :: N) =
      [(a.toNat : Int), (n : Int)] := by
    have := sscanf_pair hA hN ends_nil
    rwa [List.append_nil] at this
  obtain ⟨haddr, hsize⟩ := assigned_pair h a hn .readMemoryAddress .readMemorySize
  have hlt : a.toNat < memoryGetSize g.arm.mem := by
    unfold memoryGetSize
    omega
  have hnat : (BitVec.ofNat 32 n).toNat = n := by
    rw [BitVec.toNat_ofNat, Nat.mod_eq_of_lt hn]
  have hargs : readMemoryArguments h (A ++ char ',' :: N) = (a, BitVec.ofNat 32 n) := by
    unfold readMemoryArguments
    dsimp only
    rw [hscan, haddr, hsize]
  have hlen : (hexBytes (g.arm.mem.bytes a n)).length = 2 * n := by
    rw [length_hexBytes, Memory.length_bytes]
  obtain ⟨p, hp, -⟩ := gdbSendData_sent (g := g) (clean_hexBytes (g.arm.mem.bytes a n)).not_mem
    (by rw [hlen]; exact hfit)
  refine ⟨p, ?_⟩
  rw [readMemory_stages, readMemory_reading h g data hstring, hargs, if_pos hlt, hnat,
    readDigits_of_holds (holds_of_le hmem)]
  change lift (gdbSendData g (hexBytes (g.arm.mem.bytes a n))) = _
  rw [hp]
  rfl

end Handlers

/-! ## The round trip -/

/-- A request `X` for the bytes `bs` at `a` is answered by `OK` and changes exactly those
bytes, and a request `m` gets them back. -/
def Downloads (h : Host) (steps : Nat) (g : Gdb) (A N : List (BitVec 8)) (a : BitVec 32)
    (bs : List (BitVec 8)) : Prop :=
  Exchange h steps g (char 'X' :: (A ++ char ',' :: (N ++ char ':' :: escape bs))) (text "OK")
    fun g₁ =>
      g₁.arm = { g.arm with mem := g₁.arm.mem } ∧
      (∀ x, g₁.arm.mem.get x =
        if a.toNat ≤ x ∧ x < a.toNat + bs.length then bs.getD (x - a.toNat) 0
        else g.arm.mem.get x) ∧
      ∀ A' N', IsNumber A' a.toNat → IsNumber N' bs.length →
        Exchange h steps g₁ (char 'm' :: (A' ++ char ',' :: N')) (hexBytes bs) fun g₂ =>
          g₂.arm = g₁.arm

/-- Where the addresses wrap around, the cells that the request names and those it meets
hold its bytes already. -/
def HoldsWrapped (mem : Memory) (a : BitVec 32) (bs : List (BitVec 8)) : Prop :=
  ∀ i < bs.length, 2 ^ 32 ≤ a.toNat + i →
    mem.get (a.toNat + i) = bs.getD i 0 ∧ mem.get (a.toNat + i - 2 ^ 32) = bs.getD i 0

section Write

variable {mem : Memory} {a : BitVec 32} {bs : List (BitVec 8)} {x i : Nat}

theorem get_write_at (h : mem.Holds a bs.length) (hn : bs.length ≤ 2 ^ 32) (hi : i < bs.length) :
    (mem.write a bs).get (byteIndex a i) = bs.getD i 0 := by
  have hlen : (span a bs.length).length = bs.length := by simp [span]
  have hkeys : keys ((span a bs.length).zip bs) = span a bs.length :=
    List.map_fst_zip (by rw [hlen])
  have hmem : (byteIndex a i, bs.getD i 0) ∈ (span a bs.length).zip bs := by
    rw [List.mem_iff_getElem]
    refine ⟨i, by rw [List.length_zip, hlen]; omega, ?_⟩
    rw [List.getElem_zip, List.getD_eq_getElem _ _ hi]
    simp [span]
  rw [Memory.get_write h]
  exact overlay_of_mem (by rw [hkeys]; exact nodup_span hn) hmem

theorem get_write_off (h : mem.Holds a bs.length) (hx : ∀ i < bs.length, x ≠ byteIndex a i) :
    (mem.write a bs).get x = mem.get x := by
  rw [Memory.get_write h]
  refine overlay_of_notMem fun hm => ?_
  have hspan : x ∈ span a bs.length := by
    rw [keys, List.map_fst_zip (by simp [span])] at hm
    exact hm
  obtain ⟨i, hi, rfl⟩ := List.mem_map.mp hspan
  exact hx i (List.mem_range.mp hi) rfl

/-- What was stored is read back, whatever the address is. -/
theorem bytes_write (h : mem.Holds a bs.length) (hn : bs.length ≤ 2 ^ 32) :
    (mem.write a bs).bytes a bs.length = bs := by
  refine List.ext_getElem Memory.length_bytes fun i h1 h2 => ?_
  have hget := get_write_at h hn h2
  rw [List.getD_eq_getElem _ _ h2] at hget
  rw [← hget]
  simp [Memory.bytes, span]

theorem write_exact_iff (h : mem.Holds a bs.length) (hn : bs.length ≤ 2 ^ 31) :
    (∀ x, (mem.write a bs).get x =
      if a.toNat ≤ x ∧ x < a.toNat + bs.length then bs.getD (x - a.toNat) 0 else mem.get x) ↔
      HoldsWrapped mem a bs := by
  have ha := a.isLt
  refine ⟨fun hx i hi hwrap => ⟨?_, ?_⟩, fun hw x => ?_⟩
  · have hoff := get_write_off h (x := a.toNat + i) fun j hj => by
      rw [byteIndex_eq]
      omega
    rw [← hoff, hx, if_pos (by omega), Nat.add_sub_cancel_left]
  · have hat := get_write_at h (by omega) hi
    rw [byteIndex_eq, show (a.toNat + i) % 2 ^ 32 = a.toNat + i - 2 ^ 32 by omega, hx,
      if_neg (by omega)] at hat
    exact hat
  · by_cases hm : ∃ i < bs.length, x = byteIndex a i
    · obtain ⟨i, hi, rfl⟩ := hm
      rw [get_write_at h (by omega) hi, byteIndex_eq]
      rcases Nat.lt_or_ge (a.toNat + i) (2 ^ 32) with hlt | hwrap
      · rw [Nat.mod_eq_of_lt hlt, if_pos (by omega), Nat.add_sub_cancel_left]
      · rw [show (a.toNat + i) % 2 ^ 32 = a.toNat + i - 2 ^ 32 by omega, if_neg (by omega)]
        exact (hw i hi hwrap).2.symm
    · have hoff : ∀ i < bs.length, x ≠ byteIndex a i := fun i hi he => hm ⟨i, hi, he⟩
      rw [get_write_off h hoff]
      by_cases hin : a.toNat ≤ x ∧ x < a.toNat + bs.length
      · have hne := hoff (x - a.toNat) (by omega)
        rw [byteIndex_eq, Nat.add_sub_cancel' hin.1] at hne
        have hwrap : 2 ^ 32 ≤ x := by
          by_contra hlt
          exact hne (Nat.mod_eq_of_lt (by omega)).symm
        have heq := (hw (x - a.toNat) (by omega) (by omega)).1
        rw [Nat.add_sub_cancel' hin.1] at heq
        rw [if_pos hin, heq]
      · rw [if_neg hin]

end Write

section RoundTrip

variable {h : Host} {steps : Nat} {g : Gdb} {a : BitVec 32} {A N bs : List (BitVec 8)}

theorem exchange_download (h : Host) (steps : Nat) (hA : IsNumber A a.toNat)
    (hN : IsNumber N bs.length) (h1 : 1 ≤ bs.length) (hn : bs.length < 2 ^ 32)
    (hmem : a.toNat + bs.length ≤ g.arm.mem.taille) :
    Exchange h steps g (char 'X' :: (A ++ char ',' :: (N ++ char ':' :: escape bs))) (text "OK")
      fun g₁ => g₁.arm = { g.arm with mem := g.arm.mem.write a bs } :=
  exchange_of_handler rfl fun data rest hcells => by
    have hlt : a.toNat < g.arm.mem.taille := by omega
    obtain ⟨p, hp⟩ := writeMemoryBinary_eq (h := h) (g := g.begun) steps hA hN hlt hn hmem hcells
    exact ⟨_, p, hp, rfl, rfl⟩

theorem exchange_upload (h : Host) (steps : Nat) {n : Nat} (hA : IsNumber A a.toNat)
    (hN : IsNumber N n) (h1 : 1 ≤ n) (hmem : a.toNat + n ≤ g.arm.mem.taille)
    (hfit : 2 * n + 5 ≤ MAX_PACKET_SIZE) :
    Exchange h steps g (char 'm' :: (A ++ char ',' :: N)) (hexBytes (g.arm.mem.bytes a n))
      fun g₂ => g₂.arm = g.arm :=
  exchange_of_handler rfl fun data rest hcells => by
    obtain ⟨p, hp⟩ := readMemory_eq (h := h) (g := g.begun) steps hA hN h1 hmem hfit hcells
    exact ⟨_, p, hp, rfl, rfl⟩

theorem Downloads.write_exact (hd : Downloads h steps g A N a bs) (hA : IsNumber A a.toNat)
    (hN : IsNumber N bs.length) (h1 : 1 ≤ bs.length) (hn : bs.length < 2 ^ 32)
    (hmem : a.toNat + bs.length ≤ g.arm.mem.taille) (x : Nat) :
    (g.arm.mem.write a bs).get x =
      if a.toNat ≤ x ∧ x < a.toNat + bs.length then bs.getD (x - a.toNat) 0
      else g.arm.mem.get x := by
  obtain ⟨g₁, ⟨-, hget, -⟩, harm⟩ :=
    (hd.and (exchange_download h steps hA hN h1 hn hmem)).outcome
  rw [harm] at hget
  exact hget x

/-- **Download and read back**: which requests change exactly the bytes they name. -/
theorem downloads_iff (h : Host) (steps : Nat) (hA : IsNumber A a.toNat)
    (hN : IsNumber N bs.length) (h1 : 1 ≤ bs.length)
    (hmem : a.toNat + bs.length ≤ memoryGetSize g.arm.mem)
    (hfit : 2 * bs.length + 5 ≤ MAX_PACKET_SIZE) :
    Downloads h steps g A N a bs ↔ HoldsWrapped g.arm.mem a bs := by
  have hn : bs.length ≤ 2 ^ 31 := by
    unfold MAX_PACKET_SIZE at hfit
    omega
  have hold : g.arm.mem.Holds a bs.length := holds_of_le hmem
  rw [← write_exact_iff hold hn]
  refine ⟨fun hd => hd.write_exact hA hN h1 (by omega) hmem, fun hx => ?_⟩
  refine (exchange_download h steps hA hN h1 (by omega) hmem).mono fun g₁ harm => ?_
  refine ⟨?_, ?_, fun A' N' hA' hN' => ?_⟩
  · rw [harm]
  · rw [harm]
    exact hx
  · have htaille : g₁.arm.mem.taille = g.arm.mem.taille := by
      rw [harm]
      exact Memory.taille_write bs
    have hread := exchange_upload h steps hA' hN' h1 (g := g₁) (by rw [htaille]; exact hmem) hfit
    rwa [show g₁.arm.mem.bytes a bs.length = bs by
      rw [harm]
      exact bytes_write hold (by omega)] at hread

/-- The bytes `$` and NUL to the address 1 of four bytes. -/
theorem downloads_iff_dollar :
    Downloads .zeros 0 (session (.ofBytes [1, 2, 3, 4])) (text "1") (text "2") 1 [0x24, 0] :=
  (downloads_iff .zeros 0 ⟨by decide, by decide, by decide⟩ ⟨by decide, by decide, by decide⟩
    (by decide) (by decide) (by decide)).mpr fun i hi hwrap => by
      have hlt : i < 2 := hi
      have hle : 2 ^ 32 ≤ 1 + i := hwrap
      omega

/-- Two bytes to the last 32-bit address of a larger memory: the second is stored at
address 0. -/
theorem not_downloads_last_address :
    (1 ≤ [1#8, 1#8].length ∧ 2 * [1#8, 1#8].length + 5 ≤ MAX_PACKET_SIZE ∧
        (0xFFFFFFFF : BitVec 32).toNat + [1#8, 1#8].length ≤
          memoryGetSize (memoryCreate (fun _ => 0) (2 ^ 32 + 1))) ∧
      ¬ Downloads .zeros 0 (session (memoryCreate (fun _ => 0) (2 ^ 32 + 1))) (text "ffffffff")
        (text "2") 0xFFFFFFFF [1, 1] := by
  refine ⟨⟨by decide, by decide, Nat.le_refl _⟩, fun hd => ?_⟩
  generalize hmem : memoryCreate (fun _ => 0) (2 ^ 32 + 1) = mem at hd
  have ht : mem.taille = 2 ^ 32 + 1 := by rw [← hmem]; rfl
  have h0 : mem.get 0 = 0 := by rw [← hmem]; exact memoryCreate_get (by omega)
  have hfits : (0xFFFFFFFF : BitVec 32).toNat + [1#8, 1#8].length ≤ mem.taille := by
    rw [ht]
    exact Nat.le_refl _
  have hx := hd.write_exact ⟨by decide, by decide, by decide⟩ ⟨by decide, by decide, by decide⟩
    (by decide) (by decide) hfits 0
  have hwrapped : (mem.write 0xFFFFFFFF [1, 1]).get 0 = 1 :=
    get_write_at (i := 1) (holds_of_le (g := session mem) hfits) (by decide) (by decide)
  rw [show (session mem).arm.mem = mem from rfl, hwrapped, if_neg (by decide), h0] at hx
  cases hx

end RoundTrip

end Armator.Sim
