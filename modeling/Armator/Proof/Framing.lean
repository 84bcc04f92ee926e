import Armator.Proof.Scanner
import Armator.Proof.Sending

/-!
# The checksum

What `gdb_send_buffer` writes is one packet for the scanner, with the checksum that
`gdb_packet_analysis` computes: the one stops at the NUL behind the payload, the other
three characters before the end of the text. `Accepts` is the outcome of the comparison; the
client is told of it by the `+` behind which the handler is called (`Acknowledges`), or by a `-`
and nothing else (`AsksAgain`).
-/

namespace Armator.Sim

open Lib

/-- The text of a packet with the payload and the two digits. -/
def packetText (payload : List (BitVec 8)) (x y : BitVec 8) : List (BitVec 8) :=
  char '$' :: (payload ++ [char '#', x, y])

/-- `gdb_packet_analysis` finds the checksum right. -/
def Accepts (h : Host) (text after : List (BitVec 8)) : Prop :=
  ∃ i, packetCheck h (yytext text after) text.length = .ok (i, true)

section Check

variable {h : Host} {b : Block (BitVec 8)} {a s t payload after : List (BitVec 8)} {x y : BitVec 8}

theorem length_packetText (payload : List (BitVec 8)) (x y : BitVec 8) :
    (packetText payload x y).length = payload.length + 4 := by
  unfold packetText
  simp only [List.length_cons, List.length_append, List.length_nil]

/-- The sum of the characters of a part of a block: an induction on the part. -/
theorem foldlM_load (s : List (BitVec 8)) (hb : b.cells = a ++ s ++ t) (check : BitVec 8) :
    (List.range' a.length s.length).foldlM (fun check i => do
      let c ← b.load i
      .ok (check + c)) check =
      (.ok (check + BitVec.ofNat 8 (s.map BitVec.toNat).sum) : Except Fault (BitVec 8)) := by
  induction s generalizing a check with
  | nil =>
    rw [List.length_nil, List.range'_zero, List.foldlM_nil, pure_eq_ok]
    simp
  | cons c s ih =>
    have hlt : a.length < b.size := by
      rw [Block.size, hb]
      simp only [List.length_append, List.length_cons]
      omega
    have hload : b.load a.length = .ok c := by
      rw [Block.load_of_lt hlt, Block.get, hb, List.append_assoc, List.getD_append_right _ _ _ _
        (Nat.le_refl _), Nat.sub_self]
      rfl
    have hnext := ih (a := a ++ [c]) (by rw [hb, List.append_cons a c s]) (check + c)
    rw [List.length_append, List.length_singleton] at hnext
    rw [List.length_cons, List.range'_succ, List.foldlM_cons, hload, ok_bind, ok_bind, hnext,
      List.map_cons, List.sum_cons, BitVec.ofNat_add, BitVec.ofNat_toNat, BitVec.setWidth_eq,
      BitVec.add_assoc]

theorem hex_ne_zero (hx : isHex x = true) : x ≠ 0 := by
  rintro rfl
  cases hx

/-- The comparison is made right behind the payload, with the payload's sum. -/
theorem packetCheck_eq (h : Host) (payload after : List (BitVec 8)) (hx : isHex x = true)
    (hy : isHex y = true) :
    packetCheck h (yytext (packetText payload x y) after) (packetText payload x y).length =
      .ok (payload.length + 1, decide (hexVal [x, y] = byteSum payload)) := by
  have hdigits : ∀ c ∈ [x, y], isHex c = true := by
    intro c hc
    rcases List.mem_cons.mp hc with rfl | hc
    · exact hx
    · rw [List.mem_singleton.mp hc]
      exact hy
  have hcells : (yytext (packetText payload x y) after).cells =
      [char '$'] ++ payload ++ (char '#' :: x :: y :: 0 :: after) := by
    unfold yytext packetText
    simp
  have hsum := foldlM_load payload hcells 0
  have hzero (v : BitVec 8) : 0 + v = v := BitVec.zero_add v
  have hpointer : (⟨yytext (packetText payload x y) after, payload.length + 1 + 1⟩ : Pointer).cells
      = [x, y] ++ 0 :: after := by
    rw [Pointer.cells, hcells, List.drop_append, List.length_append, List.length_singleton,
      Nat.add_comm 1, Nat.add_sub_cancel_left, List.drop_of_length_le (by simp)]
    rfl
  have hstring := Pointer.string_eq hpointer fun hm => hex_ne_zero (hdigits 0 hm) rfl
  have hscan : sscanf [.hex none] [x, y] = [(hexVal [x, y] : Int)] := by
    have := scanHex_digits (List.cons_ne_nil x [y]) hdigits ends_nil
    rw [List.append_nil] at this
    rw [sscanf, this]
    rfl
  have hlt : hexVal [x, y] < 256 := hexVal_lt [x, y]
  have hgiven : h.assigned 32 [(hexVal [x, y] : Int)] 0 .analysisGiven =
      BitVec.ofNat 32 (hexVal [x, y]) := h.fit_ofNat (by omega)
  have hmax : max 1 (payload.length + 4 - 3) = payload.length + 1 := by omega
  unfold packetCheck
  rw [length_packetText, Nat.add_sub_cancel]
  rw [List.length_singleton] at hsum
  rw [hsum, ok_bind, hzero]
  dsimp only
  rw [hmax, hstring, ok_bind, hscan, hgiven]
  refine congrArg Except.ok (Prod.ext rfl (decide_eq_decide.mpr ?_))
  have hbyte := byteSum_lt payload
  rw [← BitVec.toNat_inj, BitVec.toNat_setWidth, BitVec.toNat_ofNat, BitVec.toNat_ofNat]
  unfold byteSum at hbyte ⊢
  omega

end Check

/-! ## Analysing a packet -/

/-- A new session on a processor with the given memory and zeros everywhere else. -/
def session (mem : Memory) : Gdb :=
  gdbInitData ⟨0, registersCreate, mem, []⟩ (.ofChars [] (by decide)) fun _ => 0

/-- The data a handler gets: the payload without its first byte, up to a NUL on the `#`. -/
def handlerData (payload : List (BitVec 8)) (x y : BitVec 8) (after : List (BitVec 8)) : Pointer :=
  ⟨⟨char '$' :: (payload ++ 0 :: x :: y :: 0 :: after)⟩, 2⟩

/-- The state in which a handler starts. -/
def Gdb.begun (g : Gdb) : Gdb := (gdbSendAck g).record .lock

/-- What becomes of an accepted packet: it gets `+` and goes to its handler, the lock held
around it, or gets an empty reply if it has none. -/
def handed (h : Host) (steps : Nat) (g : Gdb) (payload : List (BitVec 8)) (data : Pointer) :
    Except Halt Gdb :=
  match handler (payload.headD 0) with
  | some f => do
    let g ← f h steps g.begun data
    .ok (g.record .unlock)
  | none => lift (gdbSendData (gdbSendAck g) [])

section Analysis

variable {h : Host} {steps : Nat} {g : Gdb} {payload after : List (BitVec 8)} {x y : BitVec 8}

theorem handlerData_cells (c : BitVec 8) (s : List (BitVec 8)) (x y : BitVec 8)
    (after : List (BitVec 8)) :
    (handlerData (c :: s) x y after).cells = s ++ 0 :: x :: y :: 0 :: after := rfl

theorem handed_some {f : Handler} (hf : handler (payload.headD 0) = some f) (data : Pointer) :
    handed h steps g payload data =
      (f h steps g.begun data >>= fun g => .ok (g.record .unlock)) := by
  rw [handed, hf]

theorem handed_none (hf : handler (payload.headD 0) = none) (data : Pointer) :
    handed h steps g payload data = lift (gdbSendData (gdbSendAck g) []) := by
  rw [handed, hf]

theorem gdbPacketAnalysis_rejected (hx : isHex x = true) (hy : isHex y = true)
    (hne : hexVal [x, y] ≠ byteSum payload) :
    gdbPacketAnalysis h steps g (yytext (packetText payload x y) after)
      (packetText payload x y).length = .ok (gdbRequireRetransmission g) := by
  unfold gdbPacketAnalysis
  rw [packetCheck_eq h payload after hx hy, decide_eq_false hne]
  rfl

theorem gdbPacketAnalysis_accepted (hx : isHex x = true) (hy : isHex y = true)
    (heq : hexVal [x, y] = byteSum payload) :
    gdbPacketAnalysis h steps g (yytext (packetText payload x y) after)
        (packetText payload x y).length =
      handed h steps g payload (handlerData payload x y after) := by
  have hcells : yytext (packetText payload x y) after =
      ⟨char '$' :: payload ++ char '#' :: x :: y :: 0 :: after⟩ := by
    unfold yytext packetText
    simp
  have hstore : (yytext (packetText payload x y) after).store (payload.length + 1) 0 =
      .ok ⟨char '$' :: (payload ++ 0 :: x :: y :: 0 :: after)⟩ := by
    rw [hcells, Block.store_of_lt (by simp [Block.size]), Block.set]
    dsimp only
    rw [← List.length_cons (a := char '$'), List.set_append_right _ _ (Nat.le_refl _),
      Nat.sub_self, List.set_cons_zero, List.cons_append]
  have hload : (⟨char '$' :: (payload ++ 0 :: x :: y :: 0 :: after)⟩ : Block (BitVec 8)).load 1 =
      .ok (payload.headD 0) := by
    rw [Block.load_of_lt (by simp [Block.size])]
    cases payload with
    | nil => rfl
    | cons c s => rfl
  unfold gdbPacketAnalysis
  rw [packetCheck_eq h payload after hx hy, decide_eq_true heq]
  dsimp only [lift]
  rw [ok_bind]
  dsimp only
  rw [if_pos rfl, hstore]
  dsimp only
  rw [ok_bind, hload]
  dsimp only
  rw [ok_bind]
  rfl

end Analysis

/-! ## Framing and checking -/

section Agreement

variable {h : Host} {payload after : List (BitVec 8)} {x y : BitVec 8}

theorem accepts_iff (hx : isHex x = true) (hy : isHex y = true) :
    Accepts h (packetText payload x y) after ↔ hexVal [x, y] = byteSum payload := by
  unfold Accepts
  rw [packetCheck_eq h payload after hx hy]
  refine ⟨?_, fun he => ⟨_, by rw [decide_eq_true he]⟩⟩
  rintro ⟨i, hi⟩
  exact of_decide_eq_true (Prod.mk.inj (Except.ok.inj hi)).2

theorem hexText_two (v : Nat) : hexText 2 v = [hexDigit (v / 16 % 16), hexDigit (v % 16)] := rfl

theorem frame_eq (payload : List (BitVec 8)) : ∃ x y, frame payload = packetText payload x y ∧
    isHex x = true ∧ isHex y = true ∧ hexVal [x, y] = byteSum payload := by
  refine ⟨_, _, rfl, ?_, ?_, ?_⟩
  · exact isHex_hexDigit (Nat.mod_lt _ (by decide))
  · exact isHex_hexDigit (Nat.mod_lt _ (by decide))
  · rw [← hexText_two]
    exact hexVal_hexText_of_lt (byteSum_lt payload)

theorem isPacket_packetText (hp : ∀ c ∈ payload, c ≠ char '$' ∧ c ≠ char '#')
    (hx : isHex x = true) (hy : isHex y = true) : IsPacket (packetText payload x y) :=
  ⟨payload, x, y, rfl, hp, hx, hy⟩

theorem Clean.plain (hp : Clean payload) : ∀ c ∈ payload, c ≠ char '$' ∧ c ≠ char '#' :=
  fun c hc => ⟨(hp c hc).1, (hp c hc).2.1⟩

/-- `gdb_packet_analysis` hands the packet over. -/
def Acknowledges (h : Host) (payload : List (BitVec 8)) (x y : BitVec 8)
    (after : List (BitVec 8)) : Prop :=
  ∀ steps g, gdbPacketAnalysis h steps g (yytext (packetText payload x y) after)
      (packetText payload x y).length =
    handed h steps g payload (handlerData payload x y after)

/-- `gdb_packet_analysis` writes `-` and does nothing else. -/
def AsksAgain (h : Host) (payload : List (BitVec 8)) (x y : BitVec 8)
    (after : List (BitVec 8)) : Prop :=
  ∀ steps g, gdbPacketAnalysis h steps g (yytext (packetText payload x y) after)
      (packetText payload x y).length = .ok (gdbRequireRetransmission g)

/-- A reply is transmitted as its frame, one packet that the receiver accepts. -/
def SendsAcceptedFrame (h : Host) (g : Gdb) (payload : List (BitVec 8)) : Prop :=
  ∃ g' x y, gdbSendBuffer g = .ok g' ∧ g'.events = g.events ++ (frame payload).map .byte ∧
    frame payload = packetText payload x y ∧
    scanner.tokens (frame payload) = [(.packet, frame payload)] ∧
    ∀ after, Accepts h (frame payload) after ∧ Acknowledges h payload x y after

/-- **Framing and checking agree**: what is sent is accepted, and what is accepted has the
checksum of its payload. -/
theorem framing_agrees (h : Host) :
    (∀ g payload, Clean payload → g.packet.Holds (payload ++ [0]) →
      payload.length + 5 ≤ MAX_PACKET_SIZE → SendsAcceptedFrame h g payload) ∧
    ∀ payload x y after, (∀ c ∈ payload, c ≠ char '$' ∧ c ≠ char '#') → isHex x = true →
      isHex y = true →
      (Accepts h (packetText payload x y) after ↔ hexVal [x, y] = byteSum payload) ∧
      (hexVal [x, y] = byteSum payload → Acknowledges h payload x y after) ∧
      (hexVal [x, y] ≠ byteSum payload → AsksAgain h payload x y after) := by
  refine ⟨fun g payload hclean hold hfit => ?_, fun payload x y after _ hx hy => ?_⟩
  · obtain ⟨p, hrun, -⟩ := gdbSendBuffer_sent hold hclean.not_mem hfit
    obtain ⟨x, y, hframe, hx, hy, hsum⟩ := frame_eq payload
    refine ⟨g.sent p payload, x, y, hrun, rfl, hframe, ?_, fun after => ⟨?_, fun _ _ => ?_⟩⟩
    · rw [hframe]
      exact tokens_packet (isPacket_packetText hclean.plain hx hy)
    · rw [hframe]
      exact (accepts_iff hx hy).mpr hsum
    · exact gdbPacketAnalysis_accepted hx hy hsum
  · exact ⟨accepts_iff hx hy, fun heq _ _ => gdbPacketAnalysis_accepted hx hy heq,
      fun hne _ _ => gdbPacketAnalysis_rejected hx hy hne⟩

/-- `OK` is sent as `$OK#9a`; `9A` is as good, and `9B` is not. -/
theorem framing_agrees_ok :
    SendsAcceptedFrame .zeros (gdbInitData ⟨0, registersCreate, .ofBytes [], []⟩
      (.ofChars (0 :: (text "OK" ++ [0])) (by decide)) fun _ => 0) (text "OK") ∧
    Acknowledges .zeros (text "OK") (char '9') (char 'A') [] ∧
    AsksAgain .zeros (text "OK") (char '9') (char 'B') [] := by
  refine ⟨(framing_agrees .zeros).1 _ _ (by decide) ⟨0, _, List.cons_append⟩ (by decide), ?_, ?_⟩
  · exact ((framing_agrees .zeros).2 _ _ _ _ (by decide) (by decide) (by decide)).2.1 (by decide)
  · exact ((framing_agrees .zeros).2 _ _ _ _ (by decide) (by decide) (by decide)).2.2 (by decide)

end Agreement

/-! ## Exchanges -/

section Exchange

variable {h : Host} {steps : Nat} {g : Gdb}

/-- Every packet with the payload `request` gets `+` and the one reply, and leads to a
state with `Q`. -/
def Exchange (h : Host) (steps : Nat) (g : Gdb) (request reply : List (BitVec 8))
    (Q : Gdb → Prop) : Prop :=
  ∀ x y after, isHex x = true → isHex y = true → hexVal [x, y] = byteSum request →
    ∃ g', gdbPacketAnalysis h steps g (yytext (packetText request x y) after)
        (packetText request x y).length = .ok g' ∧
      g'.events = g.events ++ .byte (char '+') :: .lock :: (frame reply).map .byte ++ [.unlock] ∧
      Q g'

theorem exchange_of_handler {c : BitVec 8} {s reply : List (BitVec 8)} {f : Handler}
    {Q : Gdb → Prop} (hf : handler c = some f)
    (hrun : ∀ data rest, data.cells = s ++ 0 :: rest → ∃ (g₁ : Gdb) (p : Packet),
      f h steps g.begun data = .ok (g₁.sent p reply) ∧ g₁.events = g.begun.events ∧
      Q ((g₁.sent p reply).record .unlock)) :
    Exchange h steps g (c :: s) reply Q := by
  intro x y after hx hy heq
  obtain ⟨g₁, p, hok, hev, hQ⟩ := hrun _ _ (handlerData_cells c s x y after)
  refine ⟨(g₁.sent p reply).record .unlock, ?_, ?_, hQ⟩
  · have hhandler : handler ((c :: s).headD 0) = some f := hf
    rw [gdbPacketAnalysis_accepted hx hy heq, handed_some hhandler, hok, ok_bind]
  · change g₁.events ++ (frame reply).map .byte ++ [.unlock] = _
    rw [hev]
    change g.events ++ [.byte (char '+')] ++ [.lock] ++ _ ++ _ = _
    simp

theorem Exchange.mono {request reply : List (BitVec 8)} {P Q : Gdb → Prop}
    (he : Exchange h steps g request reply P) (hpq : ∀ g', P g' → Q g') :
    Exchange h steps g request reply Q := by
  intro x y after hx hy heq
  obtain ⟨g', hrun, hev, hP⟩ := he x y after hx hy heq
  exact ⟨g', hrun, hev, hpq g' hP⟩

theorem Exchange.and {request reply : List (BitVec 8)} {P Q : Gdb → Prop}
    (hp : Exchange h steps g request reply P) (hq : Exchange h steps g request reply Q) :
    Exchange h steps g request reply fun g' => P g' ∧ Q g' := by
  intro x y after hx hy heq
  obtain ⟨g', hrun, hev, hP⟩ := hp x y after hx hy heq
  obtain ⟨g₂, hrun₂, -, hQ⟩ := hq x y after hx hy heq
  rw [hrun] at hrun₂
  cases hrun₂
  exact ⟨g', hrun, hev, hP, hQ⟩

theorem Exchange.outcome {request reply : List (BitVec 8)} {Q : Gdb → Prop}
    (he : Exchange h steps g request reply Q) : ∃ g', Q g' := by
  obtain ⟨x, y, -, hx, hy, heq⟩ := frame_eq request
  obtain ⟨g', -, -, hQ⟩ := he x y [] hx hy heq
  exact ⟨g', hQ⟩

end Exchange

end Armator.Sim
