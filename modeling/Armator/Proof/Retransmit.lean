import Armator.Proof.ErrorBuffer

/-!
# Retransmission

The reply to repeat is kept only as the first `len` bytes of the packet, which the handlers
build their replies in. `LastPacket` reads the packet transmitted last off the bytes written
to the connection; a server `Remembers` if the first `len` bytes are that packet, and every
token the scanner handles keeps it so.
-/

namespace Armator.Sim

open Lib

/-! ## The last packet -/

/-- `f` is the framed packet written last, or nothing: no packet begins behind it. -/
inductive LastPacket : List Event → List (BitVec 8) → Prop where
  | none {es : List Event} : .byte (char '$') ∉ es → LastPacket es []
  | frame {es es' : List Event} {s : List (BitVec 8)} : Clean s → .byte (char '$') ∉ es' →
      LastPacket (es ++ (frame s).map .byte ++ es') (frame s)

section Separator

variable {α : Type} {x : α} {a b c d : List α}

theorem behind_last (h : a ++ x :: b = c ++ x :: d) (hb : x ∉ b) (hd : x ∉ d) : b = d := by
  obtain ⟨e, -, he⟩ | ⟨e, -, he⟩ := List.append_eq_append_iff.mp h
  · cases e with
    | nil => exact (List.cons.inj he).2
    | cons y e =>
      exact absurd ((List.cons.inj he).2 ▸ List.mem_append_right e List.mem_cons_self) hb
  · cases e with
    | nil => exact (List.cons.inj he).2.symm
    | cons y e =>
      exact absurd ((List.cons.inj he).2 ▸ List.mem_append_right e List.mem_cons_self) hd

theorem before_first (h : a ++ x :: b = c ++ x :: d) (ha : x ∉ a) (hc : x ∉ c) : a = c := by
  obtain ⟨e, he, hx⟩ | ⟨e, he, hx⟩ := List.append_eq_append_iff.mp h
  · cases e with
    | nil => rw [he, List.append_nil]
    | cons y e =>
      obtain ⟨rfl, -⟩ := List.cons.inj hx
      exact absurd (he ▸ List.mem_append_right a List.mem_cons_self) hc
  · cases e with
    | nil => rw [he, List.append_nil]
    | cons y e =>
      obtain ⟨rfl, -⟩ := List.cons.inj hx
      exact absurd (he ▸ List.mem_append_right c List.mem_cons_self) ha

end Separator

section LastPacket

variable {es es' : List Event} {f f' s t : List (BitVec 8)}

theorem LastPacket.quiet (h : LastPacket es f) (hq : .byte (char '$') ∉ es') :
    LastPacket (es ++ es') f := by
  cases h with
  | none hes => exact .none fun hm => (List.mem_append.mp hm).elim hes hq
  | frame hs hes =>
    rw [List.append_assoc]
    exact .frame hs fun hm => (List.mem_append.mp hm).elim hes hq

theorem LastPacket.again (h : LastPacket es f) : LastPacket (es ++ f.map .byte) f := by
  cases h with
  | none hes => exact (LastPacket.none hes).quiet List.not_mem_nil
  | frame hs hes =>
    rw [← List.append_nil (_ ++ List.map _ _)]
    exact .frame hs List.not_mem_nil

theorem frame_tail_dollar (hs : Clean s) : char '$' ∉ s ++ char '#' :: hexText 2 (byteSum s) := by
  intro hm
  obtain hm | hm := List.mem_append.mp hm
  · exact (hs _ hm).1 rfl
  · obtain hm | hm := List.mem_cons.mp hm
    · exact absurd hm (by decide)
    · exact (clean_hexText 2 _ _ hm).1 rfl

/-- The bytes of a frame behind its `$`, and what was written since. -/
def behind (s : List (BitVec 8)) (es : List Event) : List Event :=
  (s ++ char '#' :: hexText 2 (byteSum s)).map .byte ++ es

theorem frame_events (s : List (BitVec 8)) (es es' : List Event) :
    es ++ (frame s).map .byte ++ es' = es ++ .byte (char '$') :: behind s es' := by
  unfold frame behind
  rw [List.map_cons, List.append_assoc, List.cons_append]

theorem byte_mem {c : BitVec 8} : Event.byte c ∈ s.map .byte ↔ c ∈ s := by
  rw [List.mem_map]
  refine ⟨?_, fun hc => ⟨c, hc, rfl⟩⟩
  rintro ⟨d, hd, he⟩
  cases he
  exact hd

theorem behind_dollar (hs : Clean s) (hes : .byte (char '$') ∉ es) :
    .byte (char '$') ∉ behind s es := by
  intro hm
  obtain hm | hm := List.mem_append.mp hm
  · exact frame_tail_dollar hs (byte_mem.mp hm)
  · exact hes hm

/-- The payload ends at the first `#`. -/
theorem behind_injective (hs : Clean s) (ht : Clean t) (h : behind s es = behind t es') :
    s = t := by
  have hhash {s : List (BitVec 8)} (hs : Clean s) : Event.byte (char '#') ∉ s.map .byte :=
    fun hm => (hs _ (byte_mem.mp hm)).2.1 rfl
  unfold behind at h
  rw [List.map_append, List.map_append, List.map_cons, List.map_cons, List.append_assoc,
    List.append_assoc, List.cons_append, List.cons_append] at h
  have hinj : Function.Injective Event.byte := fun a b hab => Event.byte.inj hab
  exact hinj.list_map (before_first h (hhash hs) (hhash ht))

theorem LastPacket.unique (h : LastPacket es f) (h' : LastPacket es f') : f = f' := by
  generalize hes : es = es' at h'
  cases h with
  | none hno =>
    cases h' with
    | none => rfl
    | frame hs hq =>
      rw [frame_events] at hes
      exact absurd (hes ▸ List.mem_append_right _ List.mem_cons_self) hno
  | frame hs hq =>
    cases h' with
    | none hno =>
      rw [frame_events] at hes
      exact absurd (hes ▸ List.mem_append_right _ List.mem_cons_self) hno
    | frame ht hq' =>
      rw [frame_events, frame_events] at hes
      rw [behind_injective hs ht (behind_last hes (behind_dollar hs hq) (behind_dollar ht hq'))]

end LastPacket

/-! ## The server -/

/-- The first `len` bytes of the packet are the packet transmitted last. -/
structure Remembers (g : Gdb) : Prop where
  fits : g.len ≤ MAX_PACKET_SIZE
  last : LastPacket g.events (g.packet.value.cells.take g.len)

section Server

variable {h : Host} {steps : Nat} {g g' : Gdb} {es : List Event}

theorem remembers_init (arm : ArmCore) (packet : Packet) (junk : Nat → BitVec 32) :
    Remembers (gdbInitData arm packet junk) :=
  ⟨Nat.zero_le _, .none List.not_mem_nil⟩

theorem Transmits.remembers (ht : Transmits g g') : Remembers g' := by
  obtain ⟨s, hs, hev, hlen, hfirst⟩ := ht
  refine ⟨?_, ?_⟩
  · rw [hlen, ← g'.packet.length_cells]
    exact hfirst.length_le
  · rw [hlen, ← List.prefix_iff_eq_take.mp hfirst, hev, ← List.append_nil (_ ++ List.map _ _)]
    exact .frame hs List.not_mem_nil

theorem Remembers.quiet (hg : Remembers g) (hes : .byte (char '$') ∉ es) :
    Remembers { g with events := g.events ++ es } :=
  ⟨hg.fits, hg.last.quiet hes⟩

theorem gdbTransmitPacket_eq (hg : Remembers g) :
    gdbTransmitPacket g = .ok (g.emit (g.packet.value.cells.take g.len)) := by
  unfold gdbTransmitPacket
  rw [if_pos]
  rw [g.packet.alloc]
  exact hg.fits

theorem Remembers.again (hg : Remembers g) : Remembers (g.emit (g.packet.value.cells.take g.len)) :=
  ⟨hg.fits, hg.last.again⟩

theorem remembers_gdbPacketAnalysis (hg : Remembers g) (packet : Block (BitVec 8)) (length : Nat) :
    Returns (gdbPacketAnalysis h steps g packet length) Remembers := by
  have hack : Remembers (gdbSendAck g) := hg.quiet (by decide)
  unfold gdbPacketAnalysis
  refine returns_bind fun x => returns_ite (fun _ => ?_) fun _ => returns_ok (hg.quiet (by decide))
  refine returns_bind fun packet => returns_bind fun index => ?_
  cases hf : handler index with
  | none => exact (returns_lift (returns_sendData clean_nil)).mono fun _ ht => ht.remembers
  | some f =>
    by_cases hk : index = char 'k'
    · -- `kill_request` sends nothing
      rw [hk] at hf
      cases hf
      refine returns_ok ?_
      have hdollar : .byte (char '$') ∉ [Event.lock, .shutdown, .unlock] := by decide
      have hquiet := hack.quiet hdollar
      simpa [Gdb.record] using hquiet
    · refine (transmitting_handler hk hf h steps _ _).bind fun g' ht => returns_ok ?_
      exact ht.remembers.quiet (by decide)

end Server

/-! ## The scanner -/

/-- What holds whenever the scanner looks for the next token. -/
structure ParserData.Valid (data : ParserData) : Prop where
  room : data.len < MAX_ERROR_SIZE
  remembers : Remembers data.gdb

section Scanner

variable {h : Host} {steps : Nat} {data data' : ParserData} {after : List (BitVec 8)}

theorem owed_dollar (data : ParserData) : .byte (char '$') ∉ data.owed := by
  unfold ParserData.owed
  split
  · decide
  · exact List.not_mem_nil

theorem owed_open (data : ParserData) : .shutdown ∉ data.owed := by
  unfold ParserData.owed
  split
  · decide
  · exact List.not_mem_nil

theorem Since.remembers {start : ParserData} {s : Batch} (hs : Since start data s)
    (hg : Remembers start.gdb) : Remembers data.gdb := by
  rw [hs.gdb]
  refine hg.quiet fun hm => ?_
  cases List.eq_of_mem_replicate hm

theorem ParserData.Valid.le (hv : data.Valid) : data.len ≤ errorCapacity :=
  Nat.le_of_lt_succ hv.room

theorem valid_answer (hv : data.Valid) (t : Rule × List (BitVec 8)) :
    Returns (answer h steps after data t) ParserData.Valid := by
  obtain ⟨rule, text⟩ := t
  cases rule with
  | nack =>
    unfold answer
    rw [gdbTransmitPacket_eq hv.remembers]
    exact returns_ok ⟨hv.room, hv.remembers.again⟩
  | packet =>
    exact (remembers_gdbPacketAnalysis hv.remembers _ _).bind fun g hg => returns_ok ⟨hv.room, hg⟩
  | ack | other | dflt => exact returns_ok hv

theorem valid_action (hv : data.Valid) (t : Rule × List (BitVec 8)) :
    Returns (action h steps after data t) ParserData.Valid := by
  refine returns_action hv.le after t (fun _ d s hs h0 => ?_) fun _ d s hs hroom => ?_
  · refine valid_answer ⟨?_, hs.remembers hv.remembers⟩ t
    rw [h0]
    decide
  · exact ⟨Nat.lt_succ_of_le hroom, hs.remembers hv.remembers⟩

theorem valid_actions {after : List (Rule × List (BitVec 8)) → List (BitVec 8)} (hv : data.Valid)
    (ts : List (Rule × List (BitVec 8))) :
    Returns (actions h steps after ts data) ParserData.Valid :=
  actions_keep (fun _ _ t hv => valid_action hv t) hv after ts

/-- A `-` is answered by the packet transmitted last, behind what is still owed for bytes that
were no token, and touches neither the target nor the breakpoints. -/
def Retransmits (h : Host) (steps : Nat) (data : ParserData) : Prop :=
  ∃ f, (∀ f', LastPacket data.gdb.events f' ↔ f' = f) ∧
    ∀ after, ∃ data', action h steps after data (.nack, [char '-']) = .ok data' ∧
      data'.gdb.events = data.gdb.events ++ data.owed ++ f.map .byte ∧
      Delivers data.gdb data'.gdb (wire data.owed ++ f) ∧
      data'.gdb.arm = data.gdb.arm ∧ data'.gdb.breakpoints = data.gdb.breakpoints

theorem ParserData.Valid.retransmits (hv : data.Valid) : Retransmits h steps data := by
  refine ⟨data.gdb.packet.value.cells.take data.gdb.len, fun f' => ?_, fun after => ?_⟩
  · refine ⟨fun hl => hl.unique hv.remembers.last, ?_⟩
    rintro rfl
    exact hv.remembers.last
  · obtain ⟨data', hrun, hlen, hgdb⟩ := handleError_eq hv.room
    have hg : Remembers data'.gdb := by
      rw [hgdb]
      exact hv.remembers.quiet (owed_dollar data)
    have haction : action h steps after data (.nack, [char '-']) =
        .ok { data' with
          gdb := data'.gdb.emit (data'.gdb.packet.value.cells.take data'.gdb.len) } := by
      unfold action
      rw [hrun, ok_bind, gdbTransmitPacket_eq hg]
      rfl
    have hevents : (data'.gdb.emit (data'.gdb.packet.value.cells.take data'.gdb.len)).events =
        data.gdb.events ++ data.owed ++
          (data.gdb.packet.value.cells.take data.gdb.len).map .byte := by
      rw [hgdb]
      rfl
    refine ⟨_, haction, hevents, ?_, ?_, ?_⟩
    · rw [List.append_assoc] at hevents
      have hsent := delivers_of_events hevents
      rwa [wire_append (owed_open data), wire_map_byte] at hsent
    · rw [hgdb]
      rfl
    · rw [hgdb]
      rfl

/-- **Retransmission**: whatever tokens a new session has handled. -/
theorem retransmits_last {arm : ArmCore} {packet : Packet} {junk : Nat → BitVec 32}
    {buffer : Block (BitVec 8)} {alloc : buffer.size = MAX_ERROR_SIZE}
    {after : List (Rule × List (BitVec 8)) → List (BitVec 8)} {ts : List (Rule × List (BitVec 8))}
    (hrun : actions h steps after ts ⟨gdbInitData arm packet junk, buffer, 0, alloc⟩ = .ok data) :
    Retransmits h steps data :=
  (valid_actions ⟨Nat.zero_lt_succ _, remembers_init arm packet junk⟩ ts data hrun).retransmits

end Scanner

/-- After a request `g`. -/
theorem retransmits_last_dump : ∃ data,
    actions .zeros 0 (fun _ => []) [(.packet, packetText (text "g") (char '6') (char '7'))] idle =
      .ok data ∧ Retransmits .zeros 0 data := by
  obtain ⟨g', hg, -, -⟩ := exchange_read .zeros 0 (session (.ofBytes [])) (char '6') (char '7') []
    rfl rfl rfl
  have hrun : actions .zeros 0 (fun _ => [])
      [(.packet, packetText (text "g") (char '6') (char '7'))] idle =
        .ok { idle with gdb := g' } := by
    unfold actions action
    have hidle : handleError idle = .ok idle := if_neg (fun h0 => h0 rfl)
    rw [hidle]
    dsimp only [lift]
    rw [ok_bind]
    change ((gdbPacketAnalysis _ _ (session (.ofBytes [])) _ _ >>= _) >>= _) = _
    rw [hg]
    rfl
  exact ⟨_, hrun, retransmits_last hrun⟩

end Armator.Sim
