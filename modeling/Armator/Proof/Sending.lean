import Armator.Lib.Returns
import Armator.Sim.GdbProtocol

/-!
# Replies

`byteSum s` is the sum of the bytes of `s` modulo 256 and `frame s` the packet with the
payload `s`. `packet.Holds s` says that `s` stands in the packet from `gdb->buffer` on: a
string stored behind it extends it, and what stands there up to a NUL is what
`gdb_send_buffer` transmits. A string that does not fit faults; a `Short` one always fits.
-/

namespace Armator.Sim

open Lib

/-- The sum of the bytes modulo 256. -/
def byteSum (s : List (BitVec 8)) : Nat := (s.map BitVec.toNat).sum % 256

/-- `$`, the payload, `#`, the checksum -/
def frame (s : List (BitVec 8)) : List (BitVec 8) :=
  char '$' :: (s ++ char '#' :: hexText 2 (byteSum s))

/-- The payload of a reply. -/
def Clean (s : List (BitVec 8)) : Prop := ∀ c ∈ s, c ≠ char '$' ∧ c ≠ char '#' ∧ c ≠ 0

instance (s : List (BitVec 8)) : Decidable (Clean s) := List.decidableBAll _ _

section Payload

variable {s t : List (BitVec 8)}

theorem clean_nil : Clean [] := fun _ hc => absurd hc List.not_mem_nil

theorem Clean.not_mem (h : Clean s) : 0 ∉ s := fun hm => (h 0 hm).2.2 rfl

theorem Clean.append (hs : Clean s) (ht : Clean t) : Clean (s ++ t) := by
  intro c hc
  rcases List.mem_append.mp hc with hc | hc
  · exact hs c hc
  · exact ht c hc

theorem clean_hexText (k v : Nat) : Clean (hexText k v) := by
  intro c hc
  obtain ⟨hlo, -, -⟩ := hex_range (isHex_of_mem_hexText hc)
  refine ⟨?_, ?_, ?_⟩
  all_goals
    rintro rfl
    revert hlo
    decide

theorem byteSum_lt (s : List (BitVec 8)) : byteSum s < 256 := Nat.mod_lt _ (by decide)

theorem length_frame (s : List (BitVec 8)) : (frame s).length = s.length + 4 := by
  unfold frame
  simp only [List.length_cons, List.length_append, length_hexText]

end Payload

/-! ## Storing strings -/

namespace Packet

variable {p : Packet} {a b s t : List (BitVec 8)} {c d : BitVec 8}

/-- The characters `s` stand in the packet from `gdb->buffer` on. -/
def Holds (p : Packet) (s : List (BitVec 8)) : Prop := ∃ c rest, p.value.cells = c :: (s ++ rest)

theorem length_cells (p : Packet) : p.value.cells.length = MAX_PACKET_SIZE := p.alloc

theorem store_append (h : p.value.cells = a ++ d :: b) (c : BitVec 8) :
    ∃ q, p.store a.length c = .ok q ∧ q.value.cells = a ++ c :: b := by
  have hlt : a.length < p.value.size := by
    rw [Block.size, h, List.length_append, List.length_cons]
    omega
  refine ⟨p.set a.length c, if_pos hlt, ?_⟩
  unfold set Block.set
  dsimp only
  rw [h, List.set_append_right _ _ (Nat.le_refl _), Nat.sub_self, List.set_cons_zero]

/-- An induction on the characters to store. -/
theorem storeAll_append (s : List (BitVec 8)) (h : p.value.cells = a ++ b)
    (hs : s.length ≤ b.length) :
    ∃ q, p.storeAll a.length s = .ok q ∧ q.value.cells = a ++ s ++ b.drop s.length := by
  induction s generalizing p a b with
  | nil => exact ⟨p, rfl, by rw [h, List.append_nil]; rfl⟩
  | cons c s ih =>
    cases b with
    | nil => exact absurd hs (by simp)
    | cons d b =>
      obtain ⟨q, hq, hcells⟩ := store_append h c
      rw [List.append_cons] at hcells
      obtain ⟨q', hq', hcells'⟩ := ih hcells (Nat.le_of_succ_le_succ hs)
      refine ⟨q', ?_, ?_⟩
      · rw [storeAll, hq, ok_bind, ← hq', List.length_append, List.length_singleton]
      · rw [hcells', List.length_cons, List.drop_succ_cons, List.append_cons a c s]

theorem storeAll_overflow (s : List (BitVec 8)) (h : p.value.cells = a ++ b)
    (hs : b.length < s.length) : ∃ f, p.storeAll a.length s = .error f := by
  induction s generalizing p a b with
  | nil => exact absurd hs (Nat.not_lt_zero _)
  | cons c s ih =>
    cases b with
    | nil =>
      have hge : ¬ a.length < p.value.size := by
        rw [Block.size, h, List.append_nil]
        omega
      rw [storeAll, store, if_neg hge]
      exact ⟨_, rfl⟩
    | cons d b =>
      obtain ⟨q, hq, hcells⟩ := store_append h c
      rw [List.append_cons] at hcells
      obtain ⟨f, hf⟩ := ih hcells (Nat.lt_of_succ_lt_succ hs)
      refine ⟨f, ?_⟩
      rw [storeAll, hq, ok_bind, ← hf, List.length_append, List.length_singleton]

theorem storeAll_two (p : Packet) (i : Nat) (s t : List (BitVec 8)) :
    p.storeAll i (s ++ t) = p.storeAll i s >>= fun q => q.storeAll (i + s.length) t := by
  induction s generalizing p i with
  | nil => rfl
  | cons c s ih =>
    rw [List.cons_append, storeAll, storeAll]
    cases p.store i c with
    | error f => rfl
    | ok q =>
      rw [ok_bind, ok_bind, ih, List.length_cons, Nat.add_right_comm, Nat.add_assoc]

theorem store_store (p : Packet) (i : Nat) (c d : BitVec 8) :
    (p.store i c >>= fun q => q.store i d) = p.store i d := by
  unfold store
  by_cases hi : i < p.value.size
  · have hi' : i < (p.set i c).value.size := by
      rw [Packet.alloc]
      rwa [p.alloc] at hi
    rw [if_pos hi, if_pos hi, ok_bind, if_pos hi']
    unfold set Block.set
    dsimp only
    congr 3
    exact List.set_set ..
  · rw [if_neg hi, if_neg hi]
    rfl

theorem holds_nil (p : Packet) : p.Holds [] := by
  obtain ⟨c, rest, h⟩ := List.exists_cons_of_length_pos (l := p.value.cells) (by
    rw [p.length_cells]
    decide)
  exact ⟨c, rest, h⟩

end Packet

section Put

variable {g : Gdb} {a b s t : List (BitVec 8)} {i : Nat}

theorem put_append (h : g.packet.value.cells = a ++ b) (hi : i = a.length)
    (hs : s.length ≤ b.length) :
    ∃ p, g.put i s = .ok { g with packet := p } ∧ p.value.cells = a ++ s ++ b.drop s.length := by
  obtain ⟨p, hp, hcells⟩ := Packet.storeAll_append s h hs
  refine ⟨p, ?_, hcells⟩
  rw [Gdb.put, hi, hp, ok_bind]

theorem put_overflow (h : g.packet.value.cells = a ++ b) (hi : i = a.length)
    (hs : b.length < s.length) : ∃ f, g.put i s = .error f := by
  obtain ⟨f, hf⟩ := Packet.storeAll_overflow s h hs
  refine ⟨f, ?_⟩
  rw [Gdb.put, hi, hf, error_bind]

theorem put_holds (h : g.packet.Holds t) (hi : i = buffer + t.length)
    (hs : i + s.length ≤ MAX_PACKET_SIZE) :
    ∃ p, g.put i s = .ok { g with packet := p } ∧ p.Holds (t ++ s) := by
  obtain ⟨c, rest, hcells⟩ := h
  have hlen := g.packet.length_cells
  rw [hcells, List.length_cons, List.length_append] at hlen
  unfold buffer at hi
  obtain ⟨p, hp, hnew⟩ := put_append (s := s) (a := c :: t) (b := rest)
    (i := i) (by rw [hcells, List.cons_append]) (by rw [hi, List.length_cons]; omega) (by omega)
  refine ⟨p, hp, c, rest.drop s.length, ?_⟩
  rw [hnew, List.cons_append, List.cons_append]

theorem put_put (g : Gdb) (i : Nat) (s : List (BitVec 8)) {t : List (BitVec 8)} (ht : t ≠ []) :
    (g.put i (s ++ [0]) >>= fun g => g.put (i + s.length) t) = g.put i (s ++ t) := by
  obtain ⟨c, t, rfl⟩ := List.exists_cons_of_ne_nil ht
  unfold Gdb.put
  rw [Packet.storeAll_two, Packet.storeAll_two]
  cases g.packet.storeAll i s with
  | error f => rfl
  | ok p =>
    have hnul : p.storeAll (i + s.length) [0] = p.store (i + s.length) 0 := by
      rw [Packet.storeAll]
      cases p.store (i + s.length) 0 <;> rfl
    have hstore := Packet.store_store p (i + s.length) 0 c
    rw [ok_bind, ok_bind, hnul, Packet.storeAll, ← hstore]
    cases p.store (i + s.length) 0 <;> rfl

theorem put_packet (g : Gdb) (i : Nat) (s : List (BitVec 8)) :
    Returns (g.put i s) fun g' => ∃ p, g' = { g with packet := p } :=
  returns_bind fun p => returns_ok ⟨p, rfl⟩

/-- Storing leaves the target as it is, so what follows may read it before. -/
theorem put_bind {β : Type} (g : Gdb) (i : Nat) (s : List (BitVec 8))
    {f f' : Gdb → Except Fault β} (hf : ∀ p, f { g with packet := p } = f' { g with packet := p }) :
    (g.put i s >>= f) = g.put i s >>= f' := by
  refine (put_packet g i s).bind_congr ?_
  rintro g' ⟨p, rfl⟩
  exact hf p

theorem put_le {g' : Gdb} (h : g.packet.Holds t) (hi : i = buffer + t.length)
    (hput : g.put i s = .ok g') : i + s.length ≤ MAX_PACKET_SIZE := by
  by_contra hs
  obtain ⟨c, rest, hcells⟩ := h
  have hlen := g.packet.length_cells
  rw [hcells, List.length_cons, List.length_append] at hlen
  unfold buffer at hi
  obtain ⟨f, hf⟩ := put_overflow (s := s) (a := c :: t) (b := rest)
    (i := i) (by rw [hcells, List.cons_append]) (by rw [hi, List.length_cons]; omega) (by omega)
  rw [hf] at hput
  cases hput

end Put

/-! ## Sending -/

/-- The state after the reply `s` was sent from the packet `packet`. -/
def Gdb.sent (g : Gdb) (packet : Packet) (s : List (BitVec 8)) : Gdb :=
  { g with packet := packet, len := s.length + 4, events := g.events ++ (frame s).map .byte }

section Send

variable {g g' : Gdb} {s t : List (BitVec 8)} {c : BitVec 8}

/-- The loop stops at the NUL: an induction on the characters before it. -/
theorem checksumLoop_eq (size : Nat) (h : 0 ∉ s) (t : List (BitVec 8)) (i : Nat)
    (check : BitVec 8) :
    checksumLoop size (s ++ 0 :: t) i check =
      .ok (i + s.length, check + BitVec.ofNat 8 (s.map BitVec.toNat).sum) := by
  induction s generalizing i check with
  | nil =>
    rw [List.nil_append, checksumLoop, if_pos rfl]
    simp
  | cons c s ih =>
    rw [List.mem_cons, not_or] at h
    rw [List.cons_append, checksumLoop, if_neg (Ne.symm h.1), ih h.2, List.map_cons,
      List.sum_cons, BitVec.ofNat_add, BitVec.ofNat_toNat, BitVec.setWidth_eq, BitVec.add_assoc,
      List.length_cons, Nat.add_right_comm, Nat.add_assoc]

/-- Up to the `#` there is always room, since the NUL behind the reply is overwritten. -/
theorem gdbSendBuffer_eq (h : g.packet.Holds (s ++ [0])) (h0 : 0 ∉ s) :
    ∃ p rest, p.value.cells = (char '$' :: (s ++ [char '#'])) ++ rest ∧
      gdbSendBuffer g = (do
        let gdb ← Gdb.put { g with packet := p } (1 + s.length + 1)
          (hexText 2 (byteSum s) ++ [0])
        let gdb ← gdb.put (1 + s.length + 3) [0]
        gdbTransmitPacket { gdb with len := 1 + s.length + 3 }) := by
  obtain ⟨c, rest, hcells⟩ := h
  rw [List.append_assoc] at hcells
  obtain ⟨p₁, h₁, hcells₁⟩ := put_append (g := g) (a := []) (i := 0) (s := [char '$'])
    (b := c :: (s ++ ([0] ++ rest))) hcells rfl (by simp)
  have hcells₁ : p₁.value.cells = char '$' :: (s ++ 0 :: rest) := hcells₁
  have hloop := checksumLoop_eq p₁.value.size h0 rest 1 0
  have hzero (x : BitVec 8) : 0 + x = x := BitVec.zero_add x
  rw [hzero] at hloop
  have hsum : (BitVec.ofNat 8 (s.map BitVec.toNat).sum).toNat = byteSum s :=
    BitVec.toNat_ofNat ..
  obtain ⟨p₂, h₂, hcells₂⟩ := put_append (g := { g with packet := p₁ }) (i := 1 + s.length)
    (a := char '$' :: s) (b := 0 :: rest) (s := [char '#']) hcells₁
    (by rw [List.length_cons, Nat.add_comm]) (by simp)
  refine ⟨p₂, rest, by rw [hcells₂]; rfl, ?_⟩
  unfold gdbSendBuffer
  rw [h₁, ok_bind]
  dsimp only
  rw [hcells₁, List.drop_succ_cons, List.drop_zero, hloop, ok_bind]
  dsimp only
  rw [h₂, ok_bind, hsum]

theorem gdbSendBuffer_cases (h : g.packet.Holds (s ++ [0])) (h0 : 0 ∉ s) :
    (s.length + 5 ≤ MAX_PACKET_SIZE ∧
      ∃ p, gdbSendBuffer g = .ok (g.sent p s) ∧ frame s <+: p.value.cells) ∨
    (MAX_PACKET_SIZE < s.length + 5 ∧ ∃ f, gdbSendBuffer g = .error f) := by
  obtain ⟨p₂, rest, hcells₂, hrun⟩ := gdbSendBuffer_eq h h0
  have hi : 1 + s.length + 1 = (char '$' :: (s ++ [char '#'])).length := by
    simp only [List.length_cons, List.length_append, List.length_nil]
    omega
  have hsize := p₂.length_cells
  rw [hcells₂, List.length_append, ← hi] at hsize
  have hdigits : (hexText 2 (byteSum s) ++ [(0 : BitVec 8)]).length = 3 := by
    rw [List.length_append, length_hexText, List.length_singleton]
  rcases Nat.lt_or_ge MAX_PACKET_SIZE (s.length + 5) with hfull | hfit
  · refine .inr ⟨hfull, ?_⟩
    obtain ⟨f, hf⟩ := put_overflow (g := { g with packet := p₂ }) hcells₂ hi
      (by rw [hdigits]; omega)
    exact ⟨f, by rw [hrun, hf, error_bind]⟩
  · refine .inl ⟨hfit, ?_⟩
    obtain ⟨p₃, h₃, hcells₃⟩ := put_append (g := { g with packet := p₂ }) hcells₂ hi
      (by rw [hdigits]; omega)
    have hcells₃ : p₃.value.cells = frame s ++ 0 :: rest.drop 3 := by
      rw [hcells₃, hdigits]
      unfold frame
      simp only [List.cons_append, List.append_assoc, List.nil_append]
    have hlen : 1 + s.length + 3 = (frame s).length := by
      rw [length_frame]
      omega
    obtain ⟨p₄, h₄, hcells₄⟩ := put_append (g := { g with packet := p₃ }) (s := [0]) hcells₃ hlen
      (by simp)
    have hfirst : frame s <+: p₄.value.cells := by
      rw [hcells₄, List.append_assoc]
      exact List.prefix_append _ _
    refine ⟨p₄, ?_, hfirst⟩
    rw [hrun, h₃, ok_bind, h₄, ok_bind, gdbTransmitPacket]
    dsimp only
    rw [Packet.alloc, if_pos (by omega), hlen, ← List.prefix_iff_eq_take.mp hfirst, length_frame]
    rfl

theorem gdbSendBuffer_sent (h : g.packet.Holds (s ++ [0])) (h0 : 0 ∉ s)
    (hs : s.length + 5 ≤ MAX_PACKET_SIZE) :
    ∃ p, gdbSendBuffer g = .ok (g.sent p s) ∧ frame s <+: p.value.cells := by
  rcases gdbSendBuffer_cases h h0 with ⟨-, hrun⟩ | ⟨hlt, -⟩
  · exact hrun
  · omega

theorem gdbSendData_sent (h0 : 0 ∉ s) (hs : s.length + 5 ≤ MAX_PACKET_SIZE) :
    ∃ p, gdbSendData g s = .ok (g.sent p s) ∧ frame s <+: p.value.cells := by
  obtain ⟨q, hq, hold⟩ := put_holds (s := s ++ [0]) g.packet.holds_nil (i := buffer) rfl (by
    rw [List.length_append, List.length_singleton, buffer]
    omega)
  obtain ⟨p, hp, hfirst⟩ := gdbSendBuffer_sent (g := { g with packet := q }) hold h0 hs
  refine ⟨p, ?_, hfirst⟩
  rw [gdbSendData, hq, ok_bind, hp]
  rfl

theorem gdbSendData_ok (g : Gdb) : ∃ p, gdbSendData g (text "OK") = .ok (g.sent p (text "OK")) := by
  obtain ⟨p, hp, -⟩ := gdbSendData_sent (g := g) (s := text "OK") (by decide) (by decide)
  exact ⟨p, hp⟩

/-- What sending does not touch. -/
def Gdb.kept (g : Gdb) : ArmCore × Int × Breakpoints :=
  (g.arm, g.targetException, g.breakpoints)

theorem put_keeps (g : Gdb) (i : Nat) (s : List (BitVec 8)) :
    Returns (g.put i s) fun g' => g'.kept = g.kept :=
  returns_bind fun _ => returns_ok rfl

theorem gdbSendBuffer_keeps (g : Gdb) :
    Returns (gdbSendBuffer g) fun g' => g'.kept = g.kept := by
  unfold gdbSendBuffer
  refine (put_keeps g _ _).bind fun g₁ h₁ => returns_bind fun x => ?_
  refine (put_keeps g₁ _ _).bind fun g₂ h₂ => (put_keeps g₂ _ _).bind fun g₃ h₃ => ?_
  refine (put_keeps g₃ _ _).bind fun g₄ h₄ => returns_ite (fun _ => ?_) fun _ => returns_error
  exact returns_ok (h₄.trans (h₃.trans (h₂.trans h₁)))

theorem gdbSendData_keeps (g : Gdb) (s : List (BitVec 8)) :
    Returns (gdbSendData g s) fun g' => g'.kept = g.kept :=
  (put_keeps g _ _).bind fun g₁ h₁ => (gdbSendBuffer_keeps g₁).mono fun _ h₂ => h₂.trans h₁

end Send

/-! ## Short replies -/

/-- The reply fits in the packet with its frame and a NUL. -/
def Short (s : List (BitVec 8)) : Prop := Clean s ∧ s.length + 5 ≤ MAX_PACKET_SIZE

instance (s : List (BitVec 8)) : Decidable (Short s) := inferInstanceAs (Decidable (_ ∧ _))

/-- The text `gdb_send_stop_reason` sends. -/
def stopText (exception : Int) : List (BitVec 8) :=
  if exception = UNDEFINED_INSTRUCTION then text "S04"
  else if exception = PREFETCH_ABORT then text "S0A"
  else if exception = DATA_ABORT then text "S0B"
  else if exception = END_SIMULATION then text "X05"
  else text "S05"

theorem short_stopText (exception : Int) : Short (stopText exception) := by
  unfold stopText
  repeat' split
  all_goals decide

theorem stopReason_sent (g : Gdb) :
    ∃ p, gdbSendStopReason g = .ok (g.sent p (stopText g.targetException)) := by
  obtain ⟨hclean, hlen⟩ := short_stopText g.targetException
  obtain ⟨p, hp, -⟩ := gdbSendData_sent (g := g) hclean.not_mem hlen
  exact ⟨p, hp⟩

/-! ## The connection -/

def Event.byte? : Event → Option (BitVec 8)
  | .byte b => some b
  | _ => none

/-- The bytes that leave before the connection is shut down. -/
def wire (es : List Event) : List (BitVec 8) := (es.takeWhile (· ≠ .shutdown)).filterMap Event.byte?

/-- From `g` to `g'` the bytes `s` were written to the connection, unless it had been shut down:
behind a shutdown `write` fails. -/
def Delivers (g g' : Gdb) (s : List (BitVec 8)) : Prop :=
  .shutdown ∉ g.events → wire g'.events = wire g.events ++ s

section Wire

variable {g g' : Gdb} {es : List Event}

theorem wire_byte (b : BitVec 8) (es : List Event) : wire (.byte b :: es) = b :: wire es := rfl

theorem wire_bytes (s : List (BitVec 8)) (es : List Event) :
    wire (s.map .byte ++ es) = s ++ wire es := by
  induction s with
  | nil => rfl
  | cons b s ih =>
    rw [List.map_cons, List.cons_append, wire_byte, ih]
    rfl

theorem wire_append {es : List Event} (h : .shutdown ∉ es) (es' : List Event) :
    wire (es ++ es') = wire es ++ wire es' := by
  unfold wire
  have hall : ∀ e ∈ es, decide (e ≠ .shutdown) = true :=
    fun e he => decide_eq_true fun hs => h (hs ▸ he)
  have hself : es.takeWhile (· ≠ .shutdown) = es := by
    rw [← List.append_nil es, List.takeWhile_append_of_pos hall]
    rfl
  rw [List.takeWhile_append_of_pos hall, List.filterMap_append, hself]

theorem delivers_of_events (h : g'.events = g.events ++ es) : Delivers g g' (wire es) := by
  intro hopen
  rw [h, wire_append hopen]

theorem wire_map_byte (s : List (BitVec 8)) : wire (s.map .byte) = s := by
  have h := wire_bytes s []
  rw [List.append_nil] at h
  exact h.trans (List.append_nil s)

end Wire

/-! ## One reply -/

/-- Exactly one reply was written, and it is what the packet now begins with. -/
def Transmits (g g' : Gdb) : Prop :=
  ∃ s, Clean s ∧ g'.events = g.events ++ (frame s).map .byte ∧ g'.len = (frame s).length ∧
    frame s <+: g'.packet.value.cells

section Reply

variable {g g' : Gdb} {s t : List (BitVec 8)} {i : Nat}

theorem transmits_sent {p : Packet} (hs : Clean s) (hp : frame s <+: p.value.cells) :
    Transmits g (g.sent p s) :=
  ⟨s, hs, rfl, (length_frame s).symm, hp⟩

theorem returns_sendBuffer (h : g.packet.Holds (s ++ [0])) (hs : Clean s) :
    Returns (gdbSendBuffer g) (Transmits g) := by
  intro g' hrun
  rcases gdbSendBuffer_cases h hs.not_mem with ⟨-, p, hp, hfirst⟩ | ⟨-, f, hf⟩
  · rw [hp] at hrun
    cases hrun
    exact transmits_sent hs hfirst
  · rw [hf] at hrun
    cases hrun

theorem returns_put (h : g.packet.Holds t) (hi : i = buffer + t.length) :
    Returns (g.put i s) fun g' => ∃ p, g' = { g with packet := p } ∧ p.Holds (t ++ s) := by
  intro g' hrun
  obtain ⟨p, hp, hold⟩ := put_holds (s := s) h hi (put_le h hi hrun)
  rw [hp] at hrun
  cases hrun
  exact ⟨p, rfl, hold⟩

theorem returns_sendData (hs : Clean s) : Returns (gdbSendData g s) (Transmits g) := by
  refine Returns.bind (returns_put g.packet.holds_nil rfl) fun g' hput => ?_
  obtain ⟨p, rfl, hold⟩ := hput
  exact returns_sendBuffer hold hs

end Reply

end Armator.Sim
