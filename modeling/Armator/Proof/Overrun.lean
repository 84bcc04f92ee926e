import Armator.Proof.Download
import Armator.Proof.Reply

/-!
# The room for a reply

Every reply but one has a fixed length and fits in the packet. `read_memory` writes two
digits for each byte it is asked for and only stops at the end of the memory, so its reply
fits as long as the request asks for little.
-/

namespace Armator.Sim

open Lib

/-- The answer is built inside the packet, and the breakpoints stay as they are. -/
def Response.Builds (a : Response) : Prop :=
  ∃ g', a.perform = .ok g' ∧ g'.breakpoints = a.gdb.breakpoints

section Digits

variable {mem : Memory} {a : BitVec 32} {n : Nat}

/-- The first byte behind the memory faults: an induction on the bytes before it. -/
theorem readDigits_of_not_holds (ha : a.toNat ≤ mem.taille) (hold : ¬ mem.Holds a n) :
    ∃ e, (readDigits mem n a).2 = some e := by
  induction n generalizing a with
  | zero => exact absurd (fun i hi => absurd hi (Nat.not_lt_zero i)) hold
  | succ n ih =>
    rcases Nat.lt_or_ge a.toNat mem.taille with hlt | hge
    · have hread : memoryReadByte mem a 0 = .ok (0, mem.get a.toNat) :=
        memoryReadByte_of_holds fun i hi => by
          rwa [show i = 0 from Nat.lt_one_iff.mp hi, byteIndex_zero]
      have hnext : (a + 1).toNat ≤ mem.taille := by
        rw [BitVec.toNat_add]
        exact (Nat.mod_le _ _).trans hlt
      obtain ⟨e, he⟩ := ih hnext fun h1 => hold (Memory.holds_succ.mpr ⟨hlt, h1⟩)
      refine ⟨e, ?_⟩
      rw [readDigits, hread]
      dsimp only
      rw [if_pos (by decide)]
      exact he
    · obtain ⟨e, he⟩ := mem.load_of_le hge
      refine ⟨e, ?_⟩
      have hr : ¬ mem.Rejects a 1 := by
        unfold Memory.Rejects
        rw [byteIndex_zero]
        exact Nat.not_lt.mpr ha
      rw [readDigits, memoryReadByte_of_not_rejects hr, he]
      rfl

theorem holds_iff (ha : a.toNat < mem.taille) :
    mem.Holds a n ↔ 2 ^ 32 ≤ mem.taille ∨ a.toNat + n ≤ mem.taille := by
  constructor
  · intro hold
    by_contra hno
    rw [not_or, Nat.not_le, Nat.not_le] at hno
    have hlast := hold (mem.taille - a.toNat) (by omega)
    rw [byteIndex_of_lt (by omega)] at hlast
    omega
  · rintro (hbig | hle) i hi
    · rw [byteIndex_eq]
      exact (Nat.mod_lt _ (by decide)).trans_le hbig
    · rw [byteIndex_eq]
      exact (Nat.mod_le _ _).trans_lt (by omega)

end Digits

section Build

variable {h : Host} {g : Gdb} {s : List (BitVec 8)}

theorem gdbSendData_le {g' : Gdb} (h0 : 0 ∉ s) (hrun : gdbSendData g s = .ok g') :
    s.length + 5 ≤ MAX_PACKET_SIZE := by
  obtain ⟨g₁, hput, hsend⟩ := exists_of_bind hrun
  have hroom := put_le g.packet.holds_nil (i := buffer) rfl hput
  obtain ⟨p, hp, hold⟩ := put_holds (i := buffer) g.packet.holds_nil rfl hroom
  rw [hp] at hput
  cases hput
  rcases gdbSendBuffer_cases (g := { g with packet := p }) hold h0 with ⟨hs, -⟩ | ⟨-, f, hf⟩
  · exact hs
  · rw [hf] at hsend
    cases hsend

theorem builds_reply (h0 : 0 ∉ s) :
    (Response.reply g s).Builds ↔ s.length + 5 ≤ MAX_PACKET_SIZE := by
  constructor
  · rintro ⟨g', hrun, -⟩
    change lift (gdbSendData g s) = _ at hrun
    cases hsend : gdbSendData g s with
    | error f =>
      rw [hsend] at hrun
      cases hrun
    | ok g₁ => exact gdbSendData_le h0 hsend
  · intro hs
    obtain ⟨p, hp, -⟩ := gdbSendData_sent (g := g) h0 hs
    refine ⟨g.sent p s, ?_, rfl⟩
    change lift (gdbSendData g s) = _
    rw [hp]
    rfl

theorem not_builds_broken (e : Fault) : ¬ (Response.broken g s e).Builds := by
  rintro ⟨g', hrun, -⟩
  change lift (g.put buffer (s ++ [0]) >>= fun _ => .error e) = _ at hrun
  cases hput : g.put buffer (s ++ [0]) with
  | error f =>
    rw [hput] at hrun
    cases hrun
  | ok g₁ =>
    rw [hput] at hrun
    cases hrun

theorem Response.Says.builds {a : Response} (h : a.Says g) : a.Builds := by
  cases a with
  | silent g₁ => exact h.elim
  | reply g₁ s => exact (builds_reply h.2.1.not_mem).mpr h.2.2
  | broken g₁ s f => exact h.elim

/-- Every reply but the one to `m` fits. -/
theorem builds_serve {P ε : Type} (r : Reading P ε) (steps : Nat) (data : P) {c : BitVec 8}
    (hc : c ≠ char 'm') : Returns (r.serve h steps g c data) Response.Builds := by
  by_cases hk : c = char 'k'
  · subst hk
    exact returns_ok (a := Response.silent (g.record .shutdown)) ⟨_, rfl, rfl⟩
  · exact (says_serve r h steps g data hk hc).mono fun _ ha => ha.builds

end Build

/-! ## The reply to `m` -/

/-- Once the target has done its part of a request, the handler returns: what it stores lies
in the packet, and the breakpoints are those it had before it built the reply. -/
def StaysInside (h : Host) (steps : Nat) (g : Gdb) (c : BitVec 8) (data : Pointer) : Prop :=
  ∀ a, h.reading.serve h steps g c data = .ok a →
    ∃ g', respond h steps g c data = .ok g' ∧ g'.breakpoints = a.gdb.breakpoints

/-- A request for memory asks for bytes of the memory only, and for no more than fit. -/
def AsksLittle (h : Host) (g : Gdb) (data : Pointer) : Prop :=
  ∀ s, data.string = .ok s →
    let (address, size) := readMemoryArguments h s
    address.toNat < memoryGetSize g.arm.mem →
      (2 ^ 32 ≤ memoryGetSize g.arm.mem ∨
          address.toNat + size.toNat ≤ memoryGetSize g.arm.mem) ∧
        2 * size.toNat + 5 ≤ MAX_PACKET_SIZE

section Overrun

variable {h : Host} {steps : Nat} {g : Gdb} {c : BitVec 8} {data : Pointer}

theorem staysInside_iff_returns : StaysInside h steps g c data ↔
    Returns (h.reading.serve h steps g c data) Response.Builds := by
  unfold StaysInside
  rw [respond_stages]
  constructor
  · intro hall a ha
    have := hall a ha
    rwa [ha] at this
  · intro hall a ha
    rw [ha]
    exact hall a ha

theorem builds_digits {a size : BitVec 32} (ha : a.toNat < g.arm.mem.taille) :
    (Response.ofDigits g (readDigits g.arm.mem size.toNat a)).Builds ↔
      (2 ^ 32 ≤ g.arm.mem.taille ∨ a.toNat + size.toNat ≤ g.arm.mem.taille) ∧
        2 * size.toNat + 5 ≤ MAX_PACKET_SIZE := by
  rw [← holds_iff ha]
  by_cases hold : g.arm.mem.Holds a size.toNat
  · rw [readDigits_of_holds hold]
    refine (builds_reply (clean_hexBytes _).not_mem).trans ?_
    rw [length_hexBytes, Memory.length_bytes]
    exact ⟨fun hs => ⟨hold, hs⟩, And.right⟩
  · obtain ⟨e, he⟩ := readDigits_of_not_holds (Nat.le_of_lt ha) hold
    unfold Response.ofDigits
    rw [he]
    exact ⟨fun hb => absurd hb (not_builds_broken e), fun hs => absurd hs.1 hold⟩

theorem builds_readMemory :
    Returns (h.reading.readMemory g data) Response.Builds ↔ AsksLittle h g data := by
  constructor
  · intro hall s hs hlt
    have hlt : (readMemoryArguments h s).1.toNat < memoryGetSize g.arm.mem := hlt
    exact (builds_digits hlt).mp (hall _ ((readMemory_reading h g data hs).trans (if_pos hlt)))
  · intro hfits
    cases hs : data.string with
    | error f =>
      change Returns (lift data.string >>= _) _
      rw [hs]
      exact returns_error
    | ok s =>
      rw [readMemory_reading h g data hs]
      refine returns_ite (fun hlt => returns_ok ((builds_digits hlt).mpr (hfits s hs hlt))) ?_
      exact fun _ => returns_ok ((builds_reply (by decide)).mpr (by decide))

theorem serve_memory :
    h.reading.serve h steps g (char 'm') data = h.reading.readMemory g data := rfl

/-- **No reply leaves the packet** unless it is the answer to a request for more bytes of
memory than there are or than fit. -/
theorem staysInside_iff (h : Host) (steps : Nat) (g : Gdb) (c : BitVec 8) (data : Pointer) :
    StaysInside h steps g c data ↔ (c = char 'm' → AsksLittle h g data) := by
  rw [staysInside_iff_returns]
  by_cases hc : c = char 'm'
  · subst hc
    rw [serve_memory, builds_readMemory]
    exact ⟨fun hall _ => hall, fun hall => hall rfl⟩
  · exact ⟨fun _ hm => absurd hm hc, fun _ => builds_serve _ steps data hc⟩

/-- The first `0x800` bytes of a memory of 4096: the digits alone fill the packet. -/
theorem not_staysInside_half_packet :
    ¬ StaysInside .zeros 0 (session (memoryCreate (fun _ => 0) 4096)) (char 'm')
      (handlerData (text "m0,800") (char '6') (char '1') []) := by
  rw [staysInside_iff_returns, serve_memory, builds_readMemory]
  intro hfits
  obtain ⟨-, hlen⟩ := hfits (text "0,800") rfl (by decide)
  revert hlen
  decide

end Overrun

end Armator.Sim
