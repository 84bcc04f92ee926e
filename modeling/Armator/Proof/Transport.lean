import Armator.Sim.Csapp
import Armator.Sim.GdbProtocol

/-!
# Sending over a connection that takes what it likes

Whatever the calls of `write` return, the client gets the first of the bytes that were sent, each
once and in order, and it gets all of them exactly if no call fails or hangs. On a connection that
only interrupts calls, or takes a part of what it is given, it gets all of them.
-/

namespace Armator.Sim

/-- The connection takes some bytes or interrupts. -/
def Healthy (results : List WriteResult) : Prop :=
  ∀ r ∈ results, (∃ n, r = .wrote (n + 1)) ∨ r = .failed EINTR

/-- The calls that take some bytes. -/
def taking (results : List WriteResult) : Nat := results.countP fun r => r ≠ .failed EINTR

section Transport

variable {results : List WriteResult} {errno : Int} {b : BitVec 8} {buf : List (BitVec 8)}
  {bufs : List (List (BitVec 8))} {n : Nat}

/-- The client gets the first of the bytes, and all of them exactly if the call returns. -/
structure Sent.Of (sent : Sent) (buf : List (BitVec 8)) : Prop where
  first : sent.bytes <+: buf
  whole : sent.status = .returned ↔ sent.bytes = buf

theorem of_nothing (hb : buf ≠ []) {status : WritenStatus} (hs : status ≠ .returned) :
    (⟨[], results, errno, status⟩ : Sent).Of buf :=
  ⟨List.nil_prefix, iff_of_false hs hb.symm⟩

theorem Sent.Of.append {sent : Sent} (h : sent.Of buf) (taken : List (BitVec 8)) :
    ({ sent with bytes := taken ++ sent.bytes } : Sent).Of (taken ++ buf) := by
  refine ⟨(List.prefix_append_right_inj taken).2 h.first, h.whole.trans ?_⟩
  exact (List.append_right_inj taken).symm

/-- An induction on the results. -/
theorem rioWriten_of (results : List WriteResult) (errno : Int) (buf : List (BitVec 8)) :
    (rioWriten results errno buf).Of buf := by
  induction results generalizing errno buf with
  | nil =>
    cases buf with
    | nil => exact ⟨List.prefix_refl _, iff_of_true rfl rfl⟩
    | cons b buf => exact of_nothing (List.cons_ne_nil b buf) nofun
  | cons r results ih =>
    cases buf with
    | nil => exact ⟨List.prefix_refl _, iff_of_true (by simp [rioWriten]) (by simp [rioWriten])⟩
    | cons b buf =>
      cases r with
      | wrote n =>
        unfold rioWriten
        dsimp only
        split_ifs
        · exact ih errno _
        · exact of_nothing (List.cons_ne_nil b buf) nofun
        · have h := (ih errno ((b :: buf).drop (min n (buf.length + 1)))).append
            ((b :: buf).take (min n (buf.length + 1)))
          rwa [List.take_append_drop] at h
      | failed e =>
        unfold rioWriten
        split_ifs
        · exact ih e _
        · exact of_nothing (List.cons_ne_nil b buf) nofun

theorem rioWritens_of (bufs : List (List (BitVec 8))) (results : List WriteResult) (errno : Int) :
    (rioWritens results errno bufs).Of bufs.flatten := by
  induction bufs generalizing results errno with
  | nil => exact ⟨List.prefix_refl _, iff_of_true (by simp [rioWritens]) (by simp [rioWritens])⟩
  | cons buf bufs ih =>
    have hone := rioWriten_of results errno buf
    have hstuck (hs : (rioWriten results errno buf).status ≠ .returned) :
        (rioWriten results errno buf).Of (buf ++ bufs.flatten) := by
      refine ⟨hone.first.trans (List.prefix_append _ _), iff_of_false hs fun heq => ?_⟩
      have hle := hone.first.length_le
      rw [heq, List.length_append] at hle
      refine hs (hone.whole.2 (hone.first.eq_of_length ?_))
      rw [heq, List.length_append]
      omega
    unfold rioWritens
    dsimp only
    rw [List.flatten_cons]
    cases hs : (rioWriten results errno buf).status with
    | returned =>
      rw [hone.whole.1 hs]
      exact (ih _ _).append buf
    | failed | blocked => exact hstuck (by rw [hs]; exact nofun)

theorem rioWriten_healthy (errno : Int) (buf : List (BitVec 8)) (hr : Healthy results)
    (hn : buf.length ≤ taking results) :
    (rioWriten results errno buf).status = .returned ∧
      Healthy (rioWriten results errno buf).results ∧
        taking results ≤ taking (rioWriten results errno buf).results + buf.length := by
  induction results generalizing errno buf with
  | nil =>
    obtain rfl := List.length_eq_zero_iff.1 (Nat.le_zero.1 hn)
    exact ⟨rfl, hr, Nat.le_refl _⟩
  | cons r results ih =>
    obtain ⟨hfirst, hrest⟩ := List.forall_mem_cons.1 hr
    cases buf with
    | nil => simp [rioWriten, hr]
    | cons b buf =>
      rcases hfirst with ⟨n, rfl⟩ | rfl
      · have hcount : taking (.wrote (n + 1) :: results) = taking results + 1 :=
          List.countP_cons_of_pos (by simp)
        have hpos : 0 < min (n + 1) (buf.length + 1) := by omega
        have hleft : ((b :: buf).drop (min (n + 1) (buf.length + 1))).length ≤ buf.length := by
          rw [List.length_drop, List.length_cons]
          omega
        rw [hcount, List.length_cons] at hn
        obtain ⟨hs, hh, ht⟩ :=
          ih errno ((b :: buf).drop (min (n + 1) (buf.length + 1))) hrest (by omega)
        unfold rioWriten
        dsimp only
        rw [if_neg (by omega), hcount, List.length_cons]
        refine ⟨hs, hh, ?_⟩
        dsimp only
        omega
      · have hcount : taking (.failed EINTR :: results) = taking results :=
          List.countP_cons_of_neg (by simp)
        rw [hcount] at hn ⊢
        unfold rioWriten
        rw [if_pos rfl]
        exact ih EINTR (b :: buf) hrest hn

theorem rioWritens_healthy (errno : Int) (hr : Healthy results)
    (hn : bufs.flatten.length ≤ taking results) :
    (rioWritens results errno bufs).status = .returned := by
  induction bufs generalizing results errno with
  | nil => simp [rioWritens]
  | cons buf bufs ih =>
    rw [List.flatten_cons, List.length_append] at hn
    obtain ⟨hs, hh, ht⟩ := rioWriten_healthy errno buf hr (by omega)
    unfold rioWritens
    dsimp only
    rw [hs]
    exact ih _ hh (by omega)

theorem emits_events (bufs : List (List (BitVec 8))) (gdb : Gdb) :
    (bufs.foldl Gdb.emit gdb).events = gdb.events ++ bufs.flatten.map .byte := by
  induction bufs generalizing gdb with
  | nil => exact (List.append_nil _).symm
  | cons buf bufs ih =>
    rw [List.foldl_cons, ih, List.flatten_cons, List.map_append, ← List.append_assoc]
    rfl

end Transport

/-- **No byte is lost, repeated or moved**: of what the server has to send, the client gets the
first bytes, and all of them exactly if every call returns, which they do on a healthy
connection. -/
theorem emits_delivered (gdb : Gdb) (bufs : List (List (BitVec 8))) (results : List WriteResult)
    (errno : Int) : ∃ bytes, (bufs.foldl Gdb.emit gdb).events = gdb.events ++ bytes.map .byte ∧
      (rioWritens results errno bufs).bytes <+: bytes ∧
        ((rioWritens results errno bufs).status = .returned ↔
          (rioWritens results errno bufs).bytes = bytes) ∧
            (Healthy results → bytes.length ≤ taking results →
              (rioWritens results errno bufs).status = .returned) := by
  have hof := rioWritens_of bufs results errno
  exact ⟨bufs.flatten, emits_events bufs gdb, hof.first, hof.whole,
    fun hr hn => rioWritens_healthy errno hr hn⟩

end Armator.Sim
