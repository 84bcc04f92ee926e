import Armator.Lib.Batch
import Armator.Proof.Reply
import Armator.Sim.Scanner

/-!
# The error buffer of the scanner

The bytes that are no token are collected in `buffer`, and a request for retransmission goes
out whenever it is full and when a token ends the run of such bytes. `Since` follows the
batches: what has been requested since some state, and how many bytes wait for the next
request.
-/

namespace Armator.Sim

open Lib

/-- The bytes the buffer holds besides the NUL: 1023. -/
def errorCapacity : Nat := MAX_ERROR_SIZE - 1

/-- The tokens whose actions begin with `handle_error`. -/
def Closes (t : Rule × List (BitVec 8)) : Prop := t.1 = .ack ∨ t.1 = .nack ∨ t.1 = .packet

instance (t : Rule × List (BitVec 8)) : Decidable (Closes t) := inferInstanceAs (Decidable (_ ∨ _))

/-- The bytes the rule `.` has matched. -/
def garbage (ts : List (Rule × List (BitVec 8))) : Nat := ts.countP fun t => t.1 = .other

/-- What the action of such a token does behind `handle_error`. -/
def answer (h : Host) (steps : Nat) (after : List (BitVec 8)) (data : ParserData) :
    Rule × List (BitVec 8) → Except Halt ParserData
  | (.nack, _) => lift do
    let gdb ← gdbTransmitPacket data.gdb
    .ok { data with gdb := gdb }
  | (.packet, text) => do
    let gdb ← gdbPacketAnalysis h steps data.gdb (yytext text after) text.length
    .ok { data with gdb := gdb }
  | _ => .ok data

/-- What is still owed for the bytes that were no token. -/
def ParserData.owed (data : ParserData) : List Event :=
  if data.len ≠ 0 then [.byte (char '-')] else []

/-- The requests sent since the state `start`, where nothing else has been done, and the bytes
collected. -/
structure Since (start data : ParserData) (s : Batch) : Prop where
  pending : data.len = s.pending
  gdb : data.gdb = { start.gdb with
    events := start.gdb.events ++ List.replicate s.sent (.byte (char '-')) }

section Buffer

variable {start data : ParserData} {s : Batch}

theorem handleError_idle (hd : data.len = 0) : handleError data = .ok data :=
  if_neg fun hne => hne hd

theorem handleError_eq (hroom : data.len < MAX_ERROR_SIZE) : ∃ data', handleError data = .ok data' ∧
    data'.len = 0 ∧ data'.gdb = { data.gdb with events := data.gdb.events ++ data.owed } := by
  unfold handleError ParserData.owed
  by_cases h0 : data.len ≠ 0
  · have hlt : data.len < data.buffer.size := by
      rw [data.alloc]
      exact hroom
    rw [if_pos h0, if_pos h0, ParserData.store, if_pos hlt]
    exact ⟨_, rfl, rfl, rfl⟩
  · rw [if_neg h0, if_neg h0, List.append_nil]
    exact ⟨data, rfl, not_not.mp h0, rfl⟩

theorem since_self (data : ParserData) : Since data data ⟨0, data.len⟩ := by
  refine ⟨rfl, ?_⟩
  rw [List.replicate_zero, List.append_nil]

theorem store_room (hle : data.len ≤ errorCapacity) (c : BitVec 8) :
    ∃ stored, data.store data.len c = .ok stored ∧ stored.gdb = data.gdb := by
  have hlt : data.len < data.buffer.size := by
    rw [data.alloc]
    exact Nat.lt_succ_of_le hle
  rw [ParserData.store, if_pos hlt]
  exact ⟨_, rfl, rfl⟩

theorem Since.close (h : Since start data s) (hle : s.pending ≤ errorCapacity) :
    ∃ data', handleError data = .ok data' ∧ Since start data' s.close := by
  have hlen := h.pending
  have hroom : data.len < MAX_ERROR_SIZE := by
    rw [hlen]
    exact Nat.lt_succ_of_le hle
  obtain ⟨data', hrun, h0, hgdb⟩ := handleError_eq hroom
  refine ⟨data', hrun, ?_⟩
  rw [h.gdb] at hgdb
  unfold ParserData.owed at hgdb
  unfold Batch.close
  by_cases hs : s.pending = 0
  · rw [if_neg (by omega), List.append_nil] at hgdb
    rw [if_pos hs]
    exact ⟨h0.trans hs.symm, hgdb⟩
  · rw [if_pos (by omega), List.append_assoc, ← List.replicate_succ'] at hgdb
    rw [if_neg hs]
    exact ⟨h0, hgdb⟩

theorem Since.push (h : Since start data s) (hle : s.pending ≤ errorCapacity) (c : BitVec 8) :
    ∃ data', addCharacterToError data c = .ok data' ∧
      Since start data' (s.push errorCapacity) := by
  have hlen := h.pending
  unfold Batch.push addCharacterToError
  by_cases hfull : errorCapacity ≤ s.pending
  · have hflush : data.len > MAX_ERROR_SIZE - 2 := by
      unfold errorCapacity MAX_ERROR_SIZE at hfull
      unfold MAX_ERROR_SIZE
      omega
    obtain ⟨flushed, hrun, hclosed⟩ := h.close hle
    rw [Batch.close, if_neg (by unfold errorCapacity MAX_ERROR_SIZE at hfull; omega)] at hclosed
    have h0 : flushed.len = 0 := hclosed.pending
    obtain ⟨stored, hstore, hgdb⟩ := store_room (h0.trans_le (Nat.zero_le _)) c
    rw [if_pos hflush, if_pos hfull, hrun, ok_bind]
    dsimp only
    rw [hstore]
    exact ⟨_, rfl, congrArg (· + 1) h0, hgdb.trans hclosed.gdb⟩
  · have hroom : ¬ data.len > MAX_ERROR_SIZE - 2 := by
      unfold errorCapacity MAX_ERROR_SIZE at hfull
      unfold MAX_ERROR_SIZE
      omega
    obtain ⟨stored, hstore, hgdb⟩ := store_room (hlen.trans_le hle) c
    rw [if_neg hroom, if_neg hfull, ok_bind]
    dsimp only
    rw [hstore]
    exact ⟨_, rfl, congrArg (· + 1) hlen, hgdb.trans h.gdb⟩

end Buffer

/-! ## Tokens -/

section Tokens

variable {h : Host} {steps : Nat} {start data : ParserData} {s : Batch} {k : Nat}
  {t : Rule × List (BitVec 8)} {ts : List (Rule × List (BitVec 8))}

theorem action_of_closes (after : List (BitVec 8)) (data : ParserData) (hc : Closes t) :
    action h steps after data t =
      lift (handleError data) >>= fun data => answer h steps after data t := by
  obtain ⟨rule, text⟩ := t
  cases rule with
  | ack =>
    unfold action answer
    cases handleError data <;> rfl
  | nack => exact lift_bind _ _
  | packet => rfl
  | other | dflt => rcases hc with hr | hr | hr <;> cases hr

theorem answer_keeps (after : List (BitVec 8)) (data : ParserData) (t : Rule × List (BitVec 8)) :
    Returns (answer h steps after data t) fun data' => data'.len = data.len := by
  obtain ⟨rule, text⟩ := t
  cases rule with
  | nack => exact returns_lift (returns_bind fun _ => returns_ok rfl)
  | packet => exact returns_bind fun _ => returns_ok rfl
  | ack | other | dflt => exact returns_ok rfl

theorem action_of_not_closes (h : Host) (steps : Nat) (hs : Since start data s)
    (hk : s.Counts errorCapacity k) (hc : ¬ Closes t) (after : List (BitVec 8)) :
    ∃ data' s', action h steps after data t = .ok data' ∧ Since start data' s' ∧
      s'.Counts errorCapacity (k + garbage [t]) := by
  obtain ⟨rule, text⟩ := t
  cases rule with
  | other =>
    obtain ⟨data', hrun, hs'⟩ := hs.push hk.le (text.headD 0)
    exact ⟨data', _, congrArg lift hrun, hs', hk.push (by decide)⟩
  | dflt => exact ⟨data, s, rfl, hs, hk⟩
  | ack => exact absurd (.inl rfl) hc
  | nack => exact absurd (.inr (.inl rfl)) hc
  | packet => exact absurd (.inr (.inr rfl)) hc

/-- A run of tokens that close none: an induction on their number. -/
theorem actions_of_run (h : Host) (steps : Nat) (hs : Since start data s)
    (hk : s.Counts errorCapacity k) (hrun : ∀ t ∈ ts, ¬ Closes t)
    (after : List (Rule × List (BitVec 8)) → List (BitVec 8)) :
    ∃ data' s', actions h steps after ts data = .ok data' ∧ Since start data' s' ∧
      s'.Counts errorCapacity (k + garbage ts) := by
  induction ts generalizing data s k with
  | nil => exact ⟨data, s, rfl, hs, hk⟩
  | cons t ts ih =>
    obtain ⟨data₁, s₁, h₁, hs₁, hk₁⟩ := action_of_not_closes h steps hs hk
      (hrun t List.mem_cons_self) (after (t :: ts))
    obtain ⟨data', s', h', hs', hk'⟩ := ih hs₁ hk₁ fun t ht => hrun t (List.mem_cons_of_mem _ ht)
    refine ⟨data', s', ?_, hs', ?_⟩
    · rw [actions, h₁, ok_bind, h']
    · rw [Nat.add_assoc, garbage, garbage, ← List.countP_append] at hk'
      exact hk'

/-- What an action leads to: a token that closes a run begins with an empty buffer, and any
other leaves room in it. -/
theorem returns_action {Q : ParserData → Prop} (hle : data.len ≤ errorCapacity)
    (after : List (BitVec 8)) (t : Rule × List (BitVec 8))
    (hcloses : Closes t → ∀ d s, Since data d s → d.len = 0 → Returns (answer h steps after d t) Q)
    (hopen : ¬ Closes t → ∀ d s, Since data d s → d.len ≤ errorCapacity → Q d) :
    Returns (action h steps after data t) Q := by
  have hself := since_self data
  have hcounts := Batch.counts_pending hle
  by_cases hc : Closes t
  · obtain ⟨d, hd, hs⟩ := hself.close hle
    have h0 : d.len = 0 := by
      rw [hs.pending, hcounts.close (by decide)]
    rw [action_of_closes after data hc, hd]
    exact hcloses hc d _ hs h0
  · obtain ⟨d, s, hd, hs, hk⟩ := action_of_not_closes h steps hself hcounts hc after
    rw [hd]
    exact returns_ok (hopen hc d s hs (hs.pending ▸ hk.le))

/-- One token: the length stays in bounds, and is 0 behind a token that closes a run. -/
theorem action_room (hle : data.len ≤ errorCapacity) (after : List (BitVec 8))
    (t : Rule × List (BitVec 8)) :
    Returns (action h steps after data t) fun data' =>
      data'.len ≤ errorCapacity ∧ (Closes t → data'.len = 0) := by
  refine returns_action hle after t (fun _ d s _ h0 => ?_) fun hc d s _ hroom => ?_
  · refine (answer_keeps after d t).mono fun data' hlen => ?_
    rw [hlen, h0]
    exact ⟨Nat.zero_le _, fun _ => rfl⟩
  · exact ⟨hroom, fun h => absurd h hc⟩

/-- What every token keeps all tokens keep: an induction on their number. -/
theorem actions_keep {I : ParserData → Prop}
    (hkeep : ∀ after data t, I data → Returns (action h steps after data t) I)
    (hdata : I data) (after : List (Rule × List (BitVec 8)) → List (BitVec 8))
    (ts : List (Rule × List (BitVec 8))) : Returns (actions h steps after ts data) I := by
  induction ts generalizing data with
  | nil => exact returns_ok hdata
  | cons t ts ih => exact (hkeep (after (t :: ts)) data t hdata).bind fun _ h' => ih h'

theorem actions_room (hle : data.len ≤ errorCapacity)
    (after : List (Rule × List (BitVec 8)) → List (BitVec 8))
    (ts : List (Rule × List (BitVec 8))) :
    Returns (actions h steps after ts data) fun data' => data'.len ≤ errorCapacity :=
  actions_keep (fun after _ t h => (action_room h after t).mono fun _ h' => h'.1) hle after ts

theorem actions_append (after : List (Rule × List (BitVec 8)) → List (BitVec 8))
    (ts us : List (Rule × List (BitVec 8))) (data : ParserData) :
    actions h steps after (ts ++ us) data =
      actions h steps (fun vs => after (vs ++ us)) ts data >>= actions h steps after us := by
  induction ts generalizing data with
  | nil => rfl
  | cons t ts ih =>
    rw [List.cons_append, actions, actions, bind_assoc]
    exact congrArg (action h steps _ data t >>= ·) (funext ih)

theorem len_eq_zero (h0 : start.len = 0)
    {after : List (Rule × List (BitVec 8)) → List (BitVec 8)}
    (hrun : actions h steps after ts start = .ok data) (hlast : ∀ t ∈ ts.getLast?, Closes t) :
    data.len = 0 := by
  obtain rfl | ⟨us, t, rfl⟩ := List.eq_nil_or_concat ts
  · cases hrun
    exact h0
  · rw [List.concat_eq_append] at hrun hlast
    rw [actions_append] at hrun
    obtain ⟨data₁, h₁, h₂⟩ := exists_of_bind hrun
    obtain ⟨data₂, hact, hnil⟩ := exists_of_bind h₂
    cases hnil
    have hle := actions_room (by rw [h0]; exact Nat.zero_le _) _ us data₁ h₁
    exact (action_room hle _ t data hact).2 (hlast t List.getLast?_concat)

end Tokens

/-! ## The buffer -/

/-- The next event finds room in the buffer, whichever it is: a write outside of it faults. -/
structure BufferSafe (data : ParserData) : Prop where
  len_le : data.len ≤ errorCapacity
  flush : ∃ data', handleError data = .ok data'
  add : ∀ c, ∃ data', addCharacterToError data c = .ok data'

/-- Whatever run of bytes that are no token follows, newlines apart, it is handled, and
`handle_error` has sent one request for each `errorCapacity` bytes or part of them when the run
is closed. The end of the input does no more than `handle_error`; a token goes on with its
answer. Behind either the length is 0. -/
def ReportsRuns (h : Host) (steps : Nat) (data : ParserData) : Prop :=
  ∀ run after, (∀ t ∈ run, ¬ Closes t) → ∃ data₁ data₂,
    actions h steps after run data = .ok data₁ ∧ handleError data₁ = .ok data₂ ∧
    data₂.len = 0 ∧
    data₂.gdb = { data.gdb with
      events := data.gdb.events ++
        List.replicate (garbage run ⌈/⌉ errorCapacity) (.byte (char '-')) } ∧
    Delivers data.gdb data₂.gdb
      (List.replicate (garbage run ⌈/⌉ errorCapacity) (char '-')) ∧
    ∀ after t, Closes t → action h steps after data₁ t = answer h steps after data₂ t ∧
      Returns (answer h steps after data₂ t) fun data₃ => data₃.len = 0

/-- A scanner at the start of a session. -/
def idle : ParserData :=
  ⟨session (.ofBytes []), ⟨List.replicate MAX_ERROR_SIZE 0⟩, 0, List.length_replicate⟩

section Runs

variable {h : Host} {steps : Nat} {start data : ParserData} {ts : List (Rule × List (BitVec 8))}

theorem bufferSafe_of_le (hle : data.len ≤ errorCapacity) : BufferSafe data := by
  refine ⟨hle, ?_, fun c => ?_⟩
  · obtain ⟨data', hrun, -⟩ := (since_self data).close hle
    exact ⟨data', hrun⟩
  · obtain ⟨data', hrun, -⟩ := (since_self data).push hle c
    exact ⟨data', hrun⟩

theorem reportsRuns_of_zero (h0 : data.len = 0) : ReportsRuns h steps data := by
  intro run after hrun
  have hs := since_self data
  rw [h0] at hs
  obtain ⟨data₁, s₁, h₁, hs₁, hk₁⟩ :=
    actions_of_run h steps hs (Batch.counts_pending (Nat.zero_le _)) hrun after
  obtain ⟨data₂, h₂, hs₂⟩ := hs₁.close hk₁.le
  rw [hk₁.close (by decide), Nat.zero_add] at hs₂
  have hsent : Delivers data.gdb data₂.gdb
      (List.replicate (garbage run ⌈/⌉ errorCapacity) (char '-')) := by
    have hwire := wire_map_byte (List.replicate (garbage run ⌈/⌉ errorCapacity) (char '-'))
    rw [List.map_replicate] at hwire
    exact hwire ▸ delivers_of_events (congrArg Gdb.events hs₂.gdb)
  refine ⟨data₁, data₂, h₁, h₂, hs₂.pending, hs₂.gdb, hsent, fun after t hc => ⟨?_, ?_⟩⟩
  · rw [action_of_closes after data₁ hc, h₂]
    rfl
  · refine (answer_keeps after data₂ t).mono fun data₃ hlen => ?_
    rw [hlen, hs₂.pending]

/-- **The error buffer**: it is safe after any events, and between two tokens that close a run
every run is reported. -/
theorem errors_reported {after : List (Rule × List (BitVec 8)) → List (BitVec 8)}
    (h0 : start.len = 0) (hrun : actions h steps after ts start = .ok data) :
    BufferSafe data ∧ ((∀ t ∈ ts.getLast?, Closes t) → ReportsRuns h steps data) := by
  have hle := actions_room (by rw [h0]; exact Nat.zero_le _) after ts data hrun
  exact ⟨bufferSafe_of_le hle, fun hlast => reportsRuns_of_zero (len_eq_zero h0 hrun hlast)⟩

/-- After `x+`. -/
theorem errors_reported_ack : ∃ data,
    actions .zeros 0 (fun _ => []) [(.other, text "x"), (.ack, text "+")] idle = .ok data ∧
      BufferSafe data ∧ ReportsRuns .zeros 0 data := by
  have hidle : ReportsRuns .zeros 0 idle := reportsRuns_of_zero rfl
  obtain ⟨data₁, data₂, h₁, -, -, -, -, hend⟩ :=
    hidle [(.other, text "x")] (fun _ => []) (by decide)
  have hack := (hend [] (.ack, text "+") (by decide)).1
  have hrun : actions .zeros 0 (fun _ => []) ([(.other, text "x")] ++ [(.ack, text "+")]) idle =
      .ok data₂ := by
    rw [actions_append, h₁, ok_bind, actions, hack]
    rfl
  have h := errors_reported rfl hrun
  exact ⟨data₂, hrun, h.1, h.2 (by decide)⟩

end Runs

end Armator.Sim
