import Armator.Proof.Retransmit

/-!
# What the other side hears

A session writes bytes; the other side cuts them into acks, nacks and packets with the same
rules. `Utterance` is what is written at once, `heard` what the other side makes of it, and
`traffic` says from the input alone which kinds of tokens that is.
-/

namespace Armator.Sim

open Lib

/-! ## Utterances -/

inductive Utterance where
  | ack
  | nack
  /-- The last packet again, or the answer to a request that has no handler. -/
  | packet (s : List (BitVec 8))
  /-- The answer of a handler. -/
  | served (s : List (BitVec 8))
  | killed

def Utterance.events : Utterance → List Event
  | ack => [.byte (char '+')]
  | nack => [.byte (char '-')]
  | packet s => (frame s).map .byte
  | served s => .lock :: (frame s).map .byte ++ [.unlock]
  | killed => [.lock, .shutdown, .unlock]

def Utterance.Plain : Utterance → Prop
  | packet s => Clean s
  | served s => Clean s
  | _ => True

def spoken (us : List Utterance) : List Event := us.flatMap Utterance.events

def heard : List Utterance → List (Rule × List (BitVec 8))
  | [] => []
  | .ack :: us => (.ack, [char '+']) :: heard us
  | .nack :: us => (.nack, [char '-']) :: heard us
  | .packet s :: us => (.packet, frame s) :: heard us
  | .served s :: us => (.packet, frame s) :: heard us
  | .killed :: _ => []

section Utterances

variable {us : List Utterance} {s : List (BitVec 8)}

theorem spoken_cons (u : Utterance) (us : List Utterance) :
    spoken (u :: us) = u.events ++ spoken us := List.flatMap_cons

theorem spoken_append (us us' : List Utterance) : spoken (us ++ us') = spoken us ++ spoken us' :=
  List.flatMap_append

theorem isPacket_frame (hs : Clean s) : IsPacket (frame s) := by
  obtain ⟨x, y, hf, hx, hy, -⟩ := frame_eq s
  rw [hf]
  exact isPacket_packetText hs.plain hx hy

theorem tokens_frame (hs : Clean s) (r : List (BitVec 8)) :
    scanner.tokens (frame s ++ r) = (.packet, frame s) :: scanner.tokens r := by
  have hp := isPacket_frame hs
  rw [Lexer.tokens_append (separate_packet hp r), tokens_packet hp]
  rfl

theorem tokens_byte {c : BitVec 8} {rule : Rule} (hc : c ≠ char '$')
    (ht : scanner.tokens [c] = [(rule, [c])]) (r : List (BitVec 8)) :
    scanner.tokens (c :: r) = (rule, [c]) :: scanner.tokens r := by
  rw [← List.singleton_append, Lexer.tokens_append (separate_single hc r), ht]
  rfl

theorem tokens_ack : scanner.tokens [char '+'] = [(.ack, [char '+'])] :=
  Lexer.tokens_of_accepts (by decide) (by decide)

theorem tokens_nack : scanner.tokens [char '-'] = [(.nack, [char '-'])] :=
  Lexer.tokens_of_accepts (by decide) (by decide)

theorem tokens_spoken (hus : ∀ u ∈ us, u.Plain) : scanner.tokens (wire (spoken us)) = heard us := by
  induction us with
  | nil => exact Lexer.tokens_nil
  | cons u us ih =>
    have hu : u.Plain := hus u List.mem_cons_self
    have hrest := ih fun u hu => hus u (List.mem_cons_of_mem _ hu)
    rw [spoken_cons]
    cases u with
    | ack =>
      change scanner.tokens (char '+' :: wire (spoken us)) = _
      rw [tokens_byte (by decide) tokens_ack, hrest, heard]
    | nack =>
      change scanner.tokens (char '-' :: wire (spoken us)) = _
      rw [tokens_byte (by decide) tokens_nack, hrest, heard]
    | packet s =>
      change scanner.tokens (wire ((frame s).map .byte ++ spoken us)) = _
      rw [wire_bytes, tokens_frame hu, hrest, heard]
    | served s =>
      change scanner.tokens (wire ((frame s).map .byte ++ [.unlock] ++ spoken us)) = _
      rw [List.append_assoc, wire_bytes, tokens_frame hu]
      change _ :: scanner.tokens (wire (spoken us)) = _
      rw [hrest, heard]
    | killed => exact Lexer.tokens_nil

end Utterances

/-! ## What the input asks for -/

/-- The two digits of a packet are the sum of its payload. -/
def RightSum (p : List (BitVec 8)) : Prop :=
  hexVal (p.drop (p.length - 2)) = byteSum ((p.drop 1).take (p.length - 4))

instance (p : List (BitVec 8)) : Decidable (RightSum p) := inferInstanceAs (Decidable (_ = _))

/-- What `handle_error` writes for `n` pending bytes. -/
def owes (n : Nat) : List Rule := if n ≠ 0 then [.nack] else []

/-- What is heard for the tokens of an input, up to a kill request; `n` bytes that are no token
are pending, and `sent` says that there is a packet to send again. -/
def traffic : Nat → Bool → List (Rule × List (BitVec 8)) → List Rule
  | n, _, [] => owes n
  | n, sent, (.ack, _) :: ts => owes n ++ traffic 0 sent ts
  | n, sent, (.nack, _) :: ts => owes n ++ ((if sent then [.packet] else []) ++ traffic 0 sent ts)
  | n, sent, (.packet, p) :: ts =>
    owes n ++
      if RightSum p then
        .ack :: if p.getD 1 0 = char 'k' then [] else .packet :: traffic 0 true ts
      else .nack :: traffic 0 sent ts
  | n, sent, (.other, _) :: ts =>
    if n > MAX_ERROR_SIZE - 2 then .nack :: traffic 1 sent ts else traffic (n + 1) sent ts
  | n, sent, (.dflt, _) :: ts => traffic n sent ts

/-- There is a packet to send again. -/
def Gdb.hasSent (g : Gdb) : Bool := g.len ≠ 0

/-- What is said for a request. -/
structure Speaks (g g' : Gdb) (us : List Utterance) : Prop where
  plain : ∀ u ∈ us, u.Plain
  events : g'.events = g.events ++ spoken us

section Requests

variable {h : Host} {steps : Nat} {g g' : Gdb} {payload after s : List (BitVec 8)} {x y : BitVec 8}

theorem rightSum_packetText :
    RightSum (packetText payload x y) ↔ hexVal [x, y] = byteSum payload := by
  have hdigits : (packetText payload x y).drop (payload.length + 4 - 2) = [x, y] := by
    change (char '$' :: (payload ++ [char '#', x, y])).drop (payload.length + 1 + 1) = _
    rw [List.drop_succ_cons, List.drop_append, List.drop_of_length_le (Nat.le_succ _)]
    simp
  have hpayload : ((packetText payload x y).drop 1).take (payload.length + 4 - 4) = payload := by
    change (payload ++ [char '#', x, y]).take payload.length = _
    rw [List.take_left]
  rw [RightSum, length_packetText, hdigits, hpayload]

theorem kill_packetText :
    (packetText payload x y).getD 1 0 = char 'k' ↔ payload.headD 0 = char 'k' := by
  cases payload with
  | nil =>
    change char '#' = char 'k' ↔ (0 : BitVec 8) = char 'k'
    decide
  | cons c s => exact Iff.rfl

theorem Transmits.hasSent (ht : Transmits g g') : g'.hasSent = true := by
  obtain ⟨s, -, -, hlen, -⟩ := ht
  refine decide_eq_true ?_
  rw [hlen, length_frame]
  exact Nat.succ_ne_zero _

/-- A kill request is acknowledged; then the connection is shut down. -/
theorem speaks_killed (hx : isHex x = true) (hy : isHex y = true)
    (heq : hexVal [x, y] = byteSum payload) (hk : payload.headD 0 = char 'k') :
    Returns (gdbPacketAnalysis h steps g (yytext (packetText payload x y) after)
      (packetText payload x y).length) fun g' => Speaks g g' [.ack, .killed] := by
  have hf : handler (payload.headD 0) = some killRequest := by rw [hk]; rfl
  rw [gdbPacketAnalysis_accepted hx hy heq, handed_some hf]
  refine returns_ok ⟨by simp [Utterance.Plain], ?_⟩
  change g.events ++ [_] ++ [_] ++ [_] ++ [_] = _
  simp [spoken, Utterance.events]

theorem speaks_answered (hx : isHex x = true) (hy : isHex y = true)
    (heq : hexVal [x, y] = byteSum payload) (hk : payload.headD 0 ≠ char 'k') :
    Returns (gdbPacketAnalysis h steps g (yytext (packetText payload x y) after)
        (packetText payload x y).length) fun g' =>
      (∃ s, Speaks g g' [.ack, .packet s] ∨ Speaks g g' [.ack, .served s]) ∧
        g'.hasSent = true := by
  rw [gdbPacketAnalysis_accepted hx hy heq]
  cases hf : handler (payload.headD 0) with
  | none =>
    rw [handed_none hf]
    refine (returns_lift (returns_sendData clean_nil)).mono fun g' ht => ?_
    have hsent := ht.hasSent
    obtain ⟨s, hs, hev, -⟩ := ht
    refine ⟨⟨s, .inl ⟨?_, ?_⟩⟩, hsent⟩
    · simpa [Utterance.Plain] using hs
    · rw [hev]
      change g.events ++ [_] ++ _ = _
      simp [spoken, Utterance.events]
  | some f =>
    rw [handed_some hf]
    refine (transmitting_handler hk hf h steps g.begun _).bind fun g₁ ht => returns_ok ?_
    have hsent := ht.hasSent
    obtain ⟨s, hs, hev, -⟩ := ht
    refine ⟨⟨s, .inr ⟨?_, ?_⟩⟩, hsent⟩
    · simpa [Utterance.Plain] using hs
    · change g₁.events ++ [_] = _
      rw [hev]
      change g.events ++ [_] ++ [_] ++ _ ++ _ = _
      simp [spoken, Utterance.events]

end Requests

/-! ## Sessions -/

/-- A token, with what is said for it; what is heard later is heard behind it. -/
structure Hears (data data' : ParserData) (t : Rule × List (BitVec 8)) (us : List Utterance) :
    Prop where
  valid : data'.Valid
  speaks : Speaks data.gdb data'.gdb us
  kinds : ∀ ts us', (heard us').map Prod.fst = traffic data'.len data'.gdb.hasSent ts →
    (heard (us ++ us')).map Prod.fst = traffic data.len data.gdb.hasSent (t :: ts)

/-- What `handle_error` says. -/
def ParserData.owedWords (data : ParserData) : List Utterance :=
  if data.len ≠ 0 then [.nack] else []

section Sessions

variable {h : Host} {steps : Nat} {data data' data₁ : ParserData} {after : List (BitVec 8)}
  {us us' : List Utterance} {g g₁ g' : Gdb}

theorem Speaks.append (hs : Speaks g g₁ us) (hs' : Speaks g₁ g' us') :
    Speaks g g' (us ++ us') := by
  refine ⟨fun u hu => ?_, ?_⟩
  · rcases List.mem_append.1 hu with hu | hu
    · exact hs.plain u hu
    · exact hs'.plain u hu
  · rw [hs'.events, hs.events, spoken_append, List.append_assoc]

theorem speaks_owed (hgdb : data₁.gdb = { data.gdb with events := data.gdb.events ++ data.owed }) :
    Speaks data.gdb data₁.gdb data.owedWords := by
  refine ⟨fun u hu => ?_, ?_⟩
  · unfold ParserData.owedWords at hu
    split at hu
    · rw [List.mem_singleton.1 hu]
      trivial
    · cases hu
  · rw [hgdb]
    unfold ParserData.owed ParserData.owedWords
    split <;> rfl

theorem heard_owed (data : ParserData) (us : List Utterance) :
    (heard (data.owedWords ++ us)).map Prod.fst = owes data.len ++ (heard us).map Prod.fst := by
  unfold ParserData.owedWords owes
  split <;> rfl

theorem handleError_speaks (hv : data.Valid) : ∃ data₁, handleError data = .ok data₁ ∧
    data₁.Valid ∧ data₁.len = 0 ∧ Speaks data.gdb data₁.gdb data.owedWords ∧
    data₁.gdb.hasSent = data.gdb.hasSent := by
  obtain ⟨data₁, hrun, hlen, hgdb⟩ := handleError_eq hv.room
  refine ⟨data₁, hrun, ⟨?_, ?_⟩, hlen, speaks_owed hgdb, ?_⟩
  · rw [hlen]
    decide
  · rw [hgdb]
    exact hv.remembers.quiet (owed_dollar data)
  · rw [hgdb]
    rfl

theorem hears_ack (h : Host) (steps : Nat) (after : List (BitVec 8)) (hv : data.Valid)
    (text : List (BitVec 8)) :
    ∃ data', action h steps after data (.ack, text) = .ok data' ∧
      Hears data data' (.ack, text) data.owedWords := by
  obtain ⟨data₁, hrun, hv₁, hlen, hs, hsent⟩ := handleError_speaks hv
  refine ⟨data₁, congrArg lift hrun, hv₁, hs, fun ts us' hts => ?_⟩
  rw [heard_owed, hts, hlen, hsent, traffic]

theorem frame_of_last {es : List Event} {f : List (BitVec 8)} (hl : LastPacket es f) :
    f = [] ∨ ∃ s, Clean s ∧ f = frame s := by
  cases hl with
  | none => exact .inl rfl
  | frame hs => exact .inr ⟨_, hs, rfl⟩

/-- What is sent again is a packet, if anything is. -/
theorem Remembers.sends (hg : Remembers g) :
    ∃ us, Speaks g (g.emit (g.packet.value.cells.take g.len)) us ∧
      ∀ us', (heard (us ++ us')).map Prod.fst =
        (if g.hasSent then [.packet] else []) ++ (heard us').map Prod.fst := by
  have hlen : (g.packet.value.cells.take g.len).length = g.len := by
    rw [List.length_take, g.packet.length_cells]
    exact Nat.min_eq_left hg.fits
  obtain hf | ⟨s, hs, hf⟩ := frame_of_last hg.last
  · rw [hf] at hlen ⊢
    have hnever : g.hasSent = false := decide_eq_false fun hne => hne hlen.symm
    refine ⟨[], ⟨fun u hu => absurd hu List.not_mem_nil, rfl⟩, fun us' => ?_⟩
    rw [hnever]
    rfl
  · rw [hf] at hlen ⊢
    have hsent : g.hasSent = true := by
      refine decide_eq_true ?_
      rw [← hlen, length_frame]
      exact Nat.succ_ne_zero _
    refine ⟨[.packet s], ⟨?_, ?_⟩, fun us' => ?_⟩
    · simpa [Utterance.Plain] using hs
    · simp [Gdb.emit, spoken, Utterance.events]
    · rw [hsent]
      rfl

theorem hears_nack (h : Host) (steps : Nat) (after : List (BitVec 8)) (hv : data.Valid)
    (text : List (BitVec 8)) :
    ∃ data' us, action h steps after data (.nack, text) = .ok data' ∧
      Hears data data' (.nack, text) us := by
  obtain ⟨data₁, hrun, hv₁, hlen, hs, hsent⟩ := handleError_speaks hv
  obtain ⟨us, hagain, hheard⟩ := hv₁.remembers.sends
  have haction : action h steps after data (.nack, text) = .ok { data₁ with
      gdb := data₁.gdb.emit (data₁.gdb.packet.value.cells.take data₁.gdb.len) } := by
    unfold action
    rw [hrun, ok_bind, gdbTransmitPacket_eq hv₁.remembers]
    rfl
  refine ⟨_, _, haction, ⟨hv₁.room, hv₁.remembers.again⟩, hs.append hagain, fun ts us' hts => ?_⟩
  change _ = traffic data₁.len data₁.gdb.hasSent ts at hts
  rw [List.append_assoc, heard_owed, hheard, hts, hlen, hsent, traffic]

theorem hears_packet (hv : data.Valid) {payload : List (BitVec 8)} {x y : BitVec 8}
    (hx : isHex x = true) (hy : isHex y = true) :
    Returns (action h steps after data (.packet, packetText payload x y)) fun data' =>
      ∃ us, Hears data data' (.packet, packetText payload x y) us := by
  obtain ⟨data₁, hrun, hv₁, hlen, hs, hsent⟩ := handleError_speaks hv
  have hvalid : Returns (gdbPacketAnalysis h steps data₁.gdb
      (yytext (packetText payload x y) after) (packetText payload x y).length) Remembers :=
    remembers_gdbPacketAnalysis hv₁.remembers _ _
  unfold action
  rw [hrun]
  change Returns (gdbPacketAnalysis h steps data₁.gdb _ _ >>= fun g =>
    .ok { data₁ with gdb := g }) _
  by_cases heq : hexVal [x, y] = byteSum payload
  · have hsum : RightSum (packetText payload x y) := rightSum_packetText.2 heq
    intro data' hdata
    obtain ⟨g', hg, hdata⟩ := exists_of_bind hdata
    cases hdata
    by_cases hk : payload.headD 0 = char 'k'
    · have hspeaks := speaks_killed hx hy heq hk g' hg
      refine ⟨_, ⟨hv₁.room, hvalid g' hg⟩, hs.append hspeaks, fun ts us' _ => ?_⟩
      rw [List.append_assoc, heard_owed, traffic, if_pos hsum, if_pos (kill_packetText.2 hk)]
      rfl
    · obtain ⟨⟨s, hspeaks | hspeaks⟩, hnow⟩ := speaks_answered hx hy heq hk g' hg
      all_goals
        refine ⟨_, ⟨hv₁.room, hvalid g' hg⟩, hs.append hspeaks, fun ts us' hts => ?_⟩
        change _ = traffic data₁.len g'.hasSent ts at hts
        rw [hlen, hnow] at hts
        rw [List.append_assoc, heard_owed, traffic, if_pos hsum,
          if_neg fun he => hk (kill_packetText.1 he), ← hts]
        rfl
  · have hsum : ¬ RightSum (packetText payload x y) := fun hs => heq (rightSum_packetText.1 hs)
    rw [gdbPacketAnalysis_rejected hx hy heq]
    refine returns_ok ⟨data.owedWords ++ [.nack],
      ⟨hv₁.room, hv₁.remembers.quiet (by decide)⟩, hs.append ⟨?_, rfl⟩, fun ts us' hts => ?_⟩
    · simp [Utterance.Plain]
    · change _ = traffic data₁.len data₁.gdb.hasSent ts at hts
      rw [hlen, hsent] at hts
      rw [List.append_assoc, heard_owed, traffic, if_neg hsum, ← hts]
      rfl

theorem hears_other (h : Host) (steps : Nat) (after : List (BitVec 8)) (hv : data.Valid)
    (text : List (BitVec 8)) :
    ∃ data' us, action h steps after data (.other, text) = .ok data' ∧
      Hears data data' (.other, text) us := by
  obtain ⟨data', hrun, hs⟩ := (since_self data).push hv.le (text.headD 0)
  have hremembers : Remembers data'.gdb := hs.remembers hv.remembers
  have hroom : data'.len < MAX_ERROR_SIZE := by
    rw [hs.pending]
    exact Nat.lt_succ_of_le ((Batch.counts_pending hv.le).push (by decide)).le
  have hgdb := hs.gdb
  have hlen := hs.pending
  unfold Batch.push at hgdb hlen
  by_cases hfull : errorCapacity ≤ data.len
  · rw [if_pos hfull] at hgdb hlen
    have hflush : data.len > MAX_ERROR_SIZE - 2 := by
      unfold errorCapacity MAX_ERROR_SIZE at hfull
      unfold MAX_ERROR_SIZE
      omega
    refine ⟨data', [.nack], congrArg lift hrun, ⟨hroom, hremembers⟩, ⟨?_, ?_⟩, fun ts us' hts => ?_⟩
    · simp [Utterance.Plain]
    · rw [hgdb]
      rfl
    · have hsent : data'.gdb.hasSent = data.gdb.hasSent := by
        rw [hgdb]
        rfl
      rw [hlen, hsent] at hts
      rw [traffic, if_pos hflush, ← hts]
      rfl
  · rw [if_neg hfull] at hgdb hlen
    have hkeep : ¬ data.len > MAX_ERROR_SIZE - 2 := by
      unfold errorCapacity MAX_ERROR_SIZE at hfull
      unfold MAX_ERROR_SIZE
      omega
    refine ⟨data', [], congrArg lift hrun, ⟨hroom, hremembers⟩,
      ⟨fun u hu => absurd hu List.not_mem_nil, ?_⟩, fun ts us' hts => ?_⟩
    · rw [hgdb]
      rfl
    · have hsent : data'.gdb.hasSent = data.gdb.hasSent := by
        rw [hgdb]
        rfl
      rw [hlen, hsent] at hts
      rw [traffic, if_neg hkeep, ← hts, List.nil_append]

theorem hears_action (hv : data.Valid) {t : Rule × List (BitVec 8)}
    (ht : t.1 = .packet → IsPacket t.2) :
    Returns (action h steps after data t) fun data' => ∃ us, Hears data data' t us := by
  obtain ⟨rule, text⟩ := t
  cases rule with
  | ack =>
    obtain ⟨data', hrun, hh⟩ := hears_ack h steps after hv text
    rw [hrun]
    exact returns_ok ⟨_, hh⟩
  | nack =>
    obtain ⟨data', us, hrun, hh⟩ := hears_nack h steps after hv text
    rw [hrun]
    exact returns_ok ⟨us, hh⟩
  | packet =>
    obtain ⟨payload, x, y, rfl, -, hx, hy⟩ := ht rfl
    exact hears_packet hv hx hy
  | other =>
    obtain ⟨data', us, hrun, hh⟩ := hears_other h steps after hv text
    rw [hrun]
    exact returns_ok ⟨us, hh⟩
  | dflt =>
    refine returns_ok ⟨[], hv, ⟨fun u hu => absurd hu List.not_mem_nil, ?_⟩, fun ts us' hts => hts⟩
    exact (List.append_nil _).symm

/-- Any tokens, and the end of the input: an induction on their number. -/
theorem hears_actions {after : List (Rule × List (BitVec 8)) → List (BitVec 8)}
    {ts : List (Rule × List (BitVec 8))} (hv : data.Valid)
    (hts : ∀ t ∈ ts, t.1 = .packet → IsPacket t.2) :
    Returns (actions h steps after ts data >>= fun data => lift (handleError data)) fun data' =>
      ∃ us, Speaks data.gdb data'.gdb us ∧
        (heard us).map Prod.fst = traffic data.len data.gdb.hasSent ts := by
  induction ts generalizing data with
  | nil =>
    obtain ⟨data₁, hrun, -, -, hs, -⟩ := handleError_speaks hv
    change Returns (lift (handleError data)) _
    rw [hrun]
    refine returns_ok ⟨data.owedWords, hs, ?_⟩
    rw [← List.append_nil data.owedWords, heard_owed, traffic]
    exact List.append_nil _
  | cons t ts ih =>
    have hact : Returns (action h steps (after (t :: ts)) data t) fun data' =>
        ∃ us, Hears data data' t us := hears_action hv (hts t List.mem_cons_self)
    rw [actions, bind_assoc]
    refine hact.bind ?_
    rintro data₁ ⟨us, hh⟩
    refine (ih hh.valid fun t ht => hts t (List.mem_cons_of_mem _ ht)).mono ?_
    rintro data' ⟨us', hspeaks, hkinds⟩
    exact ⟨us ++ us', hh.speaks.append hspeaks, hh.kinds ts us' hkinds⟩

end Sessions

/-! ## What is heard -/

/-- Taking and releasing the lock. -/
def Event.Locks (e : Event) : Prop := e = .lock ∨ e = .unlock

instance (e : Event) : Decidable e.Locks := inferInstanceAs (Decidable (_ ∨ _))

/-- The other side hears tokens of these kinds; every packet it hears is one that it would
accept, and the lock is taken and released in turn. -/
structure HeardAs (h : Host) (es : List Event) (kinds : List Rule) : Prop where
  kinds : (scanner.tokens (wire es)).map Prod.fst = kinds
  packets : ∀ p ∈ packets (wire es), ∃ s, Clean s ∧ p = frame s ∧ ∀ after, Accepts h p after
  sections : ∃ n, es.filter (fun e => e.Locks) = (List.replicate n [.lock, .unlock]).flatten

section Heard

variable {h : Host} {us : List Utterance}

theorem filter_bytes (s : List (BitVec 8)) (es : List Event) :
    (s.map Event.byte ++ es).filter (fun e => e.Locks) = es.filter fun e => e.Locks := by
  have hnone : (s.map Event.byte).filter (fun e => e.Locks) = [] := by
    refine List.filter_eq_nil_iff.2 fun e he => ?_
    obtain ⟨b, -, rfl⟩ := List.mem_map.1 he
    exact of_decide_eq_false rfl
  rw [List.filter_append, hnone, List.nil_append]

theorem sections_spoken (us : List Utterance) : ∃ n,
    (spoken us).filter (fun e => e.Locks) = (List.replicate n [.lock, .unlock]).flatten := by
  induction us with
  | nil => exact ⟨0, rfl⟩
  | cons u us ih =>
    obtain ⟨n, hn⟩ := ih
    rw [spoken_cons]
    cases u with
    | ack | nack => exact ⟨n, hn⟩
    | packet s =>
      refine ⟨n, ?_⟩
      change ((frame s).map Event.byte ++ spoken us).filter _ = _
      rw [filter_bytes, hn]
    | served s =>
      refine ⟨n + 1, ?_⟩
      change Event.lock :: ((frame s).map Event.byte ++ [Event.unlock] ++ spoken us).filter _ = _
      rw [List.append_assoc, filter_bytes]
      change Event.lock :: Event.unlock :: (spoken us).filter _ = _
      rw [hn]
      rfl
    | killed =>
      refine ⟨n + 1, ?_⟩
      change Event.lock :: Event.unlock :: (spoken us).filter _ = _
      rw [hn]
      rfl

theorem accepts_frame (s after : List (BitVec 8)) : Accepts h (frame s) after := by
  obtain ⟨x, y, hf, hx, hy, hsum⟩ := frame_eq s
  rw [hf]
  exact (accepts_iff hx hy).2 hsum

theorem packet_of_heard (hus : ∀ u ∈ us, u.Plain) {t : Rule × List (BitVec 8)}
    (ht : t ∈ heard us) (hp : t.1 = .packet) : ∃ s, Clean s ∧ t.2 = frame s := by
  induction us with
  | nil => cases ht
  | cons u us ih =>
    have hu : u.Plain := hus u List.mem_cons_self
    have hrest := ih fun u hu => hus u (List.mem_cons_of_mem _ hu)
    cases u with
    | ack | nack =>
      rcases List.mem_cons.1 ht with rfl | ht
      · cases hp
      · exact hrest ht
    | packet s | served s =>
      rcases List.mem_cons.1 ht with rfl | ht
      · exact ⟨s, hu, rfl⟩
      · exact hrest ht
    | killed => cases ht

theorem heardAs_of_spoken {es : List Event} (hus : ∀ u ∈ us, u.Plain) (hes : es = spoken us) :
    HeardAs h es ((heard us).map Prod.fst) := by
  rw [hes]
  refine ⟨by rw [tokens_spoken hus], fun p hp => ?_, sections_spoken us⟩
  rw [packets, tokens_spoken hus] at hp
  obtain ⟨t, ht, htext⟩ := List.mem_filterMap.1 hp
  by_cases hrule : t.1 = .packet
  · rw [if_pos hrule] at htext
    cases htext
    obtain ⟨s, hs, hframe⟩ := packet_of_heard hus ht hrule
    refine ⟨s, hs, hframe, fun after => ?_⟩
    rw [hframe]
    exact accepts_frame s after
  · rw [if_neg hrule] at htext
    cases htext

end Heard

/-- **The traffic of a session**: which kinds of tokens are heard depends on the input alone. -/
theorem session_heard {h : Host} {steps : Nat} {arm : ArmCore} {packet : Packet}
    {junk : Nat → BitVec 32} {buffer : Block (BitVec 8)} {alloc : buffer.size = MAX_ERROR_SIZE}
    {after : List (Rule × List (BitVec 8)) → List (BitVec 8)} {input : List (BitVec 8)}
    {data : ParserData} (hrun : yylex h steps after
      ⟨gdbInitData arm packet junk, buffer, 0, alloc⟩ input = .ok data) :
    HeardAs h data.gdb.events (traffic 0 false (scanner.tokens input)) := by
  obtain ⟨us, hspeaks, hkinds⟩ := hears_actions
    ⟨Nat.zero_lt_succ _, remembers_init arm packet junk⟩ (fun t ht => isPacket_of_mem ht) data hrun
  have hheard := heardAs_of_spoken (h := h) hspeaks.plain hspeaks.events
  rw [hkinds] at hheard
  exact hheard

/-- A request `g` and the end of the input. -/
theorem session_heard_dump : ∃ data,
    yylex .zeros 0 (fun _ => []) idle (packetText (text "g") (char '6') (char '7')) = .ok data ∧
      HeardAs .zeros data.gdb.events (traffic 0 false
        (scanner.tokens (packetText (text "g") (char '6') (char '7')))) := by
  have hpacket : IsPacket (packetText (text "g") (char '6') (char '7')) :=
    isPacket_packetText (by decide) (by decide) (by decide)
  obtain ⟨g', hg, -, -⟩ := exchange_read .zeros 0 (session (.ofBytes [])) (char '6') (char '7') []
    rfl rfl rfl
  have hidle : handleError idle = .ok idle := if_neg fun h0 => h0 rfl
  have hend : handleError { idle with gdb := g' } = .ok { idle with gdb := g' } :=
    if_neg fun h0 => h0 rfl
  have hacts : actions .zeros 0 (fun _ => [])
      [(.packet, packetText (text "g") (char '6') (char '7'))] idle =
        .ok { idle with gdb := g' } := by
    unfold actions action
    rw [hidle]
    dsimp only [lift]
    rw [ok_bind]
    change ((gdbPacketAnalysis _ _ (session (.ofBytes [])) _ _ >>= _) >>= _) = _
    rw [hg]
    rfl
  have hrun : yylex .zeros 0 (fun _ => []) idle (packetText (text "g") (char '6') (char '7')) =
      .ok { idle with gdb := g' } := by
    rw [yylex, tokens_packet hpacket, hacts]
    exact congrArg lift hend
  exact ⟨_, hrun, session_heard hrun⟩

end Armator.Sim
