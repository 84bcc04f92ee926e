import Armator.Proof.Server

/-!
# One reply for one request

A handler is `Transmitting` if a call that returns has written exactly one reply. All handlers
but `kill_request` are, since whatever a request does to the processor or the breakpoints, it
ends in a response that `Says` something, of which nothing is written before. Every reply but
the one to `m` is `Short`. A relation that one step or one write keeps is kept by the loops of
the handlers (`contLoop_keeps` and so on).
-/

namespace Armator.Sim

open Lib

/-- Every call that returns has written exactly one reply, and the packet begins with it. -/
def Transmitting (f : Handler) : Prop := ∀ h steps g data, Returns (f h steps g data) (Transmits g)

namespace Response

/-- The response is a short reply, and nothing has been written since `g`. -/
def Says (g : Gdb) : Response → Prop
  | reply g₁ s => g₁.events = g.events ∧ Short s
  | _ => False

/-- If the response can be performed, this writes one reply. -/
def Sends (g : Gdb) (a : Response) : Prop := Returns a.perform (Transmits g)

end Response

section Rules

variable {α : Type} {x : Except Fault α} {Q : α → Prop} {g g₁ : Gdb} {s : List (BitVec 8)}

theorem sends_reply (he : g₁.events = g.events) (hs : Clean s) :
    (Response.reply g₁ s).Sends g :=
  returns_lift ((returns_sendData hs).mono fun g' ⟨t, ht, hev, hpacket⟩ =>
    ⟨t, ht, by rw [hev, he], hpacket⟩)

theorem Response.Says.sends {a : Response} (h : a.Says g) : a.Sends g := by
  cases a with
  | silent g₁ => exact h.elim
  | reply g₁ s => exact sends_reply h.1 h.2.1
  | broken g₁ s f => exact h.elim

theorem short_dump (r : Registers) : Short (dump r) :=
  ⟨clean_dump r, by rw [length_dump]; decide⟩

theorem short_hexText (v : Nat) : Short (hexText 8 v) :=
  ⟨clean_hexText 8 v, by rw [length_hexText]; decide⟩

theorem short_queryReply (data : List (BitVec 8)) : Short (queryReply data) := by
  unfold queryReply
  repeat' split
  all_goals decide

end Rules

/-! ## What the requests say -/

/-! ## The loops of the handlers -/

section Loops

variable {P ε : Type} (r : Reading P ε) (h : Host) (steps : Nat)

theorem returns_target {α : Type} {x : Except Halt α} {Q : α → Prop} (hx : Returns x Q) :
    Returns (r.target x) Q := by
  cases x with
  | error e => exact returns_error
  | ok a => exact returns_ok (hx a rfl)

-- `R` is kept by one step, or by one write, and composes.
variable {R : Gdb → Gdb → Prop} (hrefl : ∀ g, R g g)
  (htrans : ∀ {g₁ g₂ g₃}, R g₁ g₂ → R g₂ g₃ → R g₁ g₃)

include htrans in
/-- An induction on the number of steps allowed. -/
theorem contLoop_keeps (hstep : ∀ g, Returns (singleStep h g) (R g)) (g : Gdb) :
    Returns (contLoop h steps g) (R g) := by
  induction steps generalizing g with
  | zero => exact returns_error
  | succ steps ih =>
    refine Returns.bind (returns_lift (hstep g)) fun g₁ hone => ?_
    refine returns_bind fun PC => returns_bind fun position => ?_
    dsimp only
    refine returns_ite (fun _ => returns_ok hone) fun _ => ?_
    exact (ih g₁).mono fun g' hrest => htrans hone hrest

include hrefl htrans in
/-- An induction on the list of the registers. -/
theorem writeWords_keeps (hwrite : ∀ g data reg, Returns (r.writeRegister g reg data) (R g))
    (is : List Nat) (g : Gdb) (data : P) :
    Returns (r.writeWords is g data) fun x => R g x.1 := by
  induction is generalizing g data with
  | nil => exact returns_ok (hrefl g)
  | cons i is ih =>
    unfold Reading.writeWords
    rw [List.foldlM_cons, bind_assoc]
    refine (hwrite g data _).bind fun g₁ hone => ?_
    exact (ih g₁ _).mono fun _ hrest => htrans hone hrest

include hrefl htrans in
/-- An induction on how many bytes are left. -/
theorem writeMemoryLoop_keeps
    (hwrite : ∀ g address value, Returns (memoryWriteByte g.arm.mem address value) fun y =>
      R g { g with arm := { g.arm with mem := y.2 } })
    (size : Nat) (content : P) (address : BitVec 32) (g : Gdb) :
    Returns (r.writeMemoryLoop size content address g) fun x => R g x.1 := by
  induction size generalizing content address g with
  | zero => exact returns_ok (hrefl g)
  | succ size ih =>
    refine returns_bind fun x => ?_
    refine (returns_target r (returns_lift (hwrite g address x.1))).bind fun y hone => ?_
    refine returns_ite (fun _ => ?_) fun _ => returns_ok hone
    exact (ih _ _ _).mono fun _ hrest => htrans hone hrest

end Loops

/-! ## What the handlers say -/

section Says

variable {P ε : Type} (r : Reading P ε) (h : Host) (steps : Nat) (g : Gdb) (data : P)

/-- Nothing has been written. -/
def Gdb.Unheard (g g' : Gdb) : Prop := g'.events = g.events

theorem Gdb.Unheard.trans {g₁ g₂ g₃ : Gdb} (h₁ : g₁.Unheard g₂) (h₂ : g₂.Unheard g₃) :
    g₁.Unheard g₃ := Eq.trans h₂ h₁

theorem returns_singleStep : Returns (singleStep h g) g.Unheard :=
  returns_bind fun _ => returns_ok rfl

theorem says_cont : Returns (r.cont h steps g) (Response.Says g) := by
  have hloop := contLoop_keeps h steps .trans (returns_singleStep h) g
  exact (returns_target r hloop).bind fun _ he => returns_ok ⟨he, short_stopText _⟩

theorem says_step : Returns (r.step h g) (Response.Says g) :=
  (returns_target r (returns_lift (returns_singleStep h g))).bind fun _ he =>
    returns_ok ⟨he, short_stopText _⟩

theorem says_query : Returns (r.query g data) (Response.Says g) :=
  returns_bind fun s => returns_ok ⟨rfl, short_queryReply s⟩

theorem says_readSingleRegister : Returns (r.readSingleRegister h g data) (Response.Says g) :=
  returns_bind fun _ => returns_ite (fun _ => returns_bind fun _ =>
    returns_ok ⟨rfl, short_hexText _⟩) fun _ => returns_error

theorem says_setThread : Returns (r.setThread h g data) (Response.Says g) := by
  refine returns_bind fun type => returns_bind fun s => ?_
  exact returns_ite (fun _ => returns_ok ⟨rfl, by decide⟩) fun _ => returns_ok ⟨rfl, by decide⟩

theorem returns_writeRegister (reg : BitVec 32) :
    Returns (r.writeRegister g reg data) g.Unheard := by
  refine returns_bind fun value => returns_ite (fun _ => ?_) fun _ => returns_error
  exact returns_target r (returns_lift (returns_bind fun file => returns_ok rfl))

theorem says_writeSingleRegister : Returns (r.writeSingleRegister g data) (Response.Says g) := by
  refine returns_bind fun s => returns_bind fun reg => returns_bind fun found => ?_
  exact (returns_writeRegister r g _ reg).bind fun g₁ he => returns_ok ⟨he, by decide⟩

theorem says_writeGeneralRegisters :
    Returns (r.writeGeneralRegisters g data) (Response.Says g) := by
  have hloop := writeWords_keeps r (R := Gdb.Unheard) (fun _ => rfl) .trans
    (returns_writeRegister r) (List.range 16) g data
  exact hloop.bind fun _ he => returns_bind fun _ => returns_ok ⟨he, by decide⟩

theorem says_writeMemoryBinary : Returns (r.writeMemoryBinary g data) (Response.Says g) := by
  refine returns_bind fun s => returns_bind fun address => returns_bind fun size => ?_
  refine returns_bind fun found => ?_
  have hreply (x : Gdb × Bool) (he : x.1.events = g.events) :
      Returns (if x.2 = true then (.ok (.reply x.1 (text "OK")) : Except ε Response)
        else .ok (.reply x.1 (text "E02"))) (Response.Says g) :=
    returns_ite (fun _ => returns_ok ⟨he, by decide⟩) fun _ => returns_ok ⟨he, by decide⟩
  have hloop := writeMemoryLoop_keeps r (R := Gdb.Unheard) (fun _ => rfl) .trans
    fun _ _ _ _ _ => rfl
  exact returns_ite (fun _ => (hloop _ _ _ g).bind hreply) fun _ => hreply (g, false) rfl

/-- The two handlers differ in the call and in the error. -/
theorem breakpoint_replies (typeLocal addressLocal : GdbLocal)
    (call : Breakpoints → BitVec 32 → Except Fault (Int × Breakpoints))
    (failed : List (BitVec 8)) :
    Returns (r.breakpoint typeLocal addressLocal call failed g data) fun a =>
      ∃ table s, a = .reply { g with breakpoints := table } s ∧
        (s = text "OK" ∨ s = text "E03" ∨ s = failed) := by
  refine returns_bind fun s => returns_bind fun type => returns_ite (fun _ => ?_) fun _ => ?_
  · exact returns_ok ⟨g.breakpoints, _, rfl, .inr (.inl rfl)⟩
  · refine returns_bind fun address => returns_bind fun y => ?_
    exact returns_ite (fun _ => returns_ok ⟨y.2, _, rfl, .inl rfl⟩) fun _ =>
      returns_ok ⟨y.2, _, rfl, .inr (.inr rfl)⟩

theorem says_breakpoint (typeLocal addressLocal : GdbLocal)
    (call : Breakpoints → BitVec 32 → Except Fault (Int × Breakpoints))
    {failed : List (BitVec 8)} (hf : Short failed) :
    Returns (r.breakpoint typeLocal addressLocal call failed g data) (Response.Says g) := by
  refine (breakpoint_replies r g data typeLocal addressLocal call failed).mono ?_
  rintro a ⟨table, s, rfl, rfl | rfl | rfl⟩
  · exact ⟨rfl, by decide⟩
  · exact ⟨rfl, by decide⟩
  · exact ⟨rfl, hf⟩

/-- All requests but two say something short. -/
theorem says_serve {c : BitVec 8} (hk : c ≠ char 'k') (hm : c ≠ char 'm') :
    Returns (r.serve h steps g c data) (Response.Says g) := by
  unfold Reading.serve
  refine returns_ite (fun _ => says_cont r h steps g) fun _ => ?_
  refine returns_ite (fun _ => says_cont r h steps g) fun _ => ?_
  rw [if_neg hk]
  refine returns_ite (fun _ => says_query r g data) fun _ => ?_
  refine returns_ite (fun _ => returns_ok ⟨rfl, short_dump _⟩) fun _ => ?_
  rw [if_neg hm]
  refine returns_ite (fun _ => says_readSingleRegister r h g data) fun _ => ?_
  refine returns_ite (fun _ => returns_ok ⟨rfl, short_stopText _⟩) fun _ => ?_
  refine returns_ite (fun _ => says_setThread r h g data) fun _ => ?_
  refine returns_ite (fun _ => says_step r h g) fun _ => ?_
  refine returns_ite (fun _ => says_step r h g) fun _ => ?_
  refine returns_ite (fun _ => says_writeGeneralRegisters r g data) fun _ => ?_
  refine returns_ite (fun _ => says_writeMemoryBinary r g data) fun _ => ?_
  refine returns_ite (fun _ => says_writeSingleRegister r g data) fun _ => ?_
  refine returns_ite (fun _ => says_breakpoint r g data _ _ _ (by decide)) fun _ => ?_
  refine returns_ite (fun _ => says_breakpoint r g data _ _ _ (by decide)) fun _ => ?_
  exact returns_ok ⟨rfl, by decide⟩

/-- An induction on how many bytes are read. -/
theorem clean_readDigits (mem : Memory) (size : Nat) (address : BitVec 32) :
    Clean (readDigits mem size address).1 := by
  induction size generalizing address with
  | zero => exact clean_nil
  | succ size ih =>
    unfold readDigits
    cases memoryReadByte mem address 0 with
    | error f => exact clean_nil
    | ok x =>
      dsimp only
      split
      · exact (clean_hexText _ _).append (ih _)
      · exact clean_nil

theorem sends_readMemory : Returns (r.readMemory g data) (Response.Sends g) := by
  refine returns_bind fun s => returns_bind fun address => returns_ite (fun _ => ?_) fun _ => ?_
  · refine returns_bind fun size => returns_ok ?_
    unfold Response.ofDigits
    split
    · exact sends_reply rfl (clean_readDigits _ _ _)
    · exact returns_lift (returns_bind fun _ => returns_error)
  · exact returns_ok (sends_reply rfl (by decide))

theorem sends_serve {c : BitVec 8} (hk : c ≠ char 'k') :
    Returns (r.serve h steps g c data) (Response.Sends g) := by
  by_cases hm : c = char 'm'
  · subst hm
    exact sends_readMemory r g data
  · exact (says_serve r h steps g data hk hm).mono fun _ ha => ha.sends

end Says

/-! ## Requests -/

/-- What is sent, behind the `+`, for an accepted request with the command letter `c`. -/
def answerBytes (c : BitVec 8) (s : List (BitVec 8)) : List (BitVec 8) :=
  if c = char 'k' then [] else frame s

/-- The events of an accepted request, behind the `+`: the lock is taken around a handler. -/
def answerEvents (c : BitVec 8) (s : List (BitVec 8)) : List Event :=
  if c = char 'k' then [.lock, .shutdown, .unlock]
  else if (handler c).isSome then .lock :: (frame s).map .byte ++ [.unlock]
  else (frame s).map .byte

/-- From `g` to `g'` the request was answered by `+` and one reply, or none for `k`. -/
structure Answers (c : BitVec 8) (g g' : Gdb) (s : List (BitVec 8)) : Prop where
  clean : Clean s
  events : g'.events = g.events ++ .byte (char '+') :: answerEvents c s
  delivers : Delivers g g' (char '+' :: answerBytes c s)

/-- The handler of the request, if there is one, returns. -/
def HandlerReturns (h : Host) (steps : Nat) (g : Gdb) (payload : List (BitVec 8)) (x y : BitVec 8)
    (after : List (BitVec 8)) : Prop :=
  ∀ f, handler (payload.headD 0) = some f →
    ∃ g₁, f h steps g.begun (handlerData payload x y after) = .ok g₁

/-- What a wrong checksum leads to, and what a right one leads to if the handler returns. -/
def Disciplined (h : Host) (steps : Nat) (g : Gdb) (payload : List (BitVec 8)) (x y : BitVec 8)
    (after : List (BitVec 8)) : Prop :=
  let analysis := gdbPacketAnalysis h steps g (yytext (packetText payload x y) after)
    (packetText payload x y).length
  if hexVal [x, y] = byteSum payload then
    HandlerReturns h steps g payload x y after →
      ∃ g' s, analysis = .ok g' ∧ Answers (payload.headD 0) g g' s
  else
    ∃ g', analysis = .ok g' ∧ g' = { g with events := g.events ++ [.byte (char '-')] } ∧
      Delivers g g' [char '-']

section Request

variable {h : Host} {steps : Nat} {g g' : Gdb} {c x y : BitVec 8}
  {s payload after : List (BitVec 8)} {data : Pointer} {f : Handler}

/-- Every handler but `kill_request` answers. -/
theorem transmitting_handler (hc : c ≠ char 'k') (hf : handler c = some f) : Transmitting f := by
  intro h steps g data
  have hrun : f h steps g data = h.reading.serve h steps g c data >>= Response.perform := by
    rw [← respond_stages]
    unfold respond
    rw [hf]
  rw [hrun]
  exact (sends_serve _ h steps g data hc).bind fun _ ha => ha

theorem wire_answerEvents (c : BitVec 8) (s : List (BitVec 8)) :
    wire (.byte (char '+') :: answerEvents c s) = char '+' :: answerBytes c s := by
  rw [wire_byte]
  unfold answerEvents answerBytes
  by_cases hk : c = char 'k'
  · rw [if_pos hk, if_pos hk]
    rfl
  · rw [if_neg hk, if_neg hk]
    split
    · exact congrArg _ ((wire_bytes (frame s) [.unlock]).trans (List.append_nil _))
    · exact congrArg _ (wire_map_byte _)

theorem answers_of_events (hs : Clean s)
    (hev : g'.events = g.events ++ .byte (char '+') :: answerEvents c s) : Answers c g g' s :=
  ⟨hs, hev, wire_answerEvents c s ▸ delivers_of_events hev⟩

theorem answers_unlocked {g₁ : Gdb} (hf : handler c = some f)
    (hrun : f h steps g.begun data = .ok g₁) : ∃ s, Answers c g (g₁.record .unlock) s := by
  by_cases hk : c = char 'k'
  · subst hk
    cases hf
    cases hrun
    refine ⟨[], answers_of_events clean_nil ?_⟩
    change g.events ++ [_] ++ [_] ++ [_] ++ [_] = g.events ++ [_, _, _, _]
    simp only [List.append_assoc, List.cons_append, List.nil_append]
  · obtain ⟨s, hs, hev, -⟩ := transmitting_handler hk hf h steps g.begun data g₁ hrun
    refine ⟨s, answers_of_events hs ?_⟩
    unfold answerEvents
    rw [if_neg hk, hf]
    change g₁.events ++ [_] = _
    rw [hev]
    change g.events ++ [_] ++ [_] ++ _ ++ [_] = g.events ++ _ :: (_ :: _ ++ [_])
    simp only [List.append_assoc, List.cons_append, List.nil_append]

/-- **One reply for one request**, and one `-` for a packet with a wrong checksum. -/
theorem request_disciplined (h : Host) (steps : Nat) (g : Gdb) (payload after : List (BitVec 8))
    (hx : isHex x = true) (hy : isHex y = true) : Disciplined h steps g payload x y after := by
  unfold Disciplined
  dsimp only
  by_cases heq : hexVal [x, y] = byteSum payload
  · rw [if_pos heq, gdbPacketAnalysis_accepted hx hy heq]
    intro hreturns
    cases hf : handler (payload.headD 0) with
    | none =>
      obtain ⟨p, hp, -⟩ := gdbSendData_sent (g := gdbSendAck g) (s := []) (by decide) (by decide)
      refine ⟨(gdbSendAck g).sent p [], [], ?_, answers_of_events clean_nil ?_⟩
      · rw [handed_none hf, hp]
        rfl
      · have hk : payload.headD 0 ≠ char 'k' := by
          intro hk
          rw [hk] at hf
          cases hf
        unfold answerEvents
        rw [if_neg hk, hf]
        change g.events ++ [_] ++ _ = _
        rw [List.append_assoc]
        rfl
    | some f =>
      obtain ⟨g₁, hrun⟩ := hreturns f hf
      obtain ⟨s, hs⟩ := answers_unlocked hf hrun
      refine ⟨g₁.record .unlock, s, ?_, hs⟩
      rw [handed_some hf, hrun]
      rfl
  · rw [if_neg heq]
    have hsent : Delivers g (gdbRequireRetransmission g) (wire [.byte (char '-')]) :=
      delivers_of_events rfl
    exact ⟨_, gdbPacketAnalysis_rejected hx hy heq, rfl, hsent⟩

/-- A request `?` and one that no handler is for are answered, and a wrong checksum is. -/
theorem request_disciplined_reason :
    (∃ g' s, gdbPacketAnalysis .zeros 0 (session (.ofBytes []))
        (yytext (packetText (text "?") (char '3') (char 'f')) [])
        (packetText (text "?") (char '3') (char 'f')).length = .ok g' ∧
      Answers (char '?') (session (.ofBytes [])) g' s) ∧
    (∃ g' s, gdbPacketAnalysis .zeros 0 (session (.ofBytes []))
        (yytext (packetText (text "!") (char '2') (char '1')) [])
        (packetText (text "!") (char '2') (char '1')).length = .ok g' ∧
      Answers (char '!') (session (.ofBytes [])) g' s) ∧
    Disciplined .zeros 0 (session (.ofBytes [])) (text "?") (char '3') (char 'e') [] := by
  refine ⟨request_disciplined .zeros 0 (session (.ofBytes [])) (text "?") []
      (x := char '3') (y := char 'f') (by decide) (by decide) fun f hf => ?_,
    request_disciplined .zeros 0 (session (.ofBytes [])) (text "!") []
      (x := char '2') (y := char '1') (by decide) (by decide) fun f hf => ?_,
    request_disciplined .zeros 0 (session (.ofBytes [])) (text "?") [] (by decide) (by decide)⟩
  · cases hf
    obtain ⟨p, hp⟩ := stopReason_sent (session (.ofBytes [])).begun
    refine ⟨(session (.ofBytes [])).begun.sent p (stopText 0), ?_⟩
    change lift (gdbSendStopReason _) = _
    rw [hp]
    rfl
  · cases hf

end Request

end Armator.Sim
