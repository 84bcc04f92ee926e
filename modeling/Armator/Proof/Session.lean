import Armator.Proof.Interrupts
import Armator.Proof.Requests
import Armator.Proof.Retransmit

/-!
# Whole sessions

`session_refines`: a session of the debugger, as `Spec.Machine.Converses` has it, is what the
server makes of its texts: it reads them as one stream, does what each request asks for, and sends
for each message what the debugger expects. Spoilt requests and repeated replies leave the target
as it is, so that each request is executed once.
-/

namespace Armator.Sim

open Lib

/-! ## Texts of messages -/

/-- How a message comes to the server. The hexadecimal digits are the checksum. -/
inductive Arrives : Spec.Message → List (BitVec 8) → Prop where
  | request {q : Spec.Request} {payload : List (BitVec 8)} {x y : BitVec 8} : Writes q payload →
      (∀ c ∈ payload, c ≠ char '$' ∧ c ≠ char '#') → isHex x = true → isHex y = true →
      hexVal [x, y] = byteSum payload → Arrives (.request q) (packetText payload x y)
  | garbled {payload : List (BitVec 8)} {x y : BitVec 8} :
      (∀ c ∈ payload, c ≠ char '$' ∧ c ≠ char '#') → isHex x = true → isHex y = true →
      hexVal [x, y] ≠ byteSum payload → Arrives .garbled (packetText payload x y)
  | ack : Arrives .ack [char '+']
  | nack : Arrives .nack [char '-']

/-- What an output is to the connection and to the lock. -/
def outputEvents : Spec.Output → List Event
  | .accepted => [.byte (char '+')]
  | .refused => [.byte (char '-')]
  | .reply r => .lock :: (frame (replyText r)).map .byte ++ [.unlock]
  | .again r => (frame (replyText r)).map .byte

theorem clean_replyText (r : Spec.Reply) : Clean (replyText r) := by
  cases r with
  | ok => decide
  | failed e => cases e <;> decide
  | word v => exact clean_hexText _ _
  | bytes bs => exact clean_hexBytes bs
  | registers w status =>
    have hx : Clean (text "xxxxxxxx") := by decide
    exact (clean_flatMap fun _ => clean_hexText _ _).append
      (((clean_flatMap fun _ => hx).append hx).append (clean_hexText _ _))
  | stopped exception => exact (short_stopText exception).1

/-! ## The server between two messages -/

/-- The reply that is in the packet, ready to be sent again. -/
def lastFrame : Option Spec.Reply → List (BitVec 8)
  | none => []
  | some r => frame (replyText r)

structure ParserData.Shows (data : ParserData) (s : Spec.Server ArmCore) : Prop where
  len : data.len = 0
  remembers : Remembers data.gdb
  target : data.gdb.Shows s.target
  last : LastPacket data.gdb.events (lastFrame s.last)

section Messages

variable {h : Host} {steps : Nat} {data : ParserData} {s s' : Spec.Server ArmCore}
  {x : Spec.Message} {xs : List Spec.Message} {os : List Spec.Output} {w : List (BitVec 8)}
  {g' : Gdb} {c : BitVec 8}

theorem separate_arrives (hx : Arrives x w) (r : List (BitVec 8)) : scanner.Separate w r := by
  cases hx with
  | request _ hplain hx hy _ | garbled hplain hx hy _ =>
    exact separate_packet (isPacket_packetText hplain hx hy) r
  | ack | nack => exact separate_single (by decide) r

theorem action_request {q : Spec.Request} {r : Spec.Reply} {t : Spec.Target ArmCore}
    {payload : List (BitVec 8)} {a b : BitVec 8}
    (hs : (armMachine h).Serves s.target q r t) (hw : Writes q payload) (ha : isHex a = true)
    (hb : isHex b = true) (hsum : hexVal [a, b] = byteSum payload) :
    ∃ n, ∀ data : ParserData, data.Shows s → ∀ steps ≥ n, ∀ after, ∃ data',
      action h steps after data (.packet, packetText payload a b) = .ok data' ∧
      data'.gdb.events = data.gdb.events ++ [Spec.Output.accepted, .reply r].flatMap outputEvents ∧
      data'.Shows ⟨t, some r⟩ := by
  obtain ⟨n, hall⟩ := exchange_serves hs hw
  refine ⟨n, fun data hd steps hn after => ?_⟩
  obtain ⟨g', hrun, hev, hg'⟩ := hall data.gdb hd.target steps hn a b after ha hb hsum
  refine ⟨data.withGdb g', action_packet hd.len hrun, ?_, hd.len, ?_, hg', ?_⟩
  · refine hev.trans ?_
    simp [outputEvents]
  · exact remembers_gdbPacketAnalysis hd.remembers _ _ g' hrun
  · have hlast : LastPacket (data.gdb.events ++ [.byte (char '+'), .lock] ++
        (frame (replyText r)).map .byte ++ [.unlock]) (frame (replyText r)) :=
      .frame (clean_replyText r) (by decide)
    have hsame : data.gdb.events ++ [.byte (char '+'), .lock] ++
        (frame (replyText r)).map .byte ++ [.unlock] = g'.events := by
      rw [hev]
      simp
    rw [hsame] at hlast
    exact hlast

theorem action_garbled {payload : List (BitVec 8)} {a b : BitVec 8} (hd : data.Shows s)
    (ha : isHex a = true) (hb : isHex b = true) (hsum : hexVal [a, b] ≠ byteSum payload)
    (steps : Nat) (after : List (BitVec 8)) : ∃ data',
      action h steps after data (.packet, packetText payload a b) = .ok data' ∧
      data'.gdb.events = data.gdb.events ++ [.byte (char '-')] ∧ data'.Shows s := by
  have hquiet : Event.byte (char '$') ∉ [Event.byte (char '-')] := by decide
  refine ⟨data.withGdb (gdbRequireRetransmission data.gdb),
    action_packet hd.len (gdbPacketAnalysis_rejected ha hb hsum), rfl, hd.len, ?_, ?_, ?_⟩
  · exact hd.remembers.quiet hquiet
  · exact ⟨hd.target.arm, hd.target.exception, hd.target.breakpoints⟩
  · exact hd.last.quiet hquiet

theorem action_again (hd : data.Shows s) (steps : Nat) (after : List (BitVec 8)) : ∃ data',
    action h steps after data (.nack, [char '-']) = .ok data' ∧
      data'.gdb.events = data.gdb.events ++ (s.last.toList.map .again).flatMap outputEvents ∧
      data'.Shows s := by
  have hsame : data.gdb.packet.value.cells.take data.gdb.len = lastFrame s.last :=
    hd.remembers.last.unique hd.last
  have hsend := gdbTransmitPacket_eq hd.remembers
  refine ⟨data.withGdb (data.gdb.emit (data.gdb.packet.value.cells.take data.gdb.len)), ?_, ?_,
    hd.len, hd.remembers.again, ?_, ?_⟩
  · unfold action
    rw [handleError_idle hd.len, ok_bind, hsend]
    rfl
  · change data.gdb.events ++ (data.gdb.packet.value.cells.take data.gdb.len).map .byte = _
    rw [hsame]
    cases s.last with
    | none => rfl
    | some r => simp [lastFrame, outputEvents]
  · exact ⟨hd.target.arm, hd.target.exception, hd.target.breakpoints⟩
  · rw [hsame]
    exact hd.last.again

/-- Each message is a token, whose action does what the debugger expects. -/
theorem action_handles (hh : (armMachine h).Handles s x os s') (hx : Arrives x w) :
    ∃ n t, scanner.tokens w = [t] ∧ ∀ data : ParserData, data.Shows s → ∀ steps ≥ n, ∀ after,
      ∃ data', action h steps after data t = .ok data' ∧
        data'.gdb.events = data.gdb.events ++ os.flatMap outputEvents ∧ data'.Shows s' := by
  cases hh with
  | request hs =>
    cases hx with
    | request hw hplain ha hb hsum =>
      obtain ⟨n, hall⟩ := action_request hs hw ha hb hsum
      exact ⟨n, _, tokens_packet (isPacket_packetText hplain ha hb), hall⟩
  | garbled =>
    cases hx with
    | garbled hplain ha hb hsum =>
      exact ⟨0, _, tokens_packet (isPacket_packetText hplain ha hb),
        fun data hd steps _ after => action_garbled hd ha hb hsum steps after⟩
  | ack =>
    cases hx with
    | ack =>
      refine ⟨0, (.ack, [char '+']), Lexer.tokens_of_accepts (by decide) (by decide),
        fun data hd steps _ after => ⟨data, ?_, (List.append_nil _).symm, hd⟩⟩
      unfold action
      rw [handleError_idle hd.len]
      rfl
  | nack =>
    cases hx with
    | nack =>
      exact ⟨0, (.nack, [char '-']), Lexer.tokens_of_accepts (by decide) (by decide),
        fun data hd steps _ after => action_again hd steps after⟩

end Messages

/-! ## The whole input -/

/-- The actions for the texts of a session, given enough steps: an induction on the messages. -/
theorem actions_converses {h : Host} {s s' : Spec.Server ArmCore} {xs : List Spec.Message}
    {os : List Spec.Output} {ws : List (List (BitVec 8))}
    (hc : (armMachine h).Converses s xs os s') (hws : List.Forall₂ Arrives xs ws) :
    ∃ n, ∀ data : ParserData, data.Shows s → ∀ steps ≥ n, ∀ after, ∃ data',
      actions h steps after (scanner.tokens ws.flatten) data = .ok data' ∧
      data'.gdb.events = data.gdb.events ++ os.flatMap outputEvents ∧ data'.Shows s' := by
  induction hc generalizing ws with
  | nil =>
    cases hws
    refine ⟨0, fun data hd steps _ after => ⟨data, ?_, (List.append_nil _).symm, hd⟩⟩
    rw [List.flatten_nil, Lexer.tokens_nil]
    rfl
  | cons hh _ ih =>
    obtain _ | ⟨hx, hws⟩ := hws
    obtain ⟨n₁, t, htoken, hfirst⟩ := action_handles hh hx
    obtain ⟨n₂, hrest⟩ := ih hws
    refine ⟨max n₁ n₂, fun data hd steps hn after => ?_⟩
    obtain ⟨data₁, haction, hev₁, hd₁⟩ := hfirst data hd steps (by omega) (after (t :: _))
    obtain ⟨data', hactions, hev, hd'⟩ := hrest data₁ hd₁ steps (by omega) after
    refine ⟨data', ?_, ?_, hd'⟩
    · rw [List.flatten_cons, Lexer.tokens_append (separate_arrives hx _), htoken,
        List.singleton_append, actions, haction]
      exact hactions
    · rw [hev, hev₁, List.append_assoc, List.flatMap_append]

/-- **The session refines the debugger's**: whatever requests the debugger makes, however they
are written and whatever is spoilt or asked for again, given enough steps the server reads the
whole stream, sends what is expected and has the target that is expected. -/
theorem session_refines {h : Host} {s s' : Spec.Server ArmCore} {xs : List Spec.Message}
    {os : List Spec.Output} {ws : List (List (BitVec 8))}
    (hc : (armMachine h).Converses s xs os s') (hws : List.Forall₂ Arrives xs ws) :
    ∃ n, ∀ data : ParserData, data.Shows s → ∀ steps ≥ n, ∀ after, ∃ data',
      yylex h steps after data ws.flatten = .ok data' ∧
      data'.gdb.events = data.gdb.events ++ os.flatMap outputEvents ∧ data'.Shows s' := by
  obtain ⟨n, hall⟩ := actions_converses hc hws
  refine ⟨n, fun data hd steps hn after => ?_⟩
  obtain ⟨data', hactions, hev, hd'⟩ := hall data hd steps hn after
  refine ⟨data', ?_, hev, hd'⟩
  rw [yylex, hactions, ok_bind, handleError_idle hd'.len]
  rfl

/-! ## Sessions from the start -/

/-- A target as a session finds it. -/
def startTarget (arm : ArmCore) : Spec.Target ArmCore := ⟨arm, 0, ∅⟩

theorem shows_init {arm : ArmCore} {packet : Packet} {junk : Nat → BitVec 32}
    {buffer : Block (BitVec 8)} {alloc : buffer.size = MAX_ERROR_SIZE} :
    ParserData.Shows ⟨gdbInitData arm packet junk, buffer, 0, alloc⟩ ⟨startTarget arm, none⟩ where
  len := rfl
  remembers := remembers_init arm packet junk
  target := ⟨rfl, rfl, Breakpoints.represents_init junk⟩
  last := .none List.not_mem_nil

/-- A message for each kind, one of them asking for a register. -/
def probe : List Spec.Message := [.garbled, .request (.writeRegister 3 7), .nack,
  .request (.readRegister 3), .ack]

def probeTexts : List (List (BitVec 8)) := [packetText (text "?") (char '3') (char 'e'),
  packetText (text "P3=00000007") (char '4') (char '7'), text "-",
  packetText (text "p3") (char 'a') (char '3'), text "+"]

theorem probe_arrives : List.Forall₂ Arrives probe probeTexts :=
  .cons (.garbled (by decide) (by decide) (by decide) (by decide))
    (.cons (.request (.writeRegister (isField_hexText 7)) (by decide) (by decide) (by decide)
      (by decide))
    (.cons .nack
    (.cons (.request .readRegister (by decide) (by decide) (by decide) (by decide))
    (.cons .ack .nil))))

/-! ## The process -/

theorem yylex_unique {h : Host} {after : List (Rule × List (BitVec 8)) → List (BitVec 8)}
    {data data₁ data₂ : ParserData} {input : List (BitVec 8)} {n k : Nat}
    (h₁ : yylex h n after data input = .ok data₁) (h₂ : yylex h k after data input = .ok data₂) :
    data₁ = data₂ := by
  obtain ⟨d₁, hactions₁, hend₁⟩ := exists_of_bind h₁
  obtain ⟨d₂, hactions₂, hend₂⟩ := exists_of_bind h₂
  have hmore₁ := actions_add hactions₁ k
  have hmore₂ := actions_add hactions₂ n
  rw [Nat.add_comm, hmore₁] at hmore₂
  cases hmore₂
  rw [hend₁] at hend₂
  exact Except.ok.inj hend₂

/-- **The process refines the debugger**: with interrupts that leave the processor alone, every
interleaving in which the session comes to its end has sent what the debugger expects. -/
theorem process_refines {h : Host} {s s' : Spec.Server ArmCore} {xs : List Spec.Message}
    {os : List Spec.Output} {ws : List (List (BitVec 8))} {data : ParserData}
    {irqs : List (BitVec 8)} (hc : (armMachine h).Converses s xs os s')
    (hws : List.Forall₂ Arrives xs ws) (hd : data.Shows s)
    (hplain : ∀ irq ∈ irqs, ¬ UsesCore irq)
    (after : List (Rule × List (BitVec 8)) → List (BitVec 8)) :
    ∃ data', data'.gdb.events = data.gdb.events ++ os.flatMap outputEvents ∧ data'.Shows s' ∧
      ∀ irqs' data'', Relation.ReflTransGen (Process.Step h after)
          (Process.start data ws.flatten irqs) (Sequential.process ⟨data'', [], irqs', true⟩) ↔
        irqs' <:+ irqs ∧ data'' = data' := by
  obtain ⟨n, hall⟩ := session_refines hc hws
  obtain ⟨data', hrun, hev, hd'⟩ := hall data hd n (Nat.le_refl n) after
  refine ⟨data', hev, hd', fun irqs' data'' => ?_⟩
  constructor
  · intro hreach
    obtain ⟨hsuffix, k, hrun'⟩ := yylex_of_ends hplain hreach
    exact ⟨hsuffix, yylex_unique hrun' hrun⟩
  · rintro ⟨hsuffix, rfl⟩
    exact ends_of_yylex hplain hsuffix hrun

/-- A spoilt request, R3 written, the reply asked for again, R3 read. -/
theorem process_refines_probe : ∃ data', data'.gdb.events =
    [Spec.Output.refused, .accepted, .reply .ok, .again .ok, .accepted,
      .reply (.word 7)].flatMap outputEvents ∧
    Relation.ReflTransGen (Process.Step .zeros fun _ => [])
      (Process.start idle probeTexts.flatten [4]) (Sequential.process ⟨data', [], [], true⟩) := by
  have hc : (armMachine .zeros).Converses ⟨startTarget idle.gdb.arm, none⟩ probe
      ([.refused] ++ ([.accepted, .reply .ok] ++ ([.again .ok] ++ ([.accepted, .reply (.word 7)] ++
        ([] ++ []))))) _ :=
    .cons .garbled (.cons (.request (.writeRegister (by decide))) (.cons .nack
      (.cons (.request (.readRegister (by decide))) (.cons .ack .nil))))
  have hidle : idle.Shows ⟨startTarget idle.gdb.arm, none⟩ := shows_init
  have hplain : ∀ irq ∈ [(4 : BitVec 8)], ¬ UsesCore irq := by decide
  obtain ⟨data', hev, -, hall⟩ := process_refines hc probe_arrives hidle hplain fun _ => []
  exact ⟨data', hev, (hall [] data').2 ⟨⟨[4], rfl⟩, rfl⟩⟩

/-! ## Loading an image -/

theorem armMachine_writes (h : Host) : (armMachine h).WritesExactly where
  byte {c a bs} x hold := by
    have hmem : c.mem.Holds a bs.length := holds_of_le (g := { session c.mem with arm := c }) hold.1
    have hwrap := hold.2
    change (c.mem.write a bs).get x = if _ then _ else c.mem.get x
    by_cases hx : a.toNat ≤ x ∧ x < a.toNat + bs.length
    · have hat := get_write_at hmem (by omega) (show x - a.toNat < bs.length by omega)
      rw [byteIndex_of_lt (by omega), Nat.add_sub_cancel' hx.1] at hat
      rw [if_pos hx, hat]
    · rw [if_neg hx]
      refine get_write_off hmem fun i hi => ?_
      rw [byteIndex_of_lt (by omega)]
      omega
  register c a bs := rfl
  status c a bs := rfl

/-- An image that is loaded in any parts, in any order and over a link that spoils requests is
in the memory, and nothing else has changed. -/
theorem image_loaded {h : Host} {s s' : Spec.Server ArmCore} {xs : List Spec.Message}
    {os : List Spec.Output} {ws : List (List (BitVec 8))} {img : Nat → BitVec 8}
    (hc : (armMachine h).Converses s xs os s') (hws : List.Forall₂ Arrives xs ws)
    (hloads : ∀ q ∈ xs.filterMap Spec.Message.request?, Spec.Loads img q)
    (hok : ∀ r ∈ os.filterMap Spec.Output.reply?, r = .ok) :
    ∃ n, ∀ data : ParserData, data.Shows s → ∀ steps ≥ n, ∀ after, ∃ data',
      yylex h steps after data ws.flatten = .ok data' ∧
      (∀ x, (∃ q ∈ xs.filterMap Spec.Message.request?, Spec.Covers q x) →
        data'.gdb.arm.mem.get x = img x) ∧
      (∀ x, ¬ (∃ q ∈ xs.filterMap Spec.Message.request?, Spec.Covers q x) →
        data'.gdb.arm.mem.get x = data.gdb.arm.mem.get x) ∧
      ∀ i, data'.gdb.arm.reg.get i = data.gdb.arm.reg.get i := by
  obtain ⟨n, hall⟩ := session_refines hc hws
  have hloaded := hc.executes.loaded (armMachine_writes h) hloads hok
  refine ⟨n, fun data hd steps hn after => ?_⟩
  obtain ⟨data', hrun, -, hd'⟩ := hall data hd steps hn after
  refine ⟨data', hrun, fun x hx => ?_, fun x hx => ?_, fun i => ?_⟩
  · rw [hd'.target.arm]
    exact hloaded.inside x hx
  · rw [hd'.target.arm, hd.target.arm]
    exact hloaded.outside x hx
  · rw [hd'.target.arm, hd.target.arm]
    exact congrFun hloaded.register i

/-- Four bytes of memory, and nothing done yet. -/
def fourBytes : ParserData := ⟨session (.ofBytes [1, 1, 1, 1]), idle.buffer, 0, idle.alloc⟩

/-- A probe that stores nothing, and two parts. -/
def parts : List Spec.Request :=
  [.writeMemory 1 [], .writeMemory 3 [9], .writeMemory 1 [0x24, 0]]

def partTexts : List (List (BitVec 8)) := [packetText (text "X1,0:") (char '1') (char 'f'),
  packetText (text "X3,1:" ++ [9]) (char '2') (char 'b'),
  packetText (text "X1,2:" ++ [0x7d, 4, 0]) (char 'a') (char '2')]

/-- The later byte comes first. -/
theorem image_loaded_parts : ∃ n, ∀ steps ≥ n, ∃ data',
    yylex .zeros steps (fun _ => []) fourBytes partTexts.flatten = .ok data' ∧
      data'.gdb.arm.mem.get 1 = 0x24 ∧ data'.gdb.arm.mem.get 3 = 9 := by
  have hc : (armMachine .zeros).Converses ⟨startTarget fourBytes.gdb.arm, none⟩
      (parts.map .request) ([.accepted, .reply .ok] ++ ([.accepted, .reply .ok] ++
        ([.accepted, .reply .ok] ++ []))) _ :=
    .cons (.request (.writeMemory (by decide) (by decide)))
      (.cons (.request (.writeMemory (by decide) (by decide)))
        (.cons (.request (.writeMemory (by decide) (by decide))) .nil))
  have hnumber {s : List (BitVec 8)} {v : Nat} (hne : s ≠ []) (hdigits : ∀ c ∈ s, isHex c = true)
      (hv : hexVal s = v) : IsNumber s v := ⟨hne, hdigits, hv⟩
  have hw₀ : Writes (.writeMemory 1 []) (text "X1,0:") :=
    .writeMemory (A := text "1") (N := text "0") (hnumber (by decide) (by decide) (by decide))
      (hnumber (by decide) (by decide) (by decide))
  have hw₁ : Writes (.writeMemory 3 [9]) (text "X3,1:" ++ [9]) :=
    .writeMemory (A := text "3") (N := text "1") (hnumber (by decide) (by decide) (by decide))
      (hnumber (by decide) (by decide) (by decide))
  have hw₂ : Writes (.writeMemory 1 [0x24, 0]) (text "X1,2:" ++ [0x7d, 4, 0]) :=
    .writeMemory (A := text "1") (N := text "2") (hnumber (by decide) (by decide) (by decide))
      (hnumber (by decide) (by decide) (by decide))
  have hws : List.Forall₂ Arrives (parts.map .request) partTexts :=
    .cons (.request hw₀ (by decide) (by decide) (by decide) (by decide))
      (.cons (.request hw₁ (by decide) (by decide) (by decide) (by decide))
        (.cons (.request hw₂ (by decide) (by decide) (by decide) (by decide)) .nil))
  have hloads : ∀ q ∈ (parts.map .request).filterMap Spec.Message.request?,
      Spec.Loads (fun x => if x = 3 then 9 else if x = 1 then 0x24 else 0) q := by
    intro q hq
    have hq' : q = .writeMemory 1 [] ∨ q = .writeMemory 3 [9] ∨ q = .writeMemory 1 [0x24, 0] := by
      simpa [parts, Spec.Message.request?] using hq
    obtain rfl | rfl | rfl := hq'
    · exact ⟨1, [], rfl, nofun⟩
    · exact ⟨3, [9], rfl, by decide⟩
    · exact ⟨1, [0x24, 0], rfl, by decide⟩
  obtain ⟨n, hall⟩ := image_loaded hc hws hloads (by simp [Spec.Output.reply?])
  refine ⟨n, fun steps hn => ?_⟩
  obtain ⟨data', hrun, hin, -⟩ := hall fourBytes shows_init steps hn fun _ => []
  refine ⟨data', hrun, (hin 1 ?_).trans rfl, (hin 3 ?_).trans rfl⟩
  · exact ⟨_, .tail _ (.tail _ (.head _)), 1, [0x24, 0], rfl, by decide, by decide⟩
  · exact ⟨_, .tail _ (.head _), 3, [9], rfl, by decide, by decide⟩

end Armator.Sim
