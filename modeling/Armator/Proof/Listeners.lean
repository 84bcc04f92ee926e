import Armator.Lib.Lock
import Armator.Proof.ErrorBuffer
import Armator.Proof.RegisterFile
import Armator.Sim.Simulator

/-!
# The two listeners

The listeners share the processor, and take a lock for it. So the process does what a
sequential machine does that takes turns: at each turn it has a whole token scanned and its
request handled, or a whole interrupt raised. `rests_iff` says that in both directions for the
states where both listeners rest.
-/

namespace Armator.Sim

open Lib Relation

/-! ## Scanning does not look at the processor -/

def Gdb.withArm (g : Gdb) (arm : ArmCore) : Gdb := { g with arm := arm }

/-- The same but for the processor, which is `arm` on the right. -/
def OtherArm (arm : ArmCore) (g g' : Gdb) : Prop := g' = g.withArm arm

section OtherArm

variable {arm : ArmCore} {g g' : Gdb} {data : ParserData}

theorem related_put (hg : OtherArm arm g g') (i : Nat) (s : List (BitVec 8)) :
    Related (OtherArm arm) (g.put i s) (g'.put i s) := by
  subst hg
  exact related_same rfl fun _ => related_ok rfl

theorem related_transmit (hg : OtherArm arm g g') :
    Related (OtherArm arm) (gdbTransmitPacket g) (gdbTransmitPacket g') := by
  subst hg
  exact related_ite (fun _ => related_ok rfl) fun _ => related_error _

theorem related_sendBuffer (hg : OtherArm arm g g') :
    Related (OtherArm arm) (gdbSendBuffer g) (gdbSendBuffer g') := by
  unfold gdbSendBuffer
  refine (related_put hg 0 [char '$']).bind fun g₁ g₁' h₁ => ?_
  have hcheck : g₁'.packet = g₁.packet := by rw [h₁, Gdb.withArm]
  rw [hcheck]
  refine related_same rfl fun x => ?_
  refine (related_put h₁ x.1 [char '#']).bind fun g₂ g₂' h₂ => ?_
  refine (related_put h₂ (x.1 + 1) _).bind fun g₃ g₃' h₃ => ?_
  refine (related_put h₃ (x.1 + 3) [0]).bind fun g₄ g₄' h₄ => ?_
  subst h₄
  exact related_transmit rfl

theorem related_sendData (hg : OtherArm arm g g') (s : List (BitVec 8)) :
    Related (OtherArm arm) (gdbSendData g s) (gdbSendData g' s) :=
  (related_put hg buffer (s ++ [0])).bind fun _ _ h => related_sendBuffer h

/-- The scanner's state, with the processor `arm` on the right. -/
def OtherCore (arm : ArmCore) (data data' : ParserData) : Prop := data' = data.withArm arm

theorem ParserData.related_store (data : ParserData) (arm : ArmCore) (i : Nat) (c : BitVec 8) :
    Related (OtherCore arm) (data.store i c) ((data.withArm arm).store i c) := by
  unfold ParserData.store
  by_cases hlt : i < data.buffer.size
  · rw [if_pos hlt, if_pos (show i < (data.withArm arm).buffer.size from hlt)]
    exact related_ok rfl
  · rw [if_neg hlt, if_neg (show ¬ i < (data.withArm arm).buffer.size from hlt)]
    exact related_error _

theorem related_handleError (data : ParserData) (arm : ArmCore) :
    Related (OtherCore arm) (handleError data) (handleError (data.withArm arm)) := by
  unfold handleError
  refine related_ite (fun _ => ?_) fun _ => related_ok rfl
  refine (data.related_store arm data.len 0).bind fun d d' hd => ?_
  subst hd
  exact related_ok rfl

theorem related_addCharacterToError (data : ParserData) (arm : ArmCore) (c : BitVec 8) :
    Related (OtherCore arm) (addCharacterToError data c)
      (addCharacterToError (data.withArm arm) c) := by
  have hput {d d' : ParserData} (hd : OtherCore arm d d') : Related (OtherCore arm)
      (d.store d.len c >>= fun stored => .ok { stored with len := d.len + 1 } :
        Except Fault ParserData)
      (d'.store d'.len c >>= fun stored => .ok { stored with len := d'.len + 1 }) := by
    subst hd
    refine (d.related_store arm d.len c).bind fun e e' he => ?_
    subst he
    exact related_ok rfl
  unfold addCharacterToError
  exact related_ite (fun _ => (related_handleError data arm).bind fun _ _ hd => hput hd)
    fun _ => hput rfl

theorem related_packetRequest (h : Host) (hg : OtherArm arm g g') (packet : Block (BitVec 8))
    (length : Nat) :
    Related (fun x y => OtherArm arm x.1 y.1 ∧ y.2 = x.2) (packetRequest h g packet length)
      (packetRequest h g' packet length) := by
  unfold packetRequest
  refine related_same rfl fun x => related_ite (fun _ => ?_) fun _ => related_ok ⟨?_, rfl⟩
  · refine related_same rfl fun stored => related_same rfl fun index => ?_
    subst hg
    cases handler index with
    | some f => exact related_ok ⟨rfl, rfl⟩
    | none =>
      refine Related.bind (Related.lift (related_sendData rfl [])) fun a b hab => ?_
      exact related_ok ⟨hab, rfl⟩
  · subst hg
    rfl

theorem related_scan (h : Host) (after : List (BitVec 8)) (data : ParserData) (arm : ArmCore)
    (t : Rule × List (BitVec 8)) :
    Related (fun x y => OtherCore arm x.1 y.1 ∧ y.2 = x.2) (scan h after data t)
      (scan h after (data.withArm arm) t) := by
  have hplain {x y : Except Halt ParserData} (hxy : Related (OtherCore arm) x y) :
      Related (fun x y => OtherCore arm x.1 y.1 ∧ y.2 = x.2)
        (x >>= fun d => .ok (d, (none : Option (BitVec 8 × Pointer))))
        (y >>= fun d => .ok (d, none)) :=
    hxy.bind fun _ _ hd => related_ok ⟨hd, rfl⟩
  obtain ⟨rule, text⟩ := t
  cases rule with
  | packet =>
    refine Related.bind (Related.lift (related_handleError data arm)) fun d d' hd => ?_
    subst hd
    refine (related_packetRequest h (g := d.gdb) rfl _ _).bind fun x y hxy => ?_
    obtain ⟨gdb, request⟩ := x
    obtain ⟨gdb', request'⟩ := y
    obtain ⟨hgdb, hrequest⟩ := hxy
    dsimp only [OtherArm] at hgdb hrequest
    subst hgdb hrequest
    exact related_ok ⟨rfl, rfl⟩
  | ack => exact hplain (Related.lift (related_handleError data arm))
  | nack =>
    refine hplain (Related.lift ?_)
    refine (related_handleError data arm).bind fun d d' hd => ?_
    subst hd
    refine (related_transmit (rfl : OtherArm arm d.gdb _)).bind fun a b hab => ?_
    subst hab
    exact related_ok rfl
  | other => exact hplain (Related.lift (related_addCharacterToError data arm _))
  | dflt => exact hplain (related_ok rfl)

end OtherArm

/-! ## An action in its parts -/

/-- The request is handled between the two calls on the lock. -/
def handled (h : Host) (steps : Nat) (data : ParserData) (request : BitVec 8 × Pointer) :
    Except Halt ParserData :=
  match handler request.1 with
  | some f => do
    let gdb ← f h steps (data.gdb.record .lock) request.2
    .ok (data.withGdb (gdb.record .unlock))
  | none => .ok data

section Parts

variable {h : Host} {g : Gdb} {data : ParserData} {after : List (BitVec 8)} {c : BitVec 8}
  {p : Pointer} {f : Handler}

theorem gdbPacketAnalysis_eq (h : Host) (steps : Nat) (g : Gdb) (packet : Block (BitVec 8))
    (length : Nat) : gdbPacketAnalysis h steps g packet length =
      packetRequest h g packet length >>= fun x =>
        match x.2 with
        | none => .ok x.1
        | some (index, p) =>
          match handler index with
          | some f => f h steps (x.1.record .lock) p >>= fun gdb => .ok (gdb.record .unlock)
          | none => .ok x.1 := by
  unfold gdbPacketAnalysis packetRequest
  rw [bind_assoc]
  refine congrArg (lift (packetCheck h packet length) >>= ·) (funext fun x => ?_)
  by_cases hx : x.2 = true
  · simp only [hx, if_true, bind_assoc]
    refine congrArg (lift (packet.store x.1 0) >>= ·) (funext fun stored => ?_)
    refine congrArg (lift (stored.load 1) >>= ·) (funext fun index => ?_)
    cases hf : handler index with
    | some f => simp only [ok_bind, hf]
    | none =>
      simp only [bind_assoc, ok_bind]
      exact (bind_pure _).symm
  · simp only [hx]
    rfl

theorem action_packet {steps : Nat} {payload : List (BitVec 8)} {g' : Gdb} {a b : BitVec 8}
    (hd : data.len = 0)
    (hrun : gdbPacketAnalysis h steps data.gdb (yytext (packetText payload a b) after)
      (packetText payload a b).length = .ok g') :
    action h steps after data (.packet, packetText payload a b) = .ok (data.withGdb g') := by
  unfold action
  rw [handleError_idle hd]
  change (gdbPacketAnalysis _ _ _ _ _ >>= fun gdb => _) = _
  rw [hrun]
  rfl

theorem action_eq (h : Host) (steps : Nat) (after : List (BitVec 8)) (data : ParserData)
    (t : Rule × List (BitVec 8)) : action h steps after data t =
      scan h after data t >>= fun x =>
        match x.2 with
        | none => .ok x.1
        | some r => handled h steps x.1 r := by
  have hplain (x : Except Halt ParserData) : x =
      (x >>= fun d => .ok (d, (none : Option (BitVec 8 × Pointer)))) >>= fun x =>
        match x.2 with
        | none => .ok x.1
        | some r => handled h steps x.1 r := by
    rw [bind_assoc]
    exact (bind_pure x).symm
  obtain ⟨rule, text⟩ := t
  cases rule with
  | packet =>
    unfold action scan
    rw [bind_assoc]
    refine congrArg (lift (handleError data) >>= ·) (funext fun d => ?_)
    rw [gdbPacketAnalysis_eq, bind_assoc, bind_assoc]
    refine congrArg (packetRequest h d.gdb (yytext text after) text.length >>= ·)
      (funext fun x => ?_)
    obtain ⟨gdb, request⟩ := x
    cases request with
    | none => rfl
    | some r =>
      obtain ⟨index, p⟩ := r
      dsimp only [ok_bind]
      unfold handled
      cases handler index with
      | none => rfl
      | some f =>
        dsimp only
        rw [bind_assoc]
        rfl
  | ack | nack | other | dflt => exact hplain _

theorem found_ite {a : BitVec 8} {f' : Handler} {rest : Option Handler} {P : Handler → Prop}
    (hf : (if c = a then some f' else rest) = some f) (h1 : P f') (hrest : rest = some f → P f) :
    P f := by
  by_cases hc : c = a
  · rw [if_pos hc] at hf
    cases hf
    exact h1
  · rw [if_neg hc] at hf
    exact hrest hf

theorem handler_steps (hf : handler c = some f) (hc : ¬ Continues c) (h : Host) (steps : Nat)
    (g : Gdb) (p : Pointer) : f h steps g p = f h 0 g p := by
  unfold handler at hf
  rw [if_neg fun hc' => hc (.inl hc'), if_neg fun hc' => hc (.inr hc')] at hf
  let P (f : Handler) : Prop := f h steps g p = f h 0 g p
  repeat refine found_ite (P := P) hf rfl fun hf => ?_
  cases hf

theorem handler_continues (hc : Continues c) :
    handler c = some cont ∨ handler c = some contWithSignal := by
  rcases hc with rfl | rfl
  · exact .inl rfl
  · exact .inr rfl

theorem contLoop_round (h : Host) (n : Nat) (g : Gdb) : contLoop h (n + 1) g =
    contRound h g >>= fun x => if x.2 then .ok x.1 else contLoop h n x.1 := by
  unfold contRound
  simp only [contLoop, bind_assoc, ok_bind]

end Parts

/-! ## Steps of the listeners -/

/-- What a step of `gdb_listener` does. -/
inductive GdbStep (h : Host) (after : List (Rule × List (BitVec 8)) → List (BitVec 8))
    (s : Process) : Process → Prop where
  | finish {data : ParserData} : s.gdb = .scanning → s.input = [] →
      lift (handleError s.data) = .ok data →
      GdbStep h after s { s with data := data, gdb := .exited }
  | scan {t : Rule × List (BitVec 8)} {ts : List (Rule × List (BitVec 8))} {data : ParserData} :
      s.gdb = .scanning → s.input = t :: ts → scan h (after (t :: ts)) s.data t = .ok (data, none) →
      GdbStep h after s { s with data := data, input := ts }
  | request {t : Rule × List (BitVec 8)} {ts : List (Rule × List (BitVec 8))} {data : ParserData}
      {index : BitVec 8} {p : Pointer} : s.gdb = .scanning → s.input = t :: ts →
      Sim.scan h (after (t :: ts)) s.data t = .ok (data, some (index, p)) →
      GdbStep h after s { s with data := data, input := ts, gdb := .locking index p }
  | lock {index : BitVec 8} {p : Pointer} : s.gdb = .locking index p → s.lock = none →
      GdbStep h after s { s with
        data := s.data.withGdb (s.data.gdb.record .lock)
        gdb := .handling index p
        lock := some .gdb }
  | call {index : BitVec 8} {p : Pointer} : s.gdb = .handling index p → Continues index →
      GdbStep h after s { s with gdb := .continuing }
  | handle {index : BitVec 8} {p : Pointer} {f : Handler} {gdb : Gdb} :
      s.gdb = .handling index p → ¬ Continues index → handler index = some f →
      f h 0 s.data.gdb p = .ok gdb →
      GdbStep h after s { s with data := s.data.withGdb gdb, gdb := .unlocking }
  | round {gdb : Gdb} : s.gdb = .continuing → contRound h s.data.gdb = .ok (gdb, false) →
      GdbStep h after s { s with data := s.data.withGdb gdb }
  | stop {gdb gdb' : Gdb} : s.gdb = .continuing → contRound h s.data.gdb = .ok (gdb, true) →
      lift (gdbSendStopReason gdb) = .ok gdb' →
      GdbStep h after s { s with data := s.data.withGdb gdb', gdb := .unlocking }
  | unlock : s.gdb = .unlocking →
      GdbStep h after s { s with
        data := s.data.withGdb (s.data.gdb.record .unlock)
        gdb := .scanning
        lock := none }

/-- What a step of `irq_listener` does. -/
inductive IrqStep (h : Host) (s : Process) : Process → Prop where
  | read {irq : BitVec 8} {irqs : List (BitVec 8)} : s.irq = .reading → s.irqs = irq :: irqs →
      IrqStep h s { s with irqs := irqs, irq := .locking irq }
  | lock {irq : BitVec 8} : s.irq = .locking irq → s.lock = none →
      IrqStep h s { s with irq := .raising irq, lock := some .irq }
  | raise {irq : BitVec 8} {r : Int} {arm : ArmCore} : s.irq = .raising irq →
      ¬ (s.main ≠ .joining ∧ UsesCore irq) →
      armException h.build s.data.gdb.arm irq = .ok (r, arm) →
      IrqStep h s { s with data := s.data.withArm arm, irq := .unlocking }
  | unlock : s.irq = .unlocking → IrqStep h s { s with irq := .reading, lock := none }

section Steps

variable {h : Host} {after : List (Rule × List (BitVec 8)) → List (BitVec 8)} {s s' : Process}

theorem gdbListener_iff :
    gdbListener h after s = .ok (some s') ↔ GdbStep h after s s' := by
  constructor
  · intro hs
    unfold gdbListener at hs
    split at hs
    · rename_i hg
      split at hs
      · rename_i hi
        obtain ⟨data, hrun, hok⟩ := exists_of_bind hs
        cases hok
        exact .finish hg hi hrun
      · rename_i t ts hi
        obtain ⟨⟨data, request⟩, hrun, hok⟩ := exists_of_bind hs
        cases request with
        | none =>
          cases hok
          exact .scan hg hi hrun
        | some r =>
          cases hok
          exact .request hg hi hrun
    · rename_i index p hg
      split at hs
      · cases hs
        exact .lock hg ‹_›
      · cases hs
    · rename_i index p hg
      split at hs
      · cases hs
        exact .call hg ‹_›
      · split at hs
        · obtain ⟨gdb, hrun, hok⟩ := exists_of_bind hs
          cases hok
          exact .handle hg ‹_› ‹_› hrun
        · cases hs
    · rename_i hg
      obtain ⟨⟨gdb, stop⟩, hrun, hok⟩ := exists_of_bind hs
      cases stop with
      | false =>
        cases hok
        exact .round hg hrun
      | true =>
        obtain ⟨gdb', hsend, hok⟩ := exists_of_bind hok
        cases hok
        exact .stop hg hrun hsend
    · rename_i hg
      cases hs
      exact .unlock hg
    · cases hs
  · intro hs
    unfold gdbListener
    cases hs with
    | finish hg hi hrun =>
      rw [hg, hi]
      dsimp only
      rw [hrun]
      rfl
    | scan hg hi hrun =>
      rw [hg, hi]
      dsimp only
      rw [hrun]
      rfl
    | request hg hi hrun =>
      rw [hg, hi]
      dsimp only
      rw [hrun]
      rfl
    | lock hg hfree =>
      rw [hg]
      exact if_pos hfree
    | call hg hc =>
      rw [hg]
      exact if_pos hc
    | handle hg hc hf hrun =>
      rw [hg]
      dsimp only
      rw [if_neg hc, hf]
      dsimp only
      rw [hrun]
      rfl
    | round hg hrun =>
      rw [hg]
      dsimp only
      rw [hrun]
      rfl
    | stop hg hrun hsend =>
      rw [hg]
      dsimp only
      rw [hrun]
      dsimp only [ok_bind, if_true]
      rw [hsend]
      rfl
    | unlock hg => rw [hg]

theorem irqListener_iff : irqListener h s = .ok (some s') ↔ IrqStep h s s' := by
  constructor
  · intro hs
    unfold irqListener at hs
    split at hs
    · split at hs
      · cases hs
      · cases hs
        exact .read ‹_› ‹_›
    · split at hs
      · cases hs
        exact .lock ‹_› ‹_›
      · cases hs
    · split at hs
      · cases hs
      · split at hs
        · cases hs
          exact .raise ‹_› ‹_› ‹_›
        · cases hs
    · cases hs
      exact .unlock ‹_›
  · intro hs
    unfold irqListener
    cases hs with
    | read hq hi => rw [hq, hi]
    | lock hq hfree =>
      rw [hq]
      exact if_pos hfree
    | raise hq hsafe hrun =>
      rw [hq]
      dsimp only
      rw [if_neg hsafe, hrun]
    | unlock hq => rw [hq]

/-- `gdb_listener` does not look at what `irq_listener` keeps. -/
theorem GdbStep.frame (hs : GdbStep h after s s') (irqs : List (BitVec 8)) (irq : IrqPoint) :
    GdbStep h after { s with irqs := irqs, irq := irq } { s' with irqs := irqs, irq := irq } := by
  cases hs with
  | finish hg hi hrun => exact .finish hg hi hrun
  | scan hg hi hrun => exact .scan hg hi hrun
  | request hg hi hrun => exact .request hg hi hrun
  | lock hg hfree => exact .lock hg hfree
  | call hg hc => exact .call hg hc
  | handle hg hc hf hrun => exact .handle hg hc hf hrun
  | round hg hrun => exact .round hg hrun
  | stop hg hrun hsend => exact .stop hg hrun hsend
  | unlock hg => exact .unlock hg

end Steps

/-! ## The lock -/

/-- Between the calls on the lock. -/
def GdbPoint.Inside : GdbPoint → Prop
  | handling _ _ | continuing | unlocking => True
  | _ => False

def IrqPoint.Inside : IrqPoint → Prop
  | raising _ | unlocking => True
  | _ => False

/-- Each listener is between its calls on the lock exactly while it holds it. -/
@[mk_iff]
structure Process.Disciplined (s : Process) : Prop where
  gdb : s.gdb.Inside ↔ s.lock = some .gdb
  irq : s.irq.Inside ↔ s.lock = some .irq

section Lock

variable {h : Host} {after : List (Rule × List (BitVec 8)) → List (BitVec 8)} {s s' : Process}

theorem GdbStep.disciplined (hs : GdbStep h after s s') (hd : s.Disciplined) :
    s'.Disciplined := by
  obtain ⟨hgdb, hirq⟩ := hd
  cases hs <;> simp_all [GdbPoint.Inside, Process.disciplined_iff]

theorem IrqStep.disciplined (hs : IrqStep h s s') (hd : s.Disciplined) : s'.Disciplined := by
  obtain ⟨hgdb, hirq⟩ := hd
  cases hs <;> simp_all [IrqPoint.Inside, Process.disciplined_iff]

/-- A step of the given listener. -/
def Process.StepOf (h : Host) (after : List (Rule × List (BitVec 8)) → List (BitVec 8)) :
    Listener → Process → Process → Prop
  | .gdb => GdbStep h after
  | .irq => IrqStep h

theorem disciplined_stepOf {i : Listener} (hs : Process.StepOf h after i s s')
    (hd : s.Disciplined) : s'.Disciplined := by
  cases i with
  | gdb => exact GdbStep.disciplined hs hd
  | irq => exact IrqStep.disciplined hs hd

theorem ParserData.withArm_withArm {data : ParserData} {arm arm' : ArmCore}
    (ha : data.gdb.arm = arm) : (data.withArm arm').withArm arm = data := by
  subst ha
  rfl

theorem scan_arm {bytes : List (BitVec 8)} {data data' : ParserData}
    {t : Rule × List (BitVec 8)} {r : Option (BitVec 8 × Pointer)}
    (hs : scan h bytes data t = .ok (data', r)) : data'.gdb.arm = data.gdb.arm := by
  obtain ⟨y, hy, hdata, -⟩ := (related_scan h bytes data data.gdb.arm t).returns hs
  rw [show data.withArm data.gdb.arm = data from rfl, hs] at hy
  cases hy
  have harm := congrArg (fun d : ParserData => d.gdb.arm) hdata
  exact harm

theorem scan_withArm {bytes : List (BitVec 8)} {data data' : ParserData}
    {t : Rule × List (BitVec 8)} {r : Option (BitVec 8 × Pointer)}
    (hs : scan h bytes data t = .ok (data', r)) (arm : ArmCore) :
    scan h bytes (data.withArm arm) t = .ok (data'.withArm arm, r) := by
  obtain ⟨⟨d, r'⟩, hy, hdata, hr⟩ := (related_scan h bytes data arm t).returns hs
  dsimp only [OtherCore] at hdata hr
  rw [hy, hdata, hr]

theorem lift_handleError_withArm {data data' : ParserData}
    (hs : lift (handleError data) = .ok data') (arm : ArmCore) :
    lift (handleError (data.withArm arm)) = .ok (data'.withArm arm) := by
  obtain ⟨d, hy, rfl⟩ := (Related.lift (related_handleError data arm)).returns hs
  exact hy

theorem handleError_arm {data data' : ParserData} (hs : lift (handleError data) = .ok data') :
    data'.gdb.arm = data.gdb.arm := by
  have hself := lift_handleError_withArm hs data.gdb.arm
  rw [show data.withArm data.gdb.arm = data from rfl, hs] at hself
  have harm := congrArg (fun d : ParserData => d.gdb.arm) (Except.ok.inj hself)
  exact harm

/-- A step of the scanner is the same whatever the other threads have done. -/
theorem GdbStep.aside (hs : GdbStep h after s s') (hg : s.gdb = .scanning) :
    s'.data.gdb.arm = s.data.gdb.arm ∧ ¬ s'.gdb.Inside ∧
      s' = { s with data := s'.data, input := s'.input, gdb := s'.gdb } ∧
      ∀ t : Process, t.gdb = .scanning → t.input = s.input →
        t.data = s.data.withArm t.data.gdb.arm →
        GdbStep h after t
          { t with data := s'.data.withArm t.data.gdb.arm, input := s'.input, gdb := s'.gdb } := by
  cases hs with
  | finish _ hi hrun =>
    refine ⟨handleError_arm hrun, id, rfl, fun t htg hti htd => ?_⟩
    have hrun' := lift_handleError_withArm hrun t.data.gdb.arm
    rw [← htd] at hrun'
    have hstep : GdbStep h after t _ := .finish htg (hti.trans hi) hrun'
    dsimp only
    rw [← hti]
    exact hstep
  | scan _ hi hrun =>
    refine ⟨scan_arm hrun, by rw [hg]; exact id, by rw [hg], fun t htg hti htd => ?_⟩
    have hrun' := scan_withArm hrun t.data.gdb.arm
    rw [← htd] at hrun'
    have hstep := GdbStep.scan htg (hti.trans hi) hrun'
    rw [hg, ← htg]
    exact hstep
  | request _ hi hrun =>
    refine ⟨scan_arm hrun, id, rfl, fun t htg hti htd => ?_⟩
    have hrun' := scan_withArm hrun t.data.gdb.arm
    rw [← htd] at hrun'
    exact .request htg (hti.trans hi) hrun'
  | lock hg' _ | call hg' _ | handle hg' _ _ _ | round hg' _ | stop hg' _ _ | unlock hg' =>
    rw [hg] at hg'
    cases hg'

/-- Outside of the section, and without taking the lock, `gdb_listener` scans. -/
theorem GdbStep.scanning (hs : GdbStep h after s s') (hout : ¬ s.gdb.Inside)
    (hlock : s'.lock = s.lock) : s.gdb = .scanning := by
  cases hs with
  | finish hg _ _ | scan hg _ _ | request hg _ _ => exact hg
  | lock hg hfree =>
    rw [hfree] at hlock
    cases hlock
  | call hg _ | handle hg _ _ _ | round hg _ | stop hg _ _ | unlock hg =>
    rw [hg] at hout
    exact absurd trivial hout

theorem IrqStep.reading (hs : IrqStep h s s') (hout : ¬ s.irq.Inside)
    (hlock : s'.lock = s.lock) : s.irq = .reading ∧
      ∃ irq irqs, s.irqs = irq :: irqs ∧ s' = { s with irqs := irqs, irq := .locking irq } := by
  cases hs with
  | read hq hi => exact ⟨hq, _, _, hi, rfl⟩
  | lock hq hfree =>
    rw [hfree] at hlock
    cases hlock
  | raise hq _ _ | unlock hq =>
    rw [hq] at hout
    exact absurd trivial hout

/-- While a listener holds the lock, the steps of the other may be done before its own. -/
theorem stepOf_before {i j : Listener} {t u : Process} (hij : i ≠ j) (hd : s.Disciplined)
    (hj : Process.StepOf h after j s t) (ht : t.lock = some j)
    (hi : Process.StepOf h after i t u) (hu : u.lock = t.lock) :
    ∃ t', Process.StepOf h after i s t' ∧ t'.lock = s.lock ∧ Process.StepOf h after j t' u := by
  have hdt := disciplined_stepOf hj hd
  cases i with
  | gdb =>
    cases j with
    | gdb => exact absurd rfl hij
    | irq =>
      have hout : ¬ t.gdb.Inside := by
        rw [hdt.gdb, ht]
        exact nofun
      obtain ⟨harm, -, hframe, hany⟩ := GdbStep.aside hi (GdbStep.scanning hi hout hu)
      have hscan := GdbStep.scanning hi hout hu
      refine ⟨{ s with data := u.data.withArm s.data.gdb.arm, input := u.input, gdb := u.gdb },
        ?_, rfl, ?_⟩
      · cases hj with
        | read => exact hany s hscan rfl rfl
        | lock => exact hany s hscan rfl rfl
        | raise => exact hany s hscan rfl rfl
        | unlock => exact hany s hscan rfl rfl
      · cases hj with
        | read hq hi' =>
          have hin := hdt.irq.2 ht
          exact hin.elim
        | lock hq hfree =>
          rw [hframe, ← harm]
          exact .lock hq hfree
        | @raise irq r arm hq hsafe hrun =>
          have hcore : u.data.gdb.arm = arm := harm
          rw [hframe]
          have hraise := IrqStep.raise (h := h) (s := { s with
            data := u.data.withArm s.data.gdb.arm, input := u.input, gdb := u.gdb }) hq hsafe hrun
          dsimp only at hraise
          rw [ParserData.withArm_withArm hcore] at hraise
          exact hraise
        | unlock hq => cases ht
  | irq =>
    cases j with
    | irq => exact absurd rfl hij
    | gdb =>
      have hout : ¬ t.irq.Inside := by
        rw [hdt.irq, ht]
        exact nofun
      obtain ⟨hread, irq, irqs, hirqs, rfl⟩ := IrqStep.reading hi hout hu
      have hsame : s.irq = t.irq ∧ s.irqs = t.irqs := by cases hj <;> exact ⟨rfl, rfl⟩
      refine ⟨{ s with irqs := irqs, irq := .locking irq },
        .read (hsame.1.trans hread) (hsame.2.trans hirqs), rfl, GdbStep.frame hj _ _⟩

end Lock

end Armator.Sim
