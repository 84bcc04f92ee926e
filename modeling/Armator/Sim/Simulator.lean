import Armator.Sim.Scanner

/-!
# `arm_simulator.c`

The process: the two listeners that `main` creates, and `main`, which waits for the first of
them and then destroys the processor. The listeners share the processor, which is part of the
state of the debug server here, and a lock. A step of a listener goes from one point of its
code to the next: a call on the lock is a step of its own, and so is each round of the loop of
`cont`. The input is what the client sends over the whole connection, cut into tokens; `irqs`
are the bytes that arrive on the connections of the other listener, one after the other.
-/

namespace Armator.Sim

open Lib

/-! ## `gdb_packet_analysis` in two parts -/

/-- `gdb_packet_analysis` up to the lock, and the request that is to be handled behind it. -/
def packetRequest (h : Host) (gdb : Gdb) (packet : Block (BitVec 8)) (length : Nat) :
    Except Halt (Gdb × Option (BitVec 8 × Pointer)) := do
  let (i, accepted) ← lift (packetCheck h packet length)
  if accepted then
    let gdb := gdbSendAck gdb
    let packet ← lift (packet.store i 0)
    let index ← lift (packet.load 1)
    match handler index with
    | some _ => .ok (gdb, some (index, ⟨packet, 2⟩))
    | none => do
      let gdb ← lift (gdbSendData gdb [])
      .ok (gdb, none)
  else .ok (gdbRequireRetransmission gdb, none)

/-- The action of a rule, up to the lock if it comes to it. -/
def scan (h : Host) (after : List (BitVec 8)) (data : ParserData) :
    Rule × List (BitVec 8) → Except Halt (ParserData × Option (BitVec 8 × Pointer))
  | (.packet, text) => do
    let data ← lift (handleError data)
    let (gdb, request) ← packetRequest h data.gdb (yytext text after) text.length
    .ok ({ data with gdb := gdb }, request)
  | t => do
    let data ← action h 0 after data t
    .ok (data, none)

/-- The handler runs the loop of `cont`. -/
def Continues (index : BitVec 8) : Prop := index = char 'c' ∨ index = char 'C'

instance (index : BitVec 8) : Decidable (Continues index) := inferInstanceAs (Decidable (_ ∨ _))

/-- One round of the loop of `cont`: the state and `stop`. -/
def contRound (h : Host) (gdb : Gdb) : Except Halt (Gdb × Bool) := do
  let gdb ← lift (singleStep h gdb)
  let PC ← lift (registersRead gdb.arm.reg 15 (registersGetMode gdb.arm.reg))
  let position ← lift (gdbFindBreakpoint gdb.breakpoints PC)
  let stop : Bool := if position ≠ -1 then true else gdb.targetException ≠ 0
  .ok (gdb, stop)

/-! ## The threads -/

inductive Listener where
  | gdb
  | irq
  deriving DecidableEq, Repr

/-- Where `gdb_listener` is. -/
inductive GdbPoint where
  /-- Before the next token. -/
  | scanning
  /-- Before `pthread_mutex_lock`, for the request `index` with its data. -/
  | locking (index : BitVec 8) (data : Pointer)
  /-- Before the call of the handler. -/
  | handling (index : BitVec 8) (data : Pointer)
  /-- Before a round of the loop of `cont`. -/
  | continuing
  /-- Before `pthread_mutex_unlock`. -/
  | unlocking
  | exited

/-- Where `irq_listener` is. -/
inductive IrqPoint where
  /-- Before the next `Read`. -/
  | reading
  | locking (irq : BitVec 8)
  /-- Before the call of `arm_exception`. -/
  | raising (irq : BitVec 8)
  | unlocking

/-- Where `main` is. -/
inductive MainPoint where
  /-- In `pthread_join`. -/
  | joining
  /-- Behind the calls that destroy the processor. -/
  | destroyed
  /-- The process has ended. -/
  | returned
  deriving DecidableEq, Repr

/-- How a thread does not go on. -/
inductive Crash where
  | halt (e : Halt)
  /-- The processor is used after it has been destroyed. -/
  | freed
  deriving DecidableEq, Repr

structure Process where
  data : ParserData
  input : List (Rule × List (BitVec 8))
  irqs : List (BitVec 8)
  gdb : GdbPoint
  irq : IrqPoint
  main : MainPoint
  lock : Option Listener

/-- What the listeners find when they start. -/
def Process.start (data : ParserData) (input irqs : List (BitVec 8)) : Process where
  data := data
  input := scanner.tokens input
  irqs := irqs
  gdb := .scanning
  irq := .reading
  main := .joining
  lock := none

/-- The processor after something was done to it. -/
def ParserData.withArm (data : ParserData) (arm : ArmCore) : ParserData :=
  { data with gdb := { data.gdb with arm := arm } }

def ParserData.withGdb (data : ParserData) (gdb : Gdb) : ParserData := { data with gdb := gdb }

/-- A step of `gdb_listener`, if it is not blocked. -/
def gdbListener (h : Host) (after : List (Rule × List (BitVec 8)) → List (BitVec 8))
    (s : Process) : Except Halt (Option Process) :=
  match s.gdb with
  | .scanning =>
    match s.input with
    | [] => do
      let data ← lift (handleError s.data)
      .ok (some { s with data := data, gdb := .exited })
    | t :: ts => do
      let (data, request) ← scan h (after (t :: ts)) s.data t
      match request with
      | none => .ok (some { s with data := data, input := ts })
      | some (index, p) =>
        .ok (some { s with data := data, input := ts, gdb := .locking index p })
  | .locking index p =>
    if s.lock = none then
      .ok (some { s with
        data := s.data.withGdb (s.data.gdb.record .lock)
        gdb := .handling index p
        lock := some .gdb })
    else .ok none
  | .handling index p =>
    if Continues index then .ok (some { s with gdb := .continuing })
    else
      match handler index with
      | some f => do
        let gdb ← f h 0 s.data.gdb p
        .ok (some { s with data := s.data.withGdb gdb, gdb := .unlocking })
      | none => .ok none
  | .continuing => do
    let (gdb, stop) ← contRound h s.data.gdb
    if stop then do
      let gdb ← lift (gdbSendStopReason gdb)
      .ok (some { s with data := s.data.withGdb gdb, gdb := .unlocking })
    else .ok (some { s with data := s.data.withGdb gdb })
  | .unlocking =>
    .ok (some { s with
      data := s.data.withGdb (s.data.gdb.record .unlock)
      gdb := .scanning
      lock := none })
  | .exited => .ok none

/-- The exceptions for which `arm_exception` reads or writes the processor. -/
def UsesCore (irq : BitVec 8) : Prop :=
  (irq.toNat : Int) = SOFTWARE_INTERRUPT ∨ (irq.toNat : Int) = RESET

instance (irq : BitVec 8) : Decidable (UsesCore irq) := inferInstanceAs (Decidable (_ ∨ _))

/-- A step of `irq_listener`. -/
def irqListener (h : Host) (s : Process) : Except Crash (Option Process) :=
  match s.irq with
  | .reading =>
    match s.irqs with
    | [] => .ok none
    | irq :: irqs => .ok (some { s with irqs := irqs, irq := .locking irq })
  | .locking irq =>
    if s.lock = none then .ok (some { s with irq := .raising irq, lock := some .irq })
    else .ok none
  | .raising irq =>
    if s.main ≠ .joining ∧ UsesCore irq then .error .freed
    else
      match armException h.build s.data.gdb.arm irq with
      | .ok (_, arm) => .ok (some { s with data := s.data.withArm arm, irq := .unlocking })
      | .error f => .error (.halt (.fault f))
  | .unlocking => .ok (some { s with irq := .reading, lock := none })

/-- A step of `main`. -/
def mainThread (s : Process) : Option Process :=
  match s.main with
  | .joining =>
    match s.gdb with
    | .exited => some { s with main := .destroyed }
    | _ => none
  | .destroyed => some { s with main := .returned }
  | .returned => none

/-- A step of the process, which the return of `main` ends. -/
inductive Process.Step (h : Host) (after : List (Rule × List (BitVec 8)) → List (BitVec 8))
    (s : Process) : Process → Prop where
  | gdb {s' : Process} : s.main ≠ .returned → gdbListener h after s = .ok (some s') →
      Step h after s s'
  | irq {s' : Process} : s.main ≠ .returned → irqListener h s = .ok (some s') → Step h after s s'
  | main {s' : Process} : mainThread s = some s' → Step h after s s'

end Armator.Sim
