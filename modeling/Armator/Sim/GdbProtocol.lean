import Armator.Sim.Breakpoints
import Armator.Sim.CString
import Armator.Sim.Instruction

/-!
# `gdb_protocol.c`

The state of the debug server: the simulated processor, whose registers and memory are
`gdb->reg` and `gdb->mem`, the packet under construction, the breakpoint table, and the
events others see: the bytes written to the connection and the calls on the lock. A
`char *` into `gdb->packet` is an index; `gdb->buffer` is the index 1.

A handler returns, or it halts: it faults, it fails an assertion, or it is still running
after `steps` steps of the processor, which only `cont` can be. The trace and debug calls
are left out. A byte is recorded when it is given to `Rio_writen`; what a connection takes of
these bytes is left to `Csapp`, and behind a `shutdown` it takes none.
-/

namespace Armator.Sim

open Lib

def MAX_PACKET_SIZE : Nat := 4096

/-- How a handler does not return. -/
inductive Halt where
  | fault (f : Fault)
  | assertion
  | running
  deriving DecidableEq, Repr

/-- A computation without assertions and without loops that may run for ever. -/
def lift {α : Type} : Except Fault α → Except Halt α
  | .ok a => .ok a
  | .error f => .error (.fault f)

inductive Event where
  /-- A byte written to the connection. -/
  | byte (b : BitVec 8)
  /-- `shutdown(gdb->fd, SHUT_WR)` -/
  | shutdown
  | lock
  | unlock
  deriving DecidableEq, Repr

/-! ## The state -/

/-- `char packet[MAX_PACKET_SIZE]` -/
structure Packet where
  value : Block (BitVec 8)
  alloc : value.size = MAX_PACKET_SIZE
  deriving DecidableEq

namespace Packet

/-- A packet that begins with the given characters, with zeros behind them. -/
def ofChars (s : List (BitVec 8)) (h : s.length ≤ MAX_PACKET_SIZE) : Packet where
  value := ⟨s ++ List.replicate (MAX_PACKET_SIZE - s.length) 0⟩
  alloc := by
    rw [Block.size, List.length_append, List.length_replicate]
    omega

def set (packet : Packet) (i : Nat) (c : BitVec 8) : Packet where
  value := packet.value.set i c
  alloc := by rw [Block.size_set, packet.alloc]

/-- `packet[i] = c` -/
def store (packet : Packet) (i : Nat) (c : BitVec 8) : Except Fault Packet :=
  if i < packet.value.size then .ok (packet.set i c)
  else .error (.outOfBounds i packet.value.size)

/-- The characters of `s` stored from `i` on. -/
def storeAll (packet : Packet) (i : Nat) : List (BitVec 8) → Except Fault Packet
  | [] => .ok packet
  | c :: s => do
    let packet ← packet.store i c
    packet.storeAll (i + 1) s

end Packet

/-- `struct gdb_protocol_data`, and the events so far. -/
structure Gdb where
  arm : ArmCore
  targetException : Int
  packet : Packet
  breakpoints : Breakpoints
  len : Nat
  events : List Event
  deriving DecidableEq

/-- `gdb->buffer` -/
def buffer : Nat := 1

namespace Gdb

/-- A string stored in the packet from `i` on, without or with its NUL. -/
def put (gdb : Gdb) (i : Nat) (s : List (BitVec 8)) : Except Fault Gdb := do
  let packet ← gdb.packet.storeAll i s
  .ok { gdb with packet := packet }

def record (gdb : Gdb) (e : Event) : Gdb := { gdb with events := gdb.events ++ [e] }

/-- `Rio_writen(gdb->fd, bytes, n)` -/
def emit (gdb : Gdb) (bytes : List (BitVec 8)) : Gdb :=
  { gdb with events := gdb.events ++ bytes.map .byte }

end Gdb

/-- The array and the packet hold whatever `malloc` left in them. -/
def gdbInitData (arm : ArmCore) (packet : Packet) (junk : Nat → BitVec 32) : Gdb where
  arm := arm
  targetException := 0
  packet := packet
  breakpoints := .init junk
  len := 0
  events := []

/-! ## Sending -/

def gdbSendAck (gdb : Gdb) : Gdb := gdb.emit [char '+']

def gdbRequireRetransmission (gdb : Gdb) : Gdb := gdb.emit [char '-']

def gdbTransmitPacket (gdb : Gdb) : Except Fault Gdb :=
  if gdb.len ≤ gdb.packet.value.size then .ok (gdb.emit (gdb.packet.value.cells.take gdb.len))
  else .error (.outOfBounds gdb.len gdb.packet.value.size)

/-- The loop of `gdb_send_buffer` over the characters still to visit. -/
def checksumLoop (size : Nat) : List (BitVec 8) → Nat → BitVec 8 → Except Fault (Nat × BitVec 8)
  | [], i, _ => .error (.outOfBounds i size)
  | c :: s, i, check => if c = 0 then .ok (i, check) else checksumLoop size s (i + 1) (check + c)

def gdbSendBuffer (gdb : Gdb) : Except Fault Gdb := do
  let gdb ← gdb.put 0 [char '$']
  let (i, check) ← checksumLoop gdb.packet.value.size (gdb.packet.value.cells.drop 1) 1 0
  let gdb ← gdb.put i [char '#']
  let gdb ← gdb.put (i + 1) (hexText 2 check.toNat ++ [0])
  let gdb ← gdb.put (i + 3) [0]
  gdbTransmitPacket { gdb with len := i + 3 }

def gdbSendData (gdb : Gdb) (data : List (BitVec 8)) : Except Fault Gdb := do
  let gdb ← gdb.put buffer (data ++ [0])
  gdbSendBuffer gdb

def readUint32 (h : Host) (data : Pointer) : Except Fault (BitVec 32) := do
  let s ← data.string
  .ok (h.assigned 32 (sscanf [.hex (some 8)] s) 0 .readValue)

def writeUint32 (gdb : Gdb) (data : Nat) (value : BitVec 32) : Except Fault Gdb :=
  gdb.put data (hexText 8 value.toNat ++ [0])

def gdbSendStopReason (gdb : Gdb) : Except Fault Gdb :=
  let action :=
    if gdb.targetException = UNDEFINED_INSTRUCTION then text "S04"
    else if gdb.targetException = PREFETCH_ABORT then text "S0A"
    else if gdb.targetException = DATA_ABORT then text "S0B"
    else if gdb.targetException = END_SIMULATION then text "X05"
    else text "S05"
  gdbSendData gdb action

/-! ## Handlers -/

def singleStep (h : Host) (gdb : Gdb) : Except Fault Gdb := do
  let (result, arm) ← armStep h.build gdb.arm
  .ok { gdb with targetException := result, arm := arm }

def singleStepWithSignal (h : Host) (gdb : Gdb) : Except Fault Gdb := singleStep h gdb

/-- The loop of `cont`, for at most `steps` steps. -/
def contLoop (h : Host) : Nat → Gdb → Except Halt Gdb
  | 0, _ => .error .running
  | steps + 1, gdb => do
    let gdb ← lift (singleStep h gdb)
    let PC ← lift (registersRead gdb.arm.reg 15 (registersGetMode gdb.arm.reg))
    let position ← lift (gdbFindBreakpoint gdb.breakpoints PC)
    let stop : Bool := if position ≠ -1 then true else gdb.targetException ≠ 0
    if stop then .ok gdb else contLoop h steps gdb

/-- A handler: the data begin after the command letter. -/
abbrev Handler := Host → Nat → Gdb → Pointer → Except Halt Gdb

def cont : Handler := fun h steps gdb _ => do
  let gdb ← contLoop h steps gdb
  lift (gdbSendStopReason gdb)

def contWithSignal : Handler := fun h steps gdb data => cont h steps gdb data

def killRequest : Handler := fun _ _ gdb _ => .ok (gdb.record .shutdown)

def query : Handler := fun _ _ gdb data => lift do
  let data ← data.string
  if data = text "Offsets" then gdbSendData gdb (text "Text=0;Data=0;Bss=0")
  else if data.take 9 = text "Supported" then gdbSendData gdb (text "PacketSize=400")
  else if data = text "TStatus" then gdbSendData gdb (text "T0;tnotrun:0")
  else if data = text "Symbol::" then gdbSendData gdb []
  else gdbSendData gdb []

/-- `read_register`; `buffer` is an index into the packet. -/
def readRegister (gdb : Gdb) (buffer : Nat) (reg : BitVec 8) : Except Halt Gdb :=
  if reg.toNat < 16 then lift do
    let value ← registersRead gdb.arm.reg reg (registersGetMode gdb.arm.reg)
    writeUint32 gdb buffer value
  else .error .assertion

/-- Fields of eight characters one after the other, from `position` on. -/
def putFields (write : Gdb → Nat → Nat → Except Halt Gdb) (is : List Nat) (gdb : Gdb)
    (position : Nat) : Except Halt (Gdb × Nat) :=
  is.foldlM (fun x i => do
    let gdb ← write x.1 x.2 i
    .ok (gdb, x.2 + 8)) (gdb, position)

def readGeneralRegisters : Handler := fun _ _ gdb _ => do
  let position := buffer
  let (gdb, position) ←
    putFields (fun gdb position i => readRegister gdb position (BitVec.ofNat 8 i)) (List.range 16)
      gdb position
  -- three words for each of the eight floating point registers
  let (gdb, position) ←
    putFields (fun gdb position _ => lift (gdb.put position (text "xxxxxxxx" ++ [0])))
      (List.range (8 * 3)) gdb position
  let gdb ← lift (gdb.put position (text "xxxxxxxx" ++ [0]))
  let position := position + 8
  let gdb ← lift (writeUint32 gdb position (registersReadCpsr gdb.arm.reg))
  lift (gdbSendBuffer gdb)

/-- The loop of `read_memory` while there are bytes to read. -/
def readMemoryLoop : Nat → BitVec 32 → BitVec 8 → Gdb → Nat → Except Fault Gdb
  | 0, _, _, gdb, _ => .ok gdb
  | size + 1, address, value, gdb, position => do
    let (result, value) ← memoryReadByte gdb.arm.mem address value
    if result ≠ -1 then do
      let gdb ← gdb.put position (hexText 2 value.toNat ++ [0])
      readMemoryLoop size (address + 1) value gdb (position + 2)
    else .ok gdb

def readMemory : Handler := fun h _ gdb data => lift do
  let s ← data.string
  let values := sscanf [.hex none, .literal (char ','), .hex none] s
  let address : BitVec 32 := h.assigned 32 values 0 .readMemoryAddress
  let size : BitVec 32 := h.assigned 32 values 1 .readMemorySize
  let position := buffer
  if address.toNat < memoryGetSize gdb.arm.mem then
    let gdb ← gdb.put position [0]
    let gdb ← readMemoryLoop size.toNat address ((h.junk .readMemoryValue).setWidth 8) gdb position
    gdbSendBuffer gdb
  else
    -- `EFAULT` is 14
    let gdb ← gdb.put position (text "E0E" ++ [0])
    gdbSendBuffer gdb

def readSingleRegister : Handler := fun h _ gdb data => do
  let s ← lift data.string
  let reg := BitVec.ofInt 32 (atoi h s)
  let gdb ← readRegister gdb buffer (reg.setWidth 8)
  lift (gdbSendBuffer gdb)

def reason : Handler := fun _ _ gdb _ => lift (gdbSendStopReason gdb)

def setThread : Handler := fun h _ gdb data => lift do
  let type ← data.deref
  let s ← (data.add 1).string
  let value := atoi h s
  if (type = char 'c' ∨ type = char 'g') ∧ value < 1 ∧ value > -2 then gdbSendData gdb (text "OK")
  else gdbSendData gdb (text "E01")

def step : Handler := fun h _ gdb _ => lift do
  let gdb ← singleStep h gdb
  gdbSendStopReason gdb

def stepWithSignal : Handler := fun h _ gdb _ => lift do
  let gdb ← singleStepWithSignal h gdb
  gdbSendStopReason gdb

/-- `write_register`; the warning about the PC goes to the standard error. -/
def writeRegister (h : Host) (gdb : Gdb) (reg : BitVec 32) (data : Pointer) : Except Halt Gdb := do
  let value ← lift (readUint32 h data)
  if reg.toNat < 16 then lift do
    let r ← registersWrite gdb.arm.reg (reg.setWidth 8) (registersGetMode gdb.arm.reg) value
    .ok { gdb with arm := { gdb.arm with reg := r } }
  else .error .assertion

def writeGeneralRegisters : Handler := fun h _ gdb data => do
  let position := data
  let (gdb, position) ← (List.range 16).foldlM (fun x i => do
    let gdb ← writeRegister h x.1 (BitVec.ofNat 32 i) x.2
    .ok (gdb, x.2.add 8)) (gdb, position)
  -- the floating point fields, then `fps`, are skipped
  let position := (List.range (8 * 3)).foldl (fun position _ => position.add 8) position
  let position := position.add 8
  let value ← lift (readUint32 h position)
  let gdb := { gdb with arm := { gdb.arm with reg := registersWriteCpsr gdb.arm.reg value } }
  lift (gdbSendData gdb (text "OK"))

def writeSingleRegister : Handler := fun h _ gdb data => do
  let s ← lift data.string
  let reg : BitVec 32 := h.assigned 32 (sscanf [.hex none] s) 0 .writeRegisterReg
  let found ← lift (index data (char '='))
  let gdb ← writeRegister h gdb reg (found.add 1)
  lift (gdbSendData gdb (text "OK"))

/-- The loop of `write_memory_binary`: the state and the final `write_ok`. -/
def writeMemoryLoop : Nat → Pointer → BitVec 32 → Gdb → Except Fault (Gdb × Bool)
  | 0, _, _, gdb => .ok (gdb, true)
  | size + 1, content, address, gdb => do
    let c ← content.deref
    let (value, content) ←
      if c = 0x7d then do
        let c ← (content.add 1).deref
        .ok (c ^^^ 0x20, content.add 1)
      else .ok (c, content)
    let (result, mem) ← memoryWriteByte gdb.arm.mem address value
    let gdb := { gdb with arm := { gdb.arm with mem := mem } }
    if result = 0 then writeMemoryLoop size (content.add 1) (address + 1) gdb
    else .ok (gdb, false)

def writeMemoryBinary : Handler := fun h _ gdb data => lift do
  let s ← data.string
  let values := sscanf [.hex none, .literal (char ','), .hex none] s
  let address : BitVec 32 := h.assigned 32 values 0 .writeMemoryAddress
  let size : BitVec 32 := h.assigned 32 values 1 .writeMemorySize
  let found ← index data (char ':')
  let content := found.add 1
  let (gdb, writeOk) ←
    if address.toNat < memoryGetSize gdb.arm.mem then
      writeMemoryLoop size.toNat content address gdb
    else .ok (gdb, false)
  if writeOk then gdbSendData gdb (text "OK") else gdbSendData gdb (text "E02")

/-- The type and the address of a breakpoint request; the length is not used. -/
def breakpointArguments (h : Host) (type address : GdbLocal) (data : Pointer) :
    Except Fault (BitVec 8 × BitVec 32) := do
  let s ← data.string
  let values :=
    sscanf [.hex none, .literal (char ','), .hex none, .literal (char ','), .hex none] s
  .ok (h.assigned 8 values 0 type, h.assigned 32 values 1 address)

def setBreakpoint : Handler := fun h _ gdb data => lift do
  let (type, address) ← breakpointArguments h .setBreakpointType .setBreakpointAddress data
  if type ≠ 0 then gdbSendData gdb (text "E03")
  else do
    let (result, table) ← gdbAddBreakpoint gdb.breakpoints address
    let gdb := { gdb with breakpoints := table }
    if result ≠ 0 then gdbSendData gdb (text "OK") else gdbSendData gdb (text "E04")

def removeBreakpoint : Handler := fun h _ gdb data => lift do
  let (type, address) ← breakpointArguments h .removeBreakpointType .removeBreakpointAddress data
  if type ≠ 0 then gdbSendData gdb (text "E03")
  else do
    let (result, table) ← gdbRemoveBreakpoint gdb.breakpoints address
    let gdb := { gdb with breakpoints := table }
    if result ≠ 0 then gdbSendData gdb (text "OK") else gdbSendData gdb (text "E05")

/-! ## Requests -/

/-- The table `handler` as `gdb_init` fills it. -/
def handler (index : BitVec 8) : Option Handler :=
  if index = char 'c' then some cont
  else if index = char 'C' then some contWithSignal
  else if index = char 'k' then some killRequest
  else if index = char 'q' then some query
  else if index = char 'g' then some readGeneralRegisters
  else if index = char 'm' then some readMemory
  else if index = char 'p' then some readSingleRegister
  else if index = char '?' then some reason
  else if index = char 'H' then some setThread
  else if index = char 's' then some step
  else if index = char 'S' then some stepWithSignal
  else if index = char 'G' then some writeGeneralRegisters
  else if index = char 'X' then some writeMemoryBinary
  else if index = char 'P' then some writeSingleRegister
  else if index = char 'z' then some removeBreakpoint
  else if index = char 'Z' then some setBreakpoint
  else none

/-- The index of the `#` and the result of `check == given`. -/
def packetCheck (h : Host) (packet : Block (BitVec 8)) (length : Nat) :
    Except Fault (Nat × Bool) := do
  let check : BitVec 8 ← (List.range' 1 (length - 4)).foldlM (fun check i => do
    let c ← packet.load i
    .ok (check + c)) 0
  let i := max 1 (length - 3)
  let s ← (⟨packet, i + 1⟩ : Pointer).string
  let given : BitVec 32 := h.assigned 32 (sscanf [.hex none] s) 0 .analysisGiven
  .ok (i, check.setWidth 32 = given)

def gdbPacketAnalysis (h : Host) (steps : Nat) (gdb : Gdb) (packet : Block (BitVec 8))
    (length : Nat) : Except Halt Gdb := do
  let (i, accepted) ← lift (packetCheck h packet length)
  if accepted then
    let gdb := gdbSendAck gdb
    let packet ← lift (packet.store i 0)
    let index ← lift (packet.load 1)
    match handler index with
    | some f =>
      let gdb := gdb.record .lock
      let gdb ← f h steps gdb ⟨packet, 2⟩
      .ok (gdb.record .unlock)
    | none => lift (gdbSendData gdb [])
  else .ok (gdbRequireRetransmission gdb)

end Armator.Sim
