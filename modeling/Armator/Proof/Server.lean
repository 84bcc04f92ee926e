import Armator.Proof.Access
import Armator.Proof.RegisterDump

/-!
# The debug server in two stages

A request is first decoded and carried out on the target, which settles the answer, then the
answer is built in the packet: `Reading.serve` and `Response.perform`. The first stage is
written over a `Reading`, the ways in which a handler gets at its data, so that one text of
the handlers can be read in other ways than the C program does. With the C program's own
reading, `Host.reading`, the two stages are what the handlers do.
-/

namespace Armator.Sim

open Lib

/-! ## Responses -/

/-- What is left of a request when the target has done its part. -/
inductive Response where
  | silent (gdb : Gdb)
  /-- The reply is sent. -/
  | reply (gdb : Gdb) (s : List (BitVec 8))
  /-- The target faults when this much of the reply stands in the packet. -/
  | broken (gdb : Gdb) (s : List (BitVec 8)) (f : Fault)
  deriving DecidableEq

namespace Response

/-- The server before the answer is built. -/
def gdb : Response → Gdb
  | silent gdb => gdb
  | reply gdb _ => gdb
  | broken gdb _ _ => gdb

def perform : Response → Except Halt Gdb
  | silent gdb => .ok gdb
  | reply gdb s => lift (gdbSendData gdb s)
  | broken gdb s f => lift do
    let _ ← gdb.put buffer (s ++ [0])
    .error f

end Response

/-- The text `query` sends. -/
def queryReply (data : List (BitVec 8)) : List (BitVec 8) :=
  if data = text "Offsets" then text "Text=0;Data=0;Bss=0"
  else if data.take 9 = text "Supported" then text "PacketSize=400"
  else if data = text "TStatus" then text "T0;tnotrun:0"
  else []

/-- The digits `read_memory` gets from the memory, and the fault that ends them. -/
def readDigits (mem : Memory) : Nat → BitVec 32 → List (BitVec 8) × Option Fault
  | 0, _ => ([], none)
  | size + 1, address =>
    match memoryReadByte mem address 0 with
    | .error f => ([], some f)
    | .ok (result, value) =>
      if result ≠ -1 then
        let rest := readDigits mem size (address + 1)
        (hexText 2 value.toNat ++ rest.1, rest.2)
      else ([], none)

/-- The answer with the digits read. -/
def Response.ofDigits (gdb : Gdb) (digits : List (BitVec 8) × Option Fault) : Response :=
  match digits.2 with
  | none => .reply gdb digits.1
  | some f => .broken gdb digits.1 f

/-! ## Readings -/

/-- How a handler gets at its data: pointers `P`, and the errors `ε` that stop it. -/
structure Reading (P ε : Type) where
  /-- `p + n` -/
  add : P → Nat → P
  /-- The string at a pointer, as the functions of the C library walk it. -/
  string : P → Except ε (List (BitVec 8))
  /-- `*p` -/
  deref : P → Except ε (BitVec 8)
  /-- `index(p, c)` -/
  index : P → BitVec 8 → Except ε P
  /-- The variable `x` of `w` bits, given to `sscanf` as its `i`-th argument. -/
  assigned : (w : Nat) → List Int → Nat → GdbLocal → Except ε (BitVec w)
  halt : Halt → ε

namespace Reading

variable {P ε : Type} (r : Reading P ε) (h : Host)

/-- What does not concern the data. -/
def target {α : Type} : Except Halt α → Except ε α
  | .ok a => .ok a
  | .error e => .error (r.halt e)

def cont (steps : Nat) (gdb : Gdb) : Except ε Response := do
  let gdb ← r.target (contLoop h steps gdb)
  .ok (.reply gdb (stopText gdb.targetException))

def step (gdb : Gdb) : Except ε Response := do
  let gdb ← r.target (lift (singleStep h gdb))
  .ok (.reply gdb (stopText gdb.targetException))

def query (gdb : Gdb) (data : P) : Except ε Response := do
  let data ← r.string data
  .ok (.reply gdb (queryReply data))

def readMemory (gdb : Gdb) (data : P) : Except ε Response := do
  let s ← r.string data
  let values := sscanf [.hex none, .literal (char ','), .hex none] s
  let address ← r.assigned 32 values 0 .readMemoryAddress
  if address.toNat < memoryGetSize gdb.arm.mem then do
    -- the size is only looked at here
    let size ← r.assigned 32 values 1 .readMemorySize
    .ok (.ofDigits gdb (readDigits gdb.arm.mem size.toNat address))
  else .ok (.reply gdb (text "E0E"))

def readSingleRegister (gdb : Gdb) (data : P) : Except ε Response := do
  let s ← r.string data
  let reg : BitVec 8 := (BitVec.ofInt 32 (atoi h s)).setWidth 8
  if reg.toNat < 16 then do
    let value ← r.target (lift (registersRead gdb.arm.reg reg (registersGetMode gdb.arm.reg)))
    .ok (.reply gdb (hexText 8 value.toNat))
  else .error (r.halt .assertion)

def setThread (gdb : Gdb) (data : P) : Except ε Response := do
  let type ← r.deref data
  let s ← r.string (r.add data 1)
  let value := atoi h s
  if (type = char 'c' ∨ type = char 'g') ∧ value < 1 ∧ value > -2 then .ok (.reply gdb (text "OK"))
  else .ok (.reply gdb (text "E01"))

def readUint32 (data : P) : Except ε (BitVec 32) := do
  let s ← r.string data
  r.assigned 32 (sscanf [.hex (some 8)] s) 0 .readValue

def writeRegister (gdb : Gdb) (reg : BitVec 32) (data : P) : Except ε Gdb := do
  let value ← r.readUint32 data
  if reg.toNat < 16 then r.target (lift do
    let file ← registersWrite gdb.arm.reg (reg.setWidth 8) (registersGetMode gdb.arm.reg) value
    .ok { gdb with arm := { gdb.arm with reg := file } })
  else .error (r.halt .assertion)

/-- One register after the other, from `data` on. -/
def writeWords (is : List Nat) (gdb : Gdb) (data : P) : Except ε (Gdb × P) :=
  is.foldlM (fun x i => do
    let gdb ← r.writeRegister x.1 (BitVec.ofNat 32 i) x.2
    .ok (gdb, r.add x.2 8)) (gdb, data)

def writeGeneralRegisters (gdb : Gdb) (data : P) : Except ε Response := do
  let (gdb, position) ← r.writeWords (List.range 16) gdb data
  -- the floating point registers and `fps`
  let value ← r.readUint32 (r.add position 200)
  let gdb := { gdb with arm := { gdb.arm with reg := registersWriteCpsr gdb.arm.reg value } }
  .ok (.reply gdb (text "OK"))

def writeSingleRegister (gdb : Gdb) (data : P) : Except ε Response := do
  let s ← r.string data
  let reg ← r.assigned 32 (sscanf [.hex none] s) 0 .writeRegisterReg
  let found ← r.index data (char '=')
  let gdb ← r.writeRegister gdb reg (r.add found 1)
  .ok (.reply gdb (text "OK"))

/-- A byte of binary data, in two characters if it is escaped, and where the next begins. -/
def contentByte (content : P) : Except ε (BitVec 8 × P) := do
  let c ← r.deref content
  if c = 0x7d then do
    let c ← r.deref (r.add content 1)
    .ok (c ^^^ 0x20, r.add content 2)
  else .ok (c, r.add content 1)

def writeMemoryLoop : Nat → P → BitVec 32 → Gdb → Except ε (Gdb × Bool)
  | 0, _, _, gdb => .ok (gdb, true)
  | size + 1, content, address, gdb => do
    let (value, content) ← r.contentByte content
    let (result, mem) ← r.target (lift (memoryWriteByte gdb.arm.mem address value))
    let gdb := { gdb with arm := { gdb.arm with mem := mem } }
    if result = 0 then writeMemoryLoop size content (address + 1) gdb
    else .ok (gdb, false)

def writeMemoryBinary (gdb : Gdb) (data : P) : Except ε Response := do
  let s ← r.string data
  let values := sscanf [.hex none, .literal (char ','), .hex none] s
  let address ← r.assigned 32 values 0 .writeMemoryAddress
  -- `i < size` is evaluated before `write_ok`
  let size ← r.assigned 32 values 1 .writeMemorySize
  let found ← r.index data (char ':')
  let (gdb, writeOk) ←
    if address.toNat < memoryGetSize gdb.arm.mem then
      r.writeMemoryLoop size.toNat (r.add found 1) address gdb
    else .ok (gdb, false)
  if writeOk then .ok (.reply gdb (text "OK")) else .ok (.reply gdb (text "E02"))

/-- `set_breakpoint` and `remove_breakpoint`, which differ in the call and in the error. -/
def breakpoint (typeLocal addressLocal : GdbLocal)
    (call : Breakpoints → BitVec 32 → Except Fault (Int × Breakpoints))
    (failed : List (BitVec 8)) (gdb : Gdb) (data : P) : Except ε Response := do
  let s ← r.string data
  let values :=
    sscanf [.hex none, .literal (char ','), .hex none, .literal (char ','), .hex none] s
  let type ← r.assigned 8 values 0 typeLocal
  if type ≠ 0 then .ok (.reply gdb (text "E03"))
  else do
    let address ← r.assigned 32 values 1 addressLocal
    let (result, table) ← r.target (lift (call gdb.breakpoints address))
    let gdb := { gdb with breakpoints := table }
    if result ≠ 0 then .ok (.reply gdb (text "OK")) else .ok (.reply gdb failed)

def setBreakpoint (gdb : Gdb) (data : P) : Except ε Response :=
  r.breakpoint .setBreakpointType .setBreakpointAddress gdbAddBreakpoint (text "E04") gdb data

def removeBreakpoint (gdb : Gdb) (data : P) : Except ε Response :=
  r.breakpoint .removeBreakpointType .removeBreakpointAddress gdbRemoveBreakpoint (text "E05")
    gdb data

/-- The request with the command letter `index`. -/
def serve (steps : Nat) (gdb : Gdb) (index : BitVec 8) (data : P) : Except ε Response :=
  if index = char 'c' then r.cont h steps gdb
  else if index = char 'C' then r.cont h steps gdb
  else if index = char 'k' then .ok (.silent (gdb.record .shutdown))
  else if index = char 'q' then r.query gdb data
  else if index = char 'g' then .ok (.reply gdb (dump gdb.arm.reg))
  else if index = char 'm' then r.readMemory gdb data
  else if index = char 'p' then r.readSingleRegister h gdb data
  else if index = char '?' then .ok (.reply gdb (stopText gdb.targetException))
  else if index = char 'H' then r.setThread h gdb data
  else if index = char 's' then r.step h gdb
  else if index = char 'S' then r.step h gdb
  else if index = char 'G' then r.writeGeneralRegisters gdb data
  else if index = char 'X' then r.writeMemoryBinary gdb data
  else if index = char 'P' then r.writeSingleRegister gdb data
  else if index = char 'z' then r.removeBreakpoint gdb data
  else if index = char 'Z' then r.setBreakpoint gdb data
  else .ok (.reply gdb [])

end Reading

/-- The reading of the C program. -/
def Host.reading (h : Host) : Reading Pointer Halt where
  add := Pointer.add
  string := fun p => lift p.string
  deref := fun p => lift p.deref
  index := fun p c => lift (index p c)
  assigned := fun w values i x => .ok (h.assigned w values i x)
  halt := id

/-- The address and the size `read_memory` gets from its data. -/
def readMemoryArguments (h : Host) (s : List (BitVec 8)) : BitVec 32 × BitVec 32 :=
  let values := sscanf [.hex none, .literal (char ','), .hex none] s
  (h.assigned 32 values 0 .readMemoryAddress, h.assigned 32 values 1 .readMemorySize)

/-- What `gdb_packet_analysis` does with a request once it is accepted. -/
def respond (h : Host) (steps : Nat) (gdb : Gdb) (index : BitVec 8) (data : Pointer) :
    Except Halt Gdb :=
  match handler index with
  | some f => f h steps gdb data
  | none => lift (gdbSendData gdb [])

/-! ## The two stages are the handlers -/

section Stages

variable (h : Host) (steps : Nat) (g : Gdb) (data : Pointer)

theorem target_reading {α : Type} (x : Except Halt α) : h.reading.target x = x := by
  cases x <;> rfl

theorem lift_ite {α : Type} {c : Prop} [Decidable c] (x y : Except Fault α) :
    lift (if c then x else y) = if c then lift x else lift y := apply_ite lift ..

theorem reply_perform (s : List (BitVec 8)) :
    ((.ok (.reply g s) : Except Halt Response) >>= Response.perform) = lift (gdbSendData g s) := rfl

theorem cont_stages : cont h steps g data = h.reading.cont h steps g >>= Response.perform := by
  unfold cont Reading.cont
  rw [target_reading, bind_assoc]
  rfl

theorem step_stages : step h steps g data = h.reading.step h g >>= Response.perform := by
  unfold step Reading.step
  rw [target_reading, bind_assoc, lift_bind]
  rfl

theorem query_stages : query h steps g data = h.reading.query g data >>= Response.perform := by
  unfold query Reading.query queryReply
  rw [bind_assoc, lift_bind]
  refine bind_congr fun s => ?_
  rw [ok_bind]
  unfold Response.perform
  dsimp only
  by_cases h₁ : s = text "Offsets"
  · rw [if_pos h₁, if_pos h₁]
  · rw [if_neg h₁, if_neg h₁]
    by_cases h₂ : s.take 9 = text "Supported"
    · rw [if_pos h₂, if_pos h₂]
    · rw [if_neg h₂, if_neg h₂, ite_self]
      by_cases h₃ : s = text "TStatus"
      · rw [if_pos h₃, if_pos h₃]
      · rw [if_neg h₃, if_neg h₃]

theorem readSingleRegister_stages : readSingleRegister h steps g data =
    h.reading.readSingleRegister h g data >>= Response.perform := by
  unfold readSingleRegister Reading.readSingleRegister readRegister
  rw [bind_assoc]
  refine bind_congr fun s => ?_
  dsimp only
  by_cases hreg : ((BitVec.ofInt 32 (atoi h s)).setWidth 8).toNat < 16
  · rw [if_pos hreg, if_pos hreg, target_reading, lift_bind, bind_assoc, bind_assoc]
    refine bind_congr fun value => ?_
    rw [reply_perform]
    unfold gdbSendData
    rw [lift_bind]
    rfl
  · rw [if_neg hreg, if_neg hreg]
    rfl

theorem readGeneralRegisters_stages : readGeneralRegisters h steps g data =
    (.ok (.reply g (dump g.arm.reg)) : Except Halt Response) >>= Response.perform := by
  rw [reply_perform]
  exact readGeneralRegisters_send h steps g data

theorem setThread_stages : setThread h steps g data =
    h.reading.setThread h g data >>= Response.perform := by
  unfold setThread Reading.setThread
  rw [lift_bind, bind_assoc]
  refine bind_congr fun type => ?_
  rw [lift_bind, bind_assoc]
  refine bind_congr fun s => ?_
  dsimp only
  rw [lift_ite]
  by_cases hok : (type = char 'c' ∨ type = char 'g') ∧ atoi h s < 1 ∧ atoi h s > -2
  · rw [if_pos hok, if_pos hok]
    rfl
  · rw [if_neg hok, if_neg hok]
    rfl

theorem readUint32_reading : h.reading.readUint32 data = lift (readUint32 h data) := by
  unfold readUint32 Reading.readUint32
  rw [lift_bind]
  rfl

theorem writeRegister_reading (reg : BitVec 32) :
    h.reading.writeRegister g reg data = writeRegister h g reg data := by
  unfold writeRegister Reading.writeRegister
  rw [readUint32_reading]
  refine bind_congr fun value => ?_
  rw [target_reading]
  rfl

theorem writeSingleRegister_stages : writeSingleRegister h steps g data =
    h.reading.writeSingleRegister g data >>= Response.perform := by
  unfold writeSingleRegister Reading.writeSingleRegister
  rw [bind_assoc]
  refine bind_congr fun s => ?_
  dsimp only
  change _ = lift (index data (char '=')) >>= _ >>= _
  rw [bind_assoc]
  refine bind_congr fun found => ?_
  rw [writeRegister_reading, bind_assoc]
  rfl

theorem writeGeneralRegisters_stages : writeGeneralRegisters h steps g data =
    h.reading.writeGeneralRegisters g data >>= Response.perform := by
  unfold writeGeneralRegisters Reading.writeGeneralRegisters Reading.writeWords
  simp only [writeRegister_reading, readUint32_reading]
  rw [bind_assoc]
  refine bind_congr fun x => ?_
  rw [skip_eq, bind_assoc]
  rfl

/-- An induction on the number of bytes left. -/
theorem writeMemoryLoop_reading (size : Nat) (content : Pointer) (address : BitVec 32) :
    h.reading.writeMemoryLoop size content address g =
      lift (writeMemoryLoop size content address g) := by
  induction size generalizing content address g with
  | zero => rfl
  | succ size ih =>
    have hstore (value : BitVec 8) (content : Pointer) :
        (h.reading.target (lift (memoryWriteByte g.arm.mem address value)) >>= fun y =>
          if y.1 = 0 then h.reading.writeMemoryLoop size content (address + 1)
            { g with arm := { g.arm with mem := y.2 } }
          else .ok ({ g with arm := { g.arm with mem := y.2 } }, false)) =
        lift (memoryWriteByte g.arm.mem address value >>= fun y =>
          if y.1 = 0 then writeMemoryLoop size content (address + 1)
            { g with arm := { g.arm with mem := y.2 } }
          else .ok ({ g with arm := { g.arm with mem := y.2 } }, false)) := by
      rw [target_reading, lift_bind]
      refine bind_congr fun y => ?_
      rw [ih, lift_ite]
      rfl
    unfold writeMemoryLoop Reading.writeMemoryLoop Reading.contentByte
    rw [lift_bind, bind_assoc]
    refine bind_congr fun c => ?_
    dsimp only
    by_cases hc : c = 0x7d
    · rw [if_pos hc, if_pos hc, bind_assoc, lift_bind]
      exact bind_congr fun c => hstore (c ^^^ 0x20) ((content.add 1).add 1)
    · rw [if_neg hc, if_neg hc]
      exact hstore c (content.add 1)

theorem writeMemoryBinary_stages : writeMemoryBinary h steps g data =
    h.reading.writeMemoryBinary g data >>= Response.perform := by
  unfold writeMemoryBinary Reading.writeMemoryBinary
  rw [lift_bind, bind_assoc]
  refine bind_congr fun s => ?_
  dsimp only
  rw [lift_bind]
  change _ = lift (index data (char ':')) >>= _ >>= _
  rw [bind_assoc]
  refine bind_congr fun found => ?_
  have hreply (x : Gdb × Bool) :
      lift (if x.2 = true then gdbSendData x.1 (text "OK") else gdbSendData x.1 (text "E02")) =
        (if x.2 = true then .ok (.reply x.1 (text "OK")) else .ok (.reply x.1 (text "E02"))) >>=
          Response.perform := by
    cases x.2 <;> rfl
  by_cases hlt : (h.assigned 32 (sscanf [.hex none, .literal (char ','), .hex none] s) 0
      .writeMemoryAddress).toNat < memoryGetSize g.arm.mem
  · rw [if_pos hlt, if_pos hlt, writeMemoryLoop_reading, lift_bind, bind_assoc]
    exact bind_congr hreply
  · rw [if_neg hlt, if_neg hlt]
    exact hreply (g, false)

theorem breakpoint_stages (typeLocal addressLocal : GdbLocal)
    (call : Breakpoints → BitVec 32 → Except Fault (Int × Breakpoints))
    (failed : List (BitVec 8)) :
    lift (breakpointArguments h typeLocal addressLocal data >>= fun x =>
      if x.1 ≠ 0 then gdbSendData g (text "E03")
      else call g.breakpoints x.2 >>= fun y =>
        if y.1 ≠ 0 then gdbSendData { g with breakpoints := y.2 } (text "OK")
        else gdbSendData { g with breakpoints := y.2 } failed) =
      h.reading.breakpoint typeLocal addressLocal call failed g data >>= Response.perform := by
  unfold breakpointArguments Reading.breakpoint
  rw [bind_assoc, lift_bind, bind_assoc]
  refine bind_congr fun s => ?_
  rw [ok_bind]
  dsimp only
  rw [lift_ite]
  change _ = (if (h.assigned 8 _ 0 typeLocal) ≠ 0 then _ else _) >>= Response.perform
  by_cases htype : h.assigned 8 (sscanf [.hex none, .literal (char ','), .hex none,
      .literal (char ','), .hex none] s) 0 typeLocal ≠ 0
  · rw [if_pos htype, if_pos htype]
    rfl
  · rw [if_neg htype, if_neg htype]
    change _ = (h.reading.target (lift (call g.breakpoints (h.assigned 32 _ 1 addressLocal))) >>=
      _) >>= Response.perform
    rw [target_reading, lift_bind, bind_assoc]
    refine bind_congr fun y => ?_
    rw [lift_ite]
    by_cases hdone : y.1 ≠ 0
    · rw [if_pos hdone, if_pos hdone]
      rfl
    · rw [if_neg hdone, if_neg hdone]
      rfl

/-- The old value does not matter: a byte is read, or none, or the memory faults. -/
theorem memoryReadByte_cases (mem : Memory) (address : BitVec 32) :
    (∃ e, ∀ value, memoryReadByte mem address value = .error e) ∨
    (∀ value, memoryReadByte mem address value = .ok (-1, value)) ∨
    ∃ b, ∀ value, memoryReadByte mem address value = .ok (0, b) := by
  by_cases hr : mem.Rejects address 1
  · exact .inr (.inl fun value => memoryReadByte_of_rejects hr)
  · cases hload : mem.load address with
    | error e =>
      refine .inl ⟨e, fun value => ?_⟩
      rw [memoryReadByte_of_not_rejects hr, hload]
      rfl
    | ok b =>
      refine .inr (.inr ⟨b, fun value => ?_⟩)
      rw [memoryReadByte_of_not_rejects hr, hload]
      rfl

/-- The digits stored one after the other are stored as one string, up to a fault of the
memory: an induction on how many bytes are still to read. -/
theorem readMemoryLoop_put (size : Nat) (address : BitVec 32) (value : BitVec 8) (i : Nat)
    (t : List (BitVec 8)) (f : Gdb → Except Fault Gdb) :
    (g.put i (t ++ [0]) >>= fun g =>
        readMemoryLoop size address value g (i + t.length) >>= f) =
      g.put i (t ++ (readDigits g.arm.mem size address).1 ++ [0]) >>= fun g' =>
        match (readDigits g.arm.mem size address).2 with
        | none => f g'
        | some e => .error e := by
  induction size generalizing address value t with
  | zero =>
    rw [readDigits, List.append_nil]
    rfl
  | succ size ih =>
    rcases memoryReadByte_cases g.arm.mem address with ⟨e, he⟩ | hend | ⟨b, hb⟩
    · rw [readDigits, he]
      dsimp only
      rw [List.append_nil]
      refine put_bind g i _ fun p => ?_
      rw [readMemoryLoop]
      dsimp only
      rw [he]
      rfl
    · rw [readDigits, hend]
      dsimp only
      rw [if_neg (by decide), List.append_nil]
      refine put_bind g i _ fun p => ?_
      rw [readMemoryLoop]
      dsimp only
      rw [hend]
      rfl
    · have hdigits : readDigits g.arm.mem (size + 1) address =
          (hexText 2 b.toNat ++ (readDigits g.arm.mem size (address + 1)).1,
            (readDigits g.arm.mem size (address + 1)).2) := by
        rw [readDigits, hb]
        rfl
      have hlen : i + t.length + 2 = i + (t ++ hexText 2 b.toNat).length := by
        rw [List.length_append, length_hexText, Nat.add_assoc]
      have hne : hexText 2 b.toNat ++ [0] ≠ [] :=
        List.append_ne_nil_of_right_ne_nil _ (List.cons_ne_nil _ _)
      have hnext := ih (address + 1) b (t ++ hexText 2 b.toNat)
      rw [List.append_assoc t, ← put_put g i t hne, ← hlen, bind_assoc] at hnext
      rw [hdigits, ← List.append_assoc t, ← hnext]
      refine put_bind g i _ fun p => ?_
      rw [readMemoryLoop]
      dsimp only
      rw [hb, ok_bind]
      dsimp only
      rw [if_pos (by decide), bind_assoc]

theorem readMemory_reading {s : List (BitVec 8)} (hs : data.string = .ok s) :
    h.reading.readMemory g data =
      if (readMemoryArguments h s).1.toNat < memoryGetSize g.arm.mem then
        .ok (.ofDigits g (readDigits g.arm.mem (readMemoryArguments h s).2.toNat
          (readMemoryArguments h s).1))
      else .ok (.reply g (text "E0E")) := by
  change lift data.string >>= _ = _
  rw [hs]
  rfl

theorem readMemory_stages : readMemory h steps g data =
    h.reading.readMemory g data >>= Response.perform := by
  unfold readMemory Reading.readMemory
  rw [lift_bind, bind_assoc]
  refine bind_congr fun s => ?_
  dsimp only
  rw [lift_ite]
  change _ = (if (h.assigned 32 _ 0 .readMemoryAddress).toNat < _ then _ else _) >>=
    Response.perform
  by_cases hlt : (h.assigned 32 (sscanf [.hex none, .literal (char ','), .hex none] s) 0
      .readMemoryAddress).toNat < memoryGetSize g.arm.mem
  · rw [if_pos hlt, if_pos hlt]
    have hloop := readMemoryLoop_put g
      (h.assigned 32 (sscanf [.hex none, .literal (char ','), .hex none] s) 1
        .readMemorySize).toNat
      (h.assigned 32 (sscanf [.hex none, .literal (char ','), .hex none] s) 0 .readMemoryAddress)
      ((h.junk .readMemoryValue).setWidth 8) buffer [] gdbSendBuffer
    rw [List.nil_append, List.nil_append, List.length_nil, Nat.add_zero] at hloop
    rw [hloop]
    change _ = Response.perform (.ofDigits g (readDigits g.arm.mem
      (h.assigned 32 _ 1 .readMemorySize).toNat (h.assigned 32 _ 0 .readMemoryAddress)))
    unfold Response.ofDigits
    cases hd : (readDigits g.arm.mem
      (h.assigned 32 (sscanf [.hex none, .literal (char ','), .hex none] s) 1
        .readMemorySize).toNat
      (h.assigned 32 (sscanf [.hex none, .literal (char ','), .hex none] s) 0
        .readMemoryAddress)).2 with
    | none => rfl
    | some e => rfl
  · rw [if_neg hlt, if_neg hlt]
    rfl

variable {a c : BitVec 8} {f : Handler} {rest : Option Handler} {x y : Except Halt Response}

theorem respond_ite (hf : f h steps g data = x >>= Response.perform)
    (hrest : rest.elim (lift (gdbSendData g [])) (fun f => f h steps g data) =
      y >>= Response.perform) :
    (if c = a then some f else rest).elim (lift (gdbSendData g [])) (fun f => f h steps g data) =
      (if c = a then x else y) >>= Response.perform := by
  by_cases hc : c = a
  · rw [if_pos hc, if_pos hc]
    exact hf
  · rw [if_neg hc, if_neg hc]
    exact hrest

/-- **Every request is carried out in the two stages.** -/
theorem respond_stages (c : BitVec 8) : respond h steps g c data =
    h.reading.serve h steps g c data >>= Response.perform := by
  have helim : respond h steps g c data =
      (handler c).elim (lift (gdbSendData g [])) (fun f => f h steps g data) := by
    unfold respond
    cases handler c <;> rfl
  rw [helim]
  unfold handler Reading.serve
  refine respond_ite h steps g data (cont_stages h steps g data) ?_
  refine respond_ite h steps g data (cont_stages h steps g data) ?_
  refine respond_ite h steps g data rfl ?_
  refine respond_ite h steps g data (query_stages h steps g data) ?_
  refine respond_ite h steps g data (readGeneralRegisters_stages h steps g data) ?_
  refine respond_ite h steps g data (readMemory_stages h steps g data) ?_
  refine respond_ite h steps g data (readSingleRegister_stages h steps g data) ?_
  refine respond_ite h steps g data rfl ?_
  refine respond_ite h steps g data (setThread_stages h steps g data) ?_
  refine respond_ite h steps g data (step_stages h steps g data) ?_
  refine respond_ite h steps g data (step_stages h steps g data) ?_
  refine respond_ite h steps g data (writeGeneralRegisters_stages h steps g data) ?_
  refine respond_ite h steps g data (writeMemoryBinary_stages h steps g data) ?_
  refine respond_ite h steps g data (writeSingleRegister_stages h steps g data) ?_
  refine respond_ite h steps g data (breakpoint_stages h g data _ _ _ _) ?_
  refine respond_ite h steps g data (breakpoint_stages h g data _ _ _ _) ?_
  rfl

end Stages

end Armator.Sim
