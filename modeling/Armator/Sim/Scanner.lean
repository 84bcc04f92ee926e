import Armator.Lib.Lexer
import Armator.Sim.GdbProtocol

/-!
# `scanner.l`

The rules of the scanner, as a longest-match lexer on bytes, and their actions. The rule
`dflt` is flex's own for a byte that no rule matches, which is a newline: it is copied to
the standard output. The text of a token is followed by a NUL and then by whatever else
the scanner's buffer holds.
-/

namespace Armator.Sim

open Lib

def MAX_ERROR_SIZE : Nat := 1024

/-! ## Rules -/

inductive Rule where
  /-- `"+"` -/
  | ack
  /-- `"-"` -/
  | nack
  /-- `"$"[^$#]*"#"{HEX}{HEX}` -/
  | packet
  /-- `.` -/
  | other
  | dflt
  deriving DecidableEq, Repr

/-- Neither `$` nor `#`. -/
def isPlain (c : BitVec 8) : Bool := c ≠ char '$' ∧ c ≠ char '#'

/-- The packet rule matches the whole text. -/
def isPacket : List (BitVec 8) → Bool
  | [] => false
  | c :: s =>
    match s.dropWhile isPlain with
    | [a, x, y] => c = char '$' ∧ a = char '#' ∧ isHex x ∧ isHex y
    | _ => false

def Rule.word : Rule → List (BitVec 8) → Bool
  | ack, s => s = [char '+']
  | nack, s => s = [char '-']
  | packet, s => isPacket s
  -- a newline is 0x0A
  | other, s => s.length = 1 ∧ s ≠ [0x0A]
  | dflt, _ => false

def scanner : Lexer Rule (BitVec 8) where
  rules := [.ack, .nack, .packet, .other]
  word := Rule.word
  default := .dflt

/-- The texts handed to `gdb_packet_analysis` for the input `s`. -/
def packets (s : List (BitVec 8)) : List (List (BitVec 8)) :=
  (scanner.tokens s).filterMap fun t => if t.1 = .packet then some t.2 else none

/-! ## Actions -/

/-- `struct parser_data` -/
structure ParserData where
  gdb : Gdb
  buffer : Block (BitVec 8)
  len : Nat
  alloc : buffer.size = MAX_ERROR_SIZE
  deriving DecidableEq

def ParserData.store (data : ParserData) (i : Nat) (c : BitVec 8) : Except Fault ParserData :=
  if i < data.buffer.size then
    .ok { data with
      buffer := data.buffer.set i c
      alloc := by rw [Block.size_set, data.alloc] }
  else .error (.outOfBounds i data.buffer.size)

def handleError (data : ParserData) : Except Fault ParserData :=
  if data.len ≠ 0 then do
    let data ← data.store data.len 0
    .ok { data with gdb := gdbRequireRetransmission data.gdb, len := 0 }
  else .ok data

def addCharacterToError (data : ParserData) (c : BitVec 8) : Except Fault ParserData := do
  let data ← if data.len > MAX_ERROR_SIZE - 2 then handleError data else .ok data
  let stored ← data.store data.len c
  .ok { stored with len := data.len + 1 }

/-- The memory at `yytext`, `after` being what the buffer holds behind the NUL. -/
def yytext (text after : List (BitVec 8)) : Block (BitVec 8) := ⟨text ++ 0 :: after⟩

/-- The action of a rule for the text it matched. -/
def action (h : Host) (steps : Nat) (after : List (BitVec 8)) (data : ParserData) :
    Rule × List (BitVec 8) → Except Halt ParserData
  | (.ack, _) => lift (handleError data)
  | (.nack, _) => lift do
    let data ← handleError data
    let gdb ← gdbTransmitPacket data.gdb
    .ok { data with gdb := gdb }
  | (.packet, text) => do
    let data ← lift (handleError data)
    let gdb ← gdbPacketAnalysis h steps data.gdb (yytext text after) text.length
    .ok { data with gdb := gdb }
  | (.other, text) => lift (addCharacterToError data (text.headD 0))
  | (.dflt, _) => .ok data

/-- The actions for a list of tokens; `after` gives what follows each text in the buffer. -/
def actions (h : Host) (steps : Nat) (after : List (Rule × List (BitVec 8)) → List (BitVec 8)) :
    List (Rule × List (BitVec 8)) → ParserData → Except Halt ParserData
  | [], data => .ok data
  | t :: ts, data => do
    let data ← action h steps (after (t :: ts)) data t
    actions h steps after ts data

/-- The loop of `yylex` on the whole input, up to its end. -/
def yylex (h : Host) (steps : Nat) (after : List (Rule × List (BitVec 8)) → List (BitVec 8))
    (data : ParserData) (input : List (BitVec 8)) : Except Halt ParserData := do
  let data ← actions h steps after (scanner.tokens input) data
  lift (handleError data)

end Armator.Sim
