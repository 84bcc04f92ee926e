import Armator.Lib.Span
import Armator.Sim.Flex

/-!
# The buffer of `scanner.c`

The same scanner with its buffer as it lies in memory: an allocated block that is written to, that
grows by `yyrealloc` when the text of one token fills it, and in which the character behind the
text is replaced by a NUL while the action runs. `read` gives no more than there is room for, and
is called again when a signal has interrupted it.

The scanner has one buffer and is never given another, so `YY_CURRENT_BUFFER` is that buffer.
Pointers into it are indices. An error of `read`, which ends the program, is left out.
-/

namespace Armator.Sim

open Lib

/-! ## The state -/

/-- `YY_BUF_SIZE`, as it is but on IA-64. -/
def YY_BUF_SIZE : Nat := 16384

def YY_READ_BUF_SIZE : Nat := 8192

inductive BufferStatus where
  | new
  | normal
  | eofPending
  deriving DecidableEq, Repr

/-- `struct yy_buffer_state` -/
structure YyBufferState where
  chBuf : Block (BitVec 8)
  /-- Without the two cells for the NULs -/
  bufSize : Nat
  nChars : Nat
  bufferStatus : BufferStatus
  deriving DecidableEq

/-- What a call of `read` meets. -/
inductive Arrival where
  /-- `EINTR` -/
  | interrupted
  | bytes (text : List (BitVec 8))
  deriving DecidableEq, Repr

/-- The memory that `yyrealloc` has to give, and what is in it. The size it is asked for is an
`int`. -/
structure Heap where
  limit : Nat
  int : limit < 2 ^ 31
  junk : Nat → Nat → BitVec 8

/-- `struct yyguts_t` with its buffer, and what is to come on the connection. -/
structure Yyscan where
  buffer : YyBufferState
  nChars : Nat
  textPtr : Nat
  cBufP : Nat
  holdChar : BitVec 8
  last : Accepting
  line : List Arrival
  deriving DecidableEq

/-- `yylex` at a label. -/
structure Yylex where
  guts : Yyscan
  bp : Nat
  label : Label
  deriving DecidableEq

/-! ## Buffers -/

/-- `yy_flush_buffer` -/
def YyBufferState.flush (b : YyBufferState) : Except Fault YyBufferState := do
  let chBuf ← b.chBuf.stores 0 [0, 0]
  .ok { b with nChars := 0, chBuf := chBuf, bufferStatus := .new }

def yyCreateBuffer (heap : Heap) (size : Nat) : Except Fault YyBufferState :=
  let chBuf : Block (BitVec 8) := (⟨[]⟩ : Block _).resize (size + 2) (heap.junk (size + 2))
  YyBufferState.flush ⟨chBuf, size, 0, .new⟩

/-- `yy_buf_pos` is the start of the buffer. -/
def yyLoadBufferState (g : Yyscan) : Except Fault Yyscan := do
  let hold ← g.buffer.chBuf.load 0
  .ok { g with nChars := g.buffer.nChars, textPtr := 0, cBufP := 0, holdChar := hold }

def yyrestart (g : Yyscan) : Except Fault Yyscan := do
  let b ← g.buffer.flush
  yyLoadBufferState { g with buffer := b }

/-- `*yy_cp = yyg->yy_hold_char` -/
def Yyscan.restore (g : Yyscan) (cp : Nat) : Except Fault Yyscan := do
  let chBuf ← g.buffer.chBuf.store cp g.holdChar
  .ok { g with buffer := { g.buffer with chBuf := chBuf } }

/-- `YY_DO_BEFORE_ACTION` -/
def yyDoBeforeAction (g : Yyscan) (bp cp : Nat) : Except Fault Yyscan := do
  let hold ← g.buffer.chBuf.load cp
  let chBuf ← g.buffer.chBuf.store cp 0
  .ok { g with
    buffer := { g.buffer with chBuf := chBuf }, textPtr := bp, cBufP := cp, holdChar := hold }

/-- A round of the loop of `yylex`, up to `yy_match`. -/
def nextToken (g : Yyscan) : Except Fault Yylex := do
  let cp := g.cBufP
  let g ← g.restore cp
  .ok ⟨g, cp, .yyMatch cp 1⟩

/-- A new scanner. -/
def Yylex.start (heap : Heap) (line : List Arrival) : Except Fault Yylex := do
  let b ← yyCreateBuffer heap YY_BUF_SIZE
  let g ← yyLoadBufferState ⟨b, 0, 0, 0, 0, ⟨0, 0⟩, line⟩
  nextToken g

/-! ## Transitions -/

/-- `yy_get_previous_state` -/
def Yyscan.previousState (g : Yyscan) : Except Halt (Nat × Yyscan) := do
  let cells ← lift (g.buffer.chBuf.loads g.textPtr (g.cBufP - g.textPtr))
  let (state, last) ← previousLoop cells g.textPtr 1 g.last
  .ok (state, { g with last := last })

/-- `yy_try_NUL_trans` -/
def Yyscan.tryNulTrans (g : Yyscan) (state : Nat) : Except Halt (Nat × Yyscan) := do
  let last ← lift (g.last.visit state g.cBufP)
  let state ← yyTransition 15 state 1
  .ok (if state = 13 then 0 else state, { g with last := last })

/-! ## The end of the buffer -/

/-- `YY_INPUT`: the call of `read` that is not interrupted. -/
def yyInput (maxSize : Nat) : List Arrival → List (BitVec 8) × List Arrival
  | [] => ([], [])
  | .interrupted :: line => yyInput maxSize line
  | .bytes text :: line =>
    if text.length ≤ maxSize then (text, line)
    else (text.take maxSize, .bytes (text.drop maxSize) :: line)

/-- `num_to_read`, an unsigned number of 64 bits -/
def numToRead (bufSize numberToMove : Nat) : Nat :=
  (((bufSize : Int) - numberToMove - 1) % 2 ^ 64).toNat

/-- The size a buffer grows to. -/
def grown (bufSize : Nat) : Nat :=
  if bufSize * 2 = 0 then bufSize + bufSize / 8 else bufSize * 2

/-- The loop that makes room in the buffer, for at most so many rounds. Where there is no memory
the program ends. -/
def makeRoom (heap : Heap) (numberToMove : Nat) :
    Nat → YyBufferState → Except Halt YyBufferState
  | 0, _ => .error .running
  | rounds + 1, b =>
    if numToRead b.bufSize numberToMove = 0 then
      let size := grown b.bufSize + 2
      if heap.limit < size then .error .assertion
      else makeRoom heap numberToMove rounds
        { b with bufSize := grown b.bufSize, chBuf := b.chBuf.resize size (heap.junk size) }
    else .ok b

/-- The part of `yy_get_next_buffer` that reads, behind what has been moved. -/
def readMore (heap : Heap) (g : Yyscan) (numberToMove : Nat) : Except Halt Yyscan :=
  if g.buffer.bufferStatus = .eofPending then
    .ok { g with buffer := { g.buffer with nChars := 0 }, nChars := 0 }
  else do
    let b ← makeRoom heap numberToMove 32 g.buffer
    let (text, line) := yyInput (min (numToRead b.bufSize numberToMove) YY_READ_BUF_SIZE) g.line
    let chBuf ← lift (b.chBuf.stores numberToMove text)
    .ok { g with
      buffer := { b with chBuf := chBuf, nChars := text.length }, nChars := text.length
      line := line }

/-- What `yy_get_next_buffer` is to return. -/
def eobAct (g : Yyscan) (numberToMove : Nat) : Except Fault (EobAct × Yyscan) :=
  if g.nChars = 0 then
    if numberToMove = 0 then do
      let g ← yyrestart g
      .ok (.endOfFile, g)
    else .ok (.lastMatch, { g with buffer := { g.buffer with bufferStatus := .eofPending } })
  else .ok (.continueScan, g)

/-- The array is extended where what was read has not fit. -/
def extendBuffer (heap : Heap) (g : Yyscan) (numberToMove : Nat) : Except Halt Yyscan :=
  if g.nChars + numberToMove > g.buffer.bufSize then
    let size := g.nChars + numberToMove + g.nChars / 2
    if heap.limit < size then .error .assertion
    else .ok { g with
      buffer := { g.buffer with
        bufSize := size - 2, chBuf := g.buffer.chBuf.resize size (heap.junk size) } }
  else .ok g

/-- The end of `yy_get_next_buffer`, with the two NULs behind the text. -/
def endMarks (g : Yyscan) (numberToMove : Nat) : Except Fault Yyscan := do
  let nChars := g.nChars + numberToMove
  let chBuf ← g.buffer.chBuf.stores nChars [0, 0]
  .ok { g with buffer := { g.buffer with chBuf := chBuf }, nChars := nChars, textPtr := 0 }

/-- `yy_get_next_buffer`; a fatal error is a failed assertion. -/
def Yyscan.nextBuffer (heap : Heap) (g : Yyscan) : Except Halt (EobAct × Yyscan) :=
  if g.cBufP > g.nChars + 1 then .error .assertion
  else do
    let numberToMove := g.cBufP - g.textPtr - 1
    let chBuf ← lift (g.buffer.chBuf.moves numberToMove 0 g.textPtr)
    let g ← readMore heap { g with buffer := { g.buffer with chBuf := chBuf } } numberToMove
    let (act, g) ← lift (eobAct g numberToMove)
    let g ← extendBuffer heap g numberToMove
    let g ← lift (endMarks g numberToMove)
    .ok (act, g)

/-- A new buffer is made consistent with the state of the scanner. -/
def Yyscan.sync (g : Yyscan) : Yyscan :=
  if g.buffer.bufferStatus = .new then
    { g with nChars := g.buffer.nChars, buffer := { g.buffer with bufferStatus := .normal } }
  else g

/-- A NUL in the text, behind so many characters. -/
def Yyscan.nulInText (g : Yyscan) (amount : Nat) : Except Halt (Option Yylex) := do
  let g := { g with cBufP := g.textPtr + amount }
  let (state, g) ← g.previousState
  let (next, g) ← g.tryNulTrans state
  if next ≠ 0 then
    let g := { g with cBufP := g.cBufP + 1 }
    .ok (some ⟨g, g.textPtr, .yyMatch g.cBufP next⟩)
  else .ok (some ⟨g, g.textPtr, .yyFindAction g.cBufP state⟩)

/-- The `switch` on what `yy_get_next_buffer` returns. -/
def Yyscan.endOfText (heap : Heap) (g : Yyscan) (amount : Nat) :
    Except Halt (Option Yylex) := do
  let (act, g) ← g.nextBuffer heap
  match act with
  | .endOfFile => .ok none
  | .continueScan => do
    let g := { g with cBufP := g.textPtr + amount }
    let (state, g) ← g.previousState
    .ok (some ⟨g, g.textPtr, .yyMatch g.cBufP state⟩)
  | .lastMatch => do
    let g := { g with cBufP := g.nChars }
    let (state, g) ← g.previousState
    .ok (some ⟨g, g.textPtr, .yyFindAction g.cBufP state⟩)

/-- The case `YY_END_OF_BUFFER`: where it goes on, unless the file ends. -/
def Yyscan.endOfBuffer (heap : Heap) (g : Yyscan) : Except Halt (Option Yylex) := do
  let amount := g.cBufP - g.textPtr - 1
  let g ← lift (g.restore g.cBufP)
  let g := g.sync
  if g.cBufP ≤ g.nChars then g.nulInText amount else g.endOfText heap amount

/-! ## Actions -/

/-- The `switch`, up to the next label, with the token whose action is run. -/
def Yyscan.doAction (heap : Heap) (g : Yyscan) (act : Nat) :
    Except Halt (Option (Yylex × List (Rule × List (BitVec 8)))) :=
  if act = 0 then do
    let bp := g.textPtr
    let g ← lift (g.restore g.cBufP)
    .ok (some (⟨g, bp, .yyFindAction g.last.cpos g.last.state⟩, []))
  else if act = YY_END_OF_BUFFER then do
    let next ← g.endOfBuffer heap
    .ok (next.map fun s => (s, []))
  else
    match yyRule act with
    | some rule => do
      let text ← lift (g.buffer.chBuf.loads g.textPtr (g.cBufP - g.textPtr))
      let s ← lift (nextToken g)
      .ok (some (s, [(rule, text)]))
    | none => .error .assertion

def Yyscan.findAction (heap : Heap) (g : Yyscan) (bp cp state : Nat) :
    Except Halt (Option (Yylex × List (Rule × List (BitVec 8)))) := do
  let (cp, act) ← lift (backUp g.last cp state)
  let g ← lift (yyDoBeforeAction g bp cp)
  g.doAction heap act

/-- From a label to the next, with the token whose action is run; nothing if `yylex` returns. -/
def Yylex.step (heap : Heap) (s : Yylex) :
    Except Halt (Option (Yylex × List (Rule × List (BitVec 8)))) :=
  match s.label with
  | .yyMatch cp state => do
    let chBuf := s.guts.buffer.chBuf
    let (cp, state, last) ← matchLoop chBuf.size (chBuf.cells.drop cp) cp state s.guts.last
    Yyscan.findAction heap { s.guts with last := last } s.bp cp state
  | .yyFindAction cp state => s.guts.findAction heap s.bp cp state

/-- What the buffer holds behind the NUL that ends the text. -/
def Yyscan.behind (g : Yyscan) : List (BitVec 8) := g.buffer.chBuf.cells.drop (g.cBufP + 1)

/-- The loop of `yylex` for at most so many rounds, with the actions. -/
def Yylex.yylex (heap : Heap) (h : Host) (steps : Nat) :
    Nat → Yylex → ParserData → Except Halt ParserData
  | 0, _, _ => .error .running
  | rounds + 1, s, data => do
    match ← s.step heap with
    | none => lift (handleError data)
    | some (s, out) => do
      let data ← out.foldlM (action h steps s.guts.behind) data
      s.yylex heap h steps rounds data

end Armator.Sim
