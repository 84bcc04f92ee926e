import Armator.Lib.Related
import Armator.Proof.Flex
import Armator.Sim.FlexBuffer

/-!
# The scanner in memory

The scanner with its buffer in memory does what the scanner does over the text that the buffer
holds. No access is outside the buffer, and the buffer grows as it has to; the program ends only
if there is no memory left for the beginning of a packet.
-/

namespace Armator.Sim

open Lib

/-! ## What the buffer holds -/

/-- The sizes a buffer has: it has been doubled so many times. -/
def Power (heap : Heap) (size : Nat) : Prop :=
  ∃ k, size = YY_BUF_SIZE * 2 ^ k ∧ (k = 0 ∨ size + 2 ≤ heap.limit)

/-- The cells that are set are the text and the NULs behind it, and there is room to read more. -/
structure YyBufferState.Sound (heap : Heap) (b : YyBufferState) (nChars : Nat) : Prop where
  size : b.chBuf.size = b.bufSize + 2
  room : nChars + 1 ≤ b.bufSize
  marks : b.chBuf.cells.take (nChars + 2) = b.chBuf.cells.take nChars ++ [0, 0]
  pending : b.bufferStatus = .eofPending → nChars + 2 ≤ b.bufSize
  new : b.bufferStatus = .new → b.nChars = nChars
  power : Power heap b.bufSize

/-- The scanner over the text. -/
def Yyscan.toGuts (g : Yyscan) (bp : Nat) (reads : List (List (BitVec 8))) : Yyguts where
  chBuf := g.buffer.chBuf.cells.take g.nChars
  textPtr := bp
  cBufP := g.cBufP
  last := g.last
  eofPending := g.buffer.bufferStatus = .eofPending
  reads := reads

def Yylex.toFlex (s : Yylex) (reads : List (List (BitVec 8))) : Flex :=
  ⟨s.guts.toGuts s.bp reads, s.label⟩

abbrev Yyscan.Sound (heap : Heap) (g : Yyscan) : Prop := g.buffer.Sound heap g.nChars

section Buffers

variable {heap : Heap} {g : Yyscan} {bp stop : Nat} {reads : List (List (BitVec 8))}

end Buffers

/-! ## Matches -/

section Matches

variable {heap : Heap} {s : Yylex} {cp state size size' : Nat} {last : Accepting}
  {cells more : List (BitVec 8)} {x : Nat × Nat × Accepting} {reads : List (List (BitVec 8))}

def Yylex.found (s : Yylex) : Except Halt (Nat × Nat × Accepting) :=
  match s.label with
  | .yyMatch cp state =>
    let chBuf := s.guts.buffer.chBuf
    matchLoop chBuf.size (chBuf.cells.drop cp) cp state s.guts.last
  | .yyFindAction cp state => .ok (cp, state, s.guts.last)

theorem Yylex.step_eq (heap : Heap) (s : Yylex) : s.step heap = (s.found >>= fun x =>
    Yyscan.findAction heap { s.guts with last := x.2.2 } s.bp x.1 x.2.1) := by
  obtain ⟨g, bp, label⟩ := s
  cases label <;> rfl

end Matches

/-! ## The character behind the text -/

section Hold

variable {heap : Heap} {g : Yyscan} {bp cp n : Nat}

/-- Behind `YY_DO_BEFORE_ACTION`. -/
def Yyscan.held (g : Yyscan) (bp cp : Nat) : Yyscan where
  buffer := { g.buffer with chBuf := g.buffer.chBuf.set cp 0 }
  nChars := g.nChars
  textPtr := bp
  cBufP := cp
  holdChar := g.buffer.chBuf.get cp
  last := g.last
  line := g.line

end Hold

/-! ## Room -/

section Room

variable {heap : Heap} {b : YyBufferState} {n k m maxSize : Nat} {line : List Arrival}

theorem Power.lt (h : Power heap m) : 1 < m ∧ m < 2 ^ 31 := by
  obtain ⟨k, rfl, hk⟩ := h
  have hint := heap.int
  have hpos : 0 < 2 ^ k := Nat.two_pow_pos k
  unfold YY_BUF_SIZE at hk ⊢
  rcases hk with rfl | hk <;> omega

/-- What the calls of `read` give when there is room for all that has come. -/
def pieces : List Arrival → List (List (BitVec 8))
  | [] => []
  | .interrupted :: line => pieces line
  | .bytes text :: line => text :: pieces line

/-- How much is left to read. -/
def weight : List Arrival → Nat
  | [] => 0
  | .interrupted :: line => weight line + 1
  | .bytes text :: line => weight line + text.length + 1

end Room

/-! ## The next buffer -/

section NextBuffer

variable {heap : Heap} {g : Yyscan} {n : Nat}

/-- What is read, and what is left to come. -/
def Reads (status : BufferStatus) (line : List Arrival) (text : List (BitVec 8))
    (line' : List Arrival) : Prop :=
  status = .eofPending ∧ text = [] ∧ line' = line ∨
    status ≠ .eofPending ∧ ∃ maxSize, 0 < maxSize ∧ yyInput maxSize line = (text, line')

/-- There is no memory for more than the text, which fills the buffer. -/
def Yyscan.Full (heap : Heap) (g : Yyscan) (n : Nat) : Prop :=
  g.buffer.bufferStatus ≠ .eofPending ∧ g.buffer.bufSize = n + 1 ∧
    heap.limit < 2 * g.buffer.bufSize + 2

end NextBuffer

/-! ## The end of the buffer -/

section End

variable {heap : Heap} {g : Yyscan} {bp cp : Nat} {reads : List (List (BitVec 8))}

/-- Where something has been read there is less left to read, or nothing is. -/
def Lessens (g g' : Yyscan) (taken : List (List (BitVec 8))) : Prop :=
  (taken = [] → (g'.buffer.bufferStatus = .eofPending ↔ g.buffer.bufferStatus = .eofPending)) ∧
    (taken ≠ [] → weight g'.line < weight g.line ∨
      weight g'.line ≤ weight g.line ∧ g'.buffer.bufferStatus = .eofPending)

end End

end Armator.Sim
