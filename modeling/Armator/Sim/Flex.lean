import Armator.Sim.Scanner

/-!
# `scanner.c`

What `flex` has made of `scanner.l`: the tables of an automaton, and the function `yylex` that
runs it over a buffer. The buffer is filled when the automaton comes to its end, by one `read`
that may return any part of what the client sends. Behind the text stand two NULs, so that a NUL
in the text looks like the end of the buffer and is told from it by its place.

Positions are indices into `yy_ch_buf`. An action may not change more of the buffer than its own
text, and the NUL that ends the text meanwhile is taken back, so both are left out. So is the size
of the buffer, which grows as it has to (`FlexBuffer` has the buffer as it lies in memory), and an
error of `read`, which ends the program.
-/

namespace Armator.Sim

open Lib

/-! ## The tables -/

def YY_END_OF_BUFFER : Nat := 6

/-- The rule a state accepts, or `YY_END_OF_BUFFER`. -/
def yyAccept : Block Nat := ⟨[0, 0, 0, 6, 4, 5, 4, 1, 2, 0, 0, 0, 3, 0]⟩

/-- The class of a character. -/
def yyEc : Block Nat := ⟨[
  0, 1, 1, 1, 1, 1, 1, 1, 1, 1, 2, 1, 1, 1, 1, 1, 1, 1, 1, 1, 1, 1, 1, 1, 1, 1, 1, 1, 1, 1, 1, 1,
  1, 1, 1, 3, 4, 1, 1, 1, 1, 1, 1, 5, 1, 6, 1, 1, 7, 7, 7, 7, 7, 7, 7, 7, 7, 7, 1, 1, 1, 1, 1, 1,
  1, 7, 7, 7, 7, 7, 7, 1, 1, 1, 1, 1, 1, 1, 1, 1, 1, 1, 1, 1, 1, 1, 1, 1, 1, 1, 1, 1, 1, 1, 1, 1,
  1, 7, 7, 7, 7, 7, 7, 1, 1, 1, 1, 1, 1, 1, 1, 1, 1, 1, 1, 1, 1, 1, 1, 1, 1, 1, 1, 1, 1, 1, 1, 1,
  1, 1, 1, 1, 1, 1, 1, 1, 1, 1, 1, 1, 1, 1, 1, 1, 1, 1, 1, 1, 1, 1, 1, 1, 1, 1, 1, 1, 1, 1, 1, 1,
  1, 1, 1, 1, 1, 1, 1, 1, 1, 1, 1, 1, 1, 1, 1, 1, 1, 1, 1, 1, 1, 1, 1, 1, 1, 1, 1, 1, 1, 1, 1, 1,
  1, 1, 1, 1, 1, 1, 1, 1, 1, 1, 1, 1, 1, 1, 1, 1, 1, 1, 1, 1, 1, 1, 1, 1, 1, 1, 1, 1, 1, 1, 1, 1,
  1, 1, 1, 1, 1, 1, 1, 1, 1, 1, 1, 1, 1, 1, 1, 1, 1, 1, 1, 1, 1, 1, 1, 1, 1, 1, 1, 1, 1, 1, 1, 1]⟩

def yyMeta : Block Nat := ⟨[0, 1, 1, 1, 2, 1, 1, 1]⟩

def yyBase : Block Nat := ⟨[0, 0, 0, 13, 14, 14, 9, 14, 14, 8, 3, 2, 14, 14, 7]⟩

def yyDef : Block Nat := ⟨[0, 13, 1, 13, 13, 13, 14, 13, 13, 14, 13, 13, 13, 0, 13]⟩

def yyNxt : Block Nat :=
  ⟨[0, 4, 5, 4, 6, 7, 8, 4, 9, 12, 11, 10, 10, 13, 3, 13, 13, 13, 13, 13, 13, 13]⟩

def yyChk : Block Nat :=
  ⟨[0, 1, 1, 1, 1, 1, 1, 1, 14, 11, 10, 9, 6, 3, 13, 13, 13, 13, 13, 13, 13, 13]⟩

/-- The `while` loop that looks for an entry, for at most so many rounds, and the transition. No
state needs more rounds than `yyDef` has entries. -/
def yyTransition : Nat → Nat → Nat → Except Halt Nat
  | 0, _, _ => .error .running
  | rounds + 1, state, c => do
    let base ← lift (yyBase.load state)
    let check ← lift (yyChk.load (base + c))
    if check ≠ state then do
      let state ← lift (yyDef.load state)
      let c ← if 14 ≤ state then lift (yyMeta.load c) else .ok c
      yyTransition rounds state c
    else lift (yyNxt.load (base + c))

/-! ## The state -/

/-- `yy_last_accepting_state` and `yy_last_accepting_cpos` -/
structure Accepting where
  state : Nat
  cpos : Nat
  deriving DecidableEq, Repr

/-- A state that accepts is noted. -/
def Accepting.visit (last : Accepting) (state cp : Nat) : Except Fault Accepting := do
  let act ← yyAccept.load state
  .ok (if act ≠ 0 then ⟨state, cp⟩ else last)

/-- `struct yyguts_t` with its buffer, and what the calls of `read` return one after the other:
nothing once the client has closed the connection. -/
structure Yyguts where
  /-- The first `yy_n_chars` cells of `yy_ch_buf` -/
  chBuf : List (BitVec 8)
  textPtr : Nat
  cBufP : Nat
  last : Accepting
  /-- `yy_buffer_status == YY_BUFFER_EOF_PENDING` -/
  eofPending : Bool
  reads : List (List (BitVec 8))
  deriving DecidableEq, Repr

/-- `yy_ch_buf` as far as it is set. -/
def Yyguts.cells (g : Yyguts) : List (BitVec 8) := g.chBuf ++ [0, 0]

/-- The labels behind which `yylex` goes on, with `yy_cp` and `yy_current_state`. -/
inductive Label where
  | yyMatch (cp state : Nat)
  | yyFindAction (cp state : Nat)
  deriving DecidableEq, Repr

/-- `yylex` at a label. -/
structure Flex where
  guts : Yyguts
  label : Label
  deriving DecidableEq, Repr

/-- A new scanner. -/
def Flex.start (reads : List (List (BitVec 8))) : Flex where
  guts := ⟨[], 0, 0, ⟨0, 0⟩, false, reads⟩
  label := .yyMatch 0 1

/-! ## Transitions -/

/-- The `do` loop behind `yy_match`, over the cells from `yy_cp` on. -/
def matchLoop (size : Nat) :
    List (BitVec 8) → Nat → Nat → Accepting → Except Halt (Nat × Nat × Accepting)
  | [], cp, _, _ => .error (.fault (.outOfBounds cp size))
  | a :: cells, cp, state, last => do
    let c ← lift (yyEc.load a.toNat)
    let last ← lift (last.visit state cp)
    let state ← yyTransition 15 state c
    let base ← lift (yyBase.load state)
    if base ≠ 14 then matchLoop size cells (cp + 1) state last
    else .ok (cp + 1, state, last)

/-- `*yy_cp ? yy_ec[*yy_cp] : 1` -/
def previousClass (a : BitVec 8) : Except Fault Nat :=
  if a ≠ 0 then yyEc.load a.toNat else .ok 1

/-- The loop of `yy_get_previous_state`. -/
def previousLoop : List (BitVec 8) → Nat → Nat → Accepting → Except Halt (Nat × Accepting)
  | [], _, state, last => .ok (state, last)
  | a :: cells, cp, state, last => do
    let c ← lift (previousClass a)
    let last ← lift (last.visit state cp)
    let state ← yyTransition 15 state c
    previousLoop cells (cp + 1) state last

def yyGetPreviousState (g : Yyguts) : Except Halt (Nat × Yyguts) := do
  let cells := (g.cells.drop g.textPtr).take (g.cBufP - g.textPtr)
  let (state, last) ← previousLoop cells g.textPtr 1 g.last
  .ok (state, { g with last := last })

def yyTryNulTrans (g : Yyguts) (state : Nat) : Except Halt (Nat × Yyguts) := do
  let last ← lift (g.last.visit state g.cBufP)
  let state ← yyTransition 15 state 1
  .ok (if state = 13 then 0 else state, { g with last := last })

/-! ## The end of the buffer -/

/-- What `yy_get_next_buffer` returns. -/
inductive EobAct where
  | continueScan
  | endOfFile
  | lastMatch
  deriving DecidableEq, Repr

/-- `yy_get_next_buffer`; a fatal error is a failed assertion. -/
def yyGetNextBuffer (g : Yyguts) : Except Halt (EobAct × Yyguts) :=
  if g.cBufP > g.chBuf.length + 1 then .error .assertion
  else
    let numberToMove := g.cBufP - g.textPtr - 1
    let moved := (g.cells.drop g.textPtr).take numberToMove
    let (text, reads) :=
      if g.eofPending then ([], g.reads)
      else
        match g.reads with
        | [] => ([], [])
        | text :: reads => (text, reads)
    let g := { g with chBuf := moved ++ text, textPtr := 0, reads := reads }
    if text = [] then
      if numberToMove = 0 then
        -- `yyrestart`
        .ok (.endOfFile, { g with cBufP := 0, eofPending := false })
      else .ok (.lastMatch, { g with eofPending := true })
    else .ok (.continueScan, g)

/-- The case `YY_END_OF_BUFFER`: where it goes on, unless the file ends. -/
def endOfBuffer (g : Yyguts) : Except Halt (Option Flex) := do
  let amount := g.cBufP - g.textPtr - 1
  if g.cBufP ≤ g.chBuf.length then do
    -- this was really a NUL
    let g := { g with cBufP := g.textPtr + amount }
    let (state, g) ← yyGetPreviousState g
    let (next, g) ← yyTryNulTrans g state
    if next ≠ 0 then
      let g := { g with cBufP := g.cBufP + 1 }
      .ok (some ⟨g, .yyMatch g.cBufP next⟩)
    else .ok (some ⟨g, .yyFindAction g.cBufP state⟩)
  else do
    let (act, g) ← yyGetNextBuffer g
    match act with
    | .endOfFile => .ok none
    | .continueScan => do
      let g := { g with cBufP := g.textPtr + amount }
      let (state, g) ← yyGetPreviousState g
      .ok (some ⟨g, .yyMatch g.cBufP state⟩)
    | .lastMatch => do
      let g := { g with cBufP := g.chBuf.length }
      let (state, g) ← yyGetPreviousState g
      .ok (some ⟨g, .yyFindAction g.cBufP state⟩)

/-! ## Actions -/

/-- The cases of the `switch` that are rules of `scanner.l`. -/
def yyRule : Nat → Option Rule
  | 1 => some .ack
  | 2 => some .nack
  | 3 => some .packet
  | 4 => some .other
  | 5 => some .dflt
  | _ => none

/-- `yy_find_action`: the end of the text and its rule, after a possible back-up. -/
def backUp (last : Accepting) (cp state : Nat) : Except Fault (Nat × Nat) := do
  let act ← yyAccept.load state
  if act = 0 then do
    let act ← yyAccept.load last.state
    .ok (last.cpos, act)
  else .ok (cp, act)

/-- The `switch`, up to the next label, with the token whose action is run. -/
def doAction (g : Yyguts) (act : Nat) :
    Except Halt (Option (Flex × List (Rule × List (BitVec 8)))) :=
  if act = 0 then .ok (some (⟨g, .yyFindAction g.last.cpos g.last.state⟩, []))
  else if act = YY_END_OF_BUFFER then do
    let next ← endOfBuffer g
    .ok (next.map fun s => (s, []))
  else
    match yyRule act with
    | some rule =>
      let text := (g.cells.drop g.textPtr).take (g.cBufP - g.textPtr)
      .ok (some (⟨{ g with textPtr := g.cBufP }, .yyMatch g.cBufP 1⟩, [(rule, text)]))
    | none => .error .assertion

def findAction (g : Yyguts) (cp state : Nat) :
    Except Halt (Option (Flex × List (Rule × List (BitVec 8)))) := do
  let (cp, act) ← lift (backUp g.last cp state)
  doAction { g with cBufP := cp } act

/-- From a label to the next, with the token whose action is run; nothing if `yylex` returns. -/
def Flex.step (s : Flex) : Except Halt (Option (Flex × List (Rule × List (BitVec 8)))) :=
  match s.label with
  | .yyMatch cp state => do
    let cells := s.guts.cells
    let (cp, state, last) ← matchLoop cells.length (cells.drop cp) cp state s.guts.last
    findAction { s.guts with last := last } cp state
  | .yyFindAction cp state => findAction s.guts cp state

/-- What the buffer holds behind the NUL that ends the text. -/
def Yyguts.behind (g : Yyguts) : List (BitVec 8) := g.cells.drop (g.cBufP + 1)

/-- The loop of `yylex` for at most so many rounds, with the actions. -/
def Flex.yylex (h : Host) (steps : Nat) : Nat → Flex → ParserData → Except Halt ParserData
  | 0, _, _ => .error .running
  | rounds + 1, s, data => do
    match ← s.step with
    | none => lift (handleError data)
    | some (s, out) => do
      let data ← out.foldlM (action h steps s.guts.behind) data
      s.yylex h steps rounds data

end Armator.Sim
