import Mathlib.Data.List.Basic

/-!
# `csapp.c`

`Rio_writen`, by which the server sends. What the calls of `write` return, one after the other, is
a list; a call takes no more than it is given, and one behind the end of the list has not returned.
A call that takes some bytes leaves `errno` as it is.
-/

namespace Armator.Sim

def EINTR : Int := 4

inductive WriteResult where
  | wrote (n : Nat)
  /-- -1, with `errno` set -/
  | failed (errno : Int)
  deriving DecidableEq, Repr

inductive WritenStatus where
  | returned
  /-- -1 -/
  | failed
  /-- `write` has not returned. -/
  | blocked
  deriving DecidableEq, Repr

/-- The bytes the client gets, and what is left of the results. -/
structure Sent where
  bytes : List (BitVec 8)
  results : List WriteResult
  errno : Int
  status : WritenStatus
  deriving DecidableEq, Repr

/-- The loop of `rio_writen` for the bytes that are left. -/
def rioWriten : List WriteResult → Int → List (BitVec 8) → Sent
  | results, errno, [] => ⟨[], results, errno, .returned⟩
  | [], errno, _ :: _ => ⟨[], [], errno, .blocked⟩
  | .wrote n :: results, errno, b :: buf =>
    let nwritten := min n (buf.length + 1)
    if nwritten = 0 then
      -- `errno` is that of an earlier call
      if errno = EINTR then rioWriten results errno (b :: buf) else ⟨[], results, errno, .failed⟩
    else
      let rest := rioWriten results errno ((b :: buf).drop nwritten)
      { rest with bytes := (b :: buf).take nwritten ++ rest.bytes }
  | .failed errno :: results, _, b :: buf =>
    if errno = EINTR then rioWriten results errno (b :: buf) else ⟨[], results, errno, .failed⟩

/-- Calls of `Rio_writen` one after the other; one that fails ends the program. -/
def rioWritens : List WriteResult → Int → List (List (BitVec 8)) → Sent
  | results, errno, [] => ⟨[], results, errno, .returned⟩
  | results, errno, buf :: bufs =>
    let sent := rioWriten results errno buf
    match sent.status with
    | .returned =>
      let rest := rioWritens sent.results sent.errno bufs
      { rest with bytes := sent.bytes ++ rest.bytes }
    | .failed | .blocked => sent

end Armator.Sim
