import Armator.Proof.FlexBuffer

/-!
# Runs of the scanner in memory

The scanner with its buffer in memory goes through the tokens of the input, or the program ends
because the beginning of a packet fills the largest buffer there is memory for. One or the other
happens according to the input alone, however it is cut into what comes on the connection.
-/

namespace Armator.Sim

open Lib

/-! ## Steps -/

/-- The two scanners have gone on alike. -/
def Moves (heap : Heap) (g : Yyscan) (line : List Arrival) (taken reads : List (List (BitVec 8)))
    (next : Option (Yylex × List (Rule × List (BitVec 8))))
    (next' : Option (Flex × List (Rule × List (BitVec 8)))) : Prop :=
  next' = next.map (fun x => (x.1.toFlex reads, x.2)) ∧
    ∀ s out, next = some (s, out) → s.guts.Sound heap ∧ s.guts.line = line ∧
      Lessens g s.guts taken ∧ (out = [] ∨ taken = [] ∧ ∃ token, out = [token])

section Steps

variable {heap : Heap} {g : Yyscan} {s s' : Yylex} {bp cp n state : Nat} {line : List Arrival}
  {taken : List (List (BitVec 8))}

/-- What holds at the labels. -/
def Yylex.Ready (heap : Heap) (s : Yylex) : Prop :=
  s.guts.Sound heap ∧ ∀ reads, (s.toFlex reads).Ready

/-- The text that the buffer holds. -/
def Yylex.text (s : Yylex) : List (BitVec 8) := (s.toFlex []).guts.text

/-- The input that is left. -/
def Yylex.input (s : Yylex) : List (BitVec 8) := (s.toFlex (pieces s.guts.line)).guts.input

/-- How much there is left to read. -/
def Yylex.left (s : Yylex) : Nat :=
  weight s.guts.line + if s.guts.buffer.bufferStatus = .eofPending then 0 else 1

/-- There is less left of the input, or of what is to be read, or of the buffer. -/
def Yylex.Less (s' s : Yylex) : Prop :=
  Prod.Lex (· < ·) (Prod.Lex (· < ·) (· < ·))
    (s'.input.length, s'.left, (s'.toFlex []).ahead) (s.input.length, s.left, (s.toFlex []).ahead)

theorem Yylex.less_wf : WellFounded Yylex.Less :=
  InvImage.wf _ (Prod.lex Nat.lt_wfRel (Prod.lex Nat.lt_wfRel Nat.lt_wfRel)).wf

end Steps

/-! ## The largest buffer -/

/-- So many bytes of the input are the beginning of a packet. -/
def Overlong (size : Nat) (input : List (BitVec 8)) : Prop :=
  ∃ u x, u <:+: input ∧ u.length + 1 = size ∧ x ≠ [] ∧ IsPacket (u ++ x)

/-- No beginning of a packet fills the largest buffer there is memory for. -/
def Fits (heap : Heap) (input : List (BitVec 8)) : Prop :=
  ∀ k, heap.limit < YY_BUF_SIZE * 2 ^ (k + 1) + 2 → ¬ Overlong (YY_BUF_SIZE * 2 ^ k) input

section Largest

variable {heap : Heap} {s s' : Yylex} {out : List (Rule × List (BitVec 8))} {k size : Nat}
  {input : List (BitVec 8)}

theorem Power.le (h : Power heap size) (hk : heap.limit < YY_BUF_SIZE * 2 ^ (k + 1) + 2) :
    size ≤ YY_BUF_SIZE * 2 ^ k := by
  obtain ⟨j, rfl, hj⟩ := h
  refine Nat.mul_le_mul_left _ (Nat.pow_le_pow_right (by omega) ?_)
  rcases hj with rfl | hj
  · exact Nat.zero_le k
  · by_contra hlt
    have hpow : YY_BUF_SIZE * 2 ^ (k + 1) ≤ YY_BUF_SIZE * 2 ^ j :=
      Nat.mul_le_mul_left _ (Nat.pow_le_pow_right (by omega) (by omega))
    omega

end Largest

/-! ## Runs -/

section Runs

variable {heap : Heap} {input : List (BitVec 8)}

end Runs

end Armator.Sim
