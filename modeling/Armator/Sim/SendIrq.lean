import Armator.Sim.Constants
import Armator.Sim.CString
import Armator.Sim.Debug

/-!
# `send_irq.c`

The program that sends an interrupt to the simulator, up to the byte it writes to the connection,
and the names of the exceptions in `arm_constants.c`.
-/

namespace Armator.Sim

open Lib

def armExceptionNames : List (Option (List (BitVec 8))) :=
  [none, some (text "reset"), some (text "data abort"), some (text "fast interrupt"),
    some (text "interrupt"), some (text "imprecise abort"), some (text "prefetch abort"),
    some (text "undefined instruction"), some (text "software interrupt")]

def armGetExceptionName (exception : BitVec 8) : Option (List (BitVec 8)) :=
  if exception.toNat < 8 then armExceptionNames.getD exception.toNat none else none

theorem lt_of_exceptionName (irq : BitVec 8) (h : (armGetExceptionName irq).isSome) :
    irq.toNat < 8 := by
  unfold armGetExceptionName at h
  split at h
  · assumption
  · cases h

/-- The `while` loop from `irq` on: none if the name is unknown. -/
def irqLoop (name : Name) (irq : BitVec 8) : Option (BitVec 8) :=
  match h : armGetExceptionName irq with
  | none => none
  | some irqName => if strcmp irqName name.chars ≠ 0 then irqLoop name (irq + 1) else some irq
termination_by 8 - irq.toNat
decreasing_by
  have hlt := lt_of_exceptionName irq (by rw [h]; rfl)
  have hnext : (irq + 1).toNat = (irq.toNat + 1) % 2 ^ 8 := BitVec.toNat_add irq 1
  omega

/-- The byte that is sent, for the name on the command line, if there is one. -/
def sendIrq : Option Name → Option (BitVec 8)
  | none => some (BitVec.ofInt 8 INTERRUPT)
  | some name => irqLoop name (BitVec.ofInt 8 RESET)

end Armator.Sim
