import Mathlib.Data.Nat.Notation

/-!
# `arm_constants.h`

The constants the simulator's functions use: modes, exception codes, shift
kinds, register masks and condition codes.
-/

namespace Armator.Sim

/-! ## Modes -/

def USR : BitVec 8 := 0x10
def SVC : BitVec 8 := 0x13
def SYS : BitVec 8 := 0x1f

/-! ## Exceptions, by priority -/

def RESET : Int := 1
def DATA_ABORT : Int := 2
def INTERRUPT : Int := 4
def PREFETCH_ABORT : Int := 6
def UNDEFINED_INSTRUCTION : Int := 7
def SOFTWARE_INTERRUPT : Int := 8
/-- Not an exception: how the simulator reports the end of the simulation. -/
def END_SIMULATION : Int := 9

/-! ## Shift operations -/

def LSL : BitVec 8 := 0
def LSR : BitVec 8 := 1
def ASR : BitVec 8 := 2
def ROR : BitVec 8 := 3

/-! ## Register masks -/

def PrivMask : BitVec 32 := 0x0000000F

/-! ## Conditions -/

def EQ : BitVec 32 := 0x0
def NE : BitVec 32 := 0x1
def CS : BitVec 32 := 0x2
def CC : BitVec 32 := 0x3
def MI : BitVec 32 := 0x4
def PL : BitVec 32 := 0x5
def VS : BitVec 32 := 0x6
def VC : BitVec 32 := 0x7
def HI : BitVec 32 := 0x8
def LS : BitVec 32 := 0x9
def GE : BitVec 32 := 0xA
def LT : BitVec 32 := 0xB
def GT : BitVec 32 := 0xC
def LE : BitVec 32 := 0xD
def AL : BitVec 32 := 0xE
def UN : BitVec 32 := 0xF

end Armator.Sim
