import Armator.Lib.Block
import Armator.Lib.Returns
import Armator.Lib.Rounds
import Armator.Lib.Path
import Armator.Lib.Related
import Armator.Lib.Watched
import Armator.Lib.Bytes
import Armator.Lib.Overlay
import Armator.Lib.FlatArray
import Armator.Lib.SortedArray
import Armator.Lib.Words
import Armator.Lib.Hex
import Armator.Lib.Lexer
import Armator.Sim.Util
import Armator.Sim.Memory
import Armator.Sim.Constants
import Armator.Sim.Registers
import Armator.Sim.Core
import Armator.Sim.Conditions
import Armator.Sim.Exception
import Armator.Sim.BranchOther
import Armator.Sim.DataProcessing
import Armator.Sim.LoadStore
import Armator.Sim.Instruction
import Armator.Sim.Breakpoints
import Armator.Sim.CString
import Armator.Sim.GdbProtocol
import Armator.Sim.Scanner
import Armator.Spec.Arm
import Armator.Proof.Access
import Armator.Proof.Contract
import Armator.Proof.Flat
import Armator.Proof.Compare
import Armator.Proof.Unsigned
import Armator.Proof.Step
import Armator.Proof.Branch
import Armator.Proof.Transfer
import Armator.Proof.Narrow
import Armator.Proof.Multiple
import Armator.Proof.Fault
import Armator.Proof.Frame
import Armator.Proof.Outcome
import Armator.Proof.Breakpoints
import Armator.Proof.Wide
import Armator.Proof.Scanner
import Armator.Proof.Sending
import Armator.Proof.Framing
import Armator.Proof.Continue
import Armator.Proof.RegisterDump
import Armator.Proof.Server
import Armator.Proof.SingleRegister
import Armator.Proof.Reply
import Armator.Proof.Download
import Armator.Proof.Overrun
import Armator.Proof.Watching
import Armator.Proof.Decoding
import Armator.Proof.Retransmit
import Armator.Proof.Modes
import Armator.Proof.RegisterFile
import Armator.Spec.DataProcessing
import Armator.Proof.Shifter
import Armator.Proof.Alu
import Armator.Proof.Encodings
import Armator.Proof.Setting
import Armator.Sim.Debug
import Armator.Proof.Debug
import Armator.Lib.Batch
import Armator.Proof.ErrorBuffer
import Armator.Lib.Lock
import Armator.Proof.Interrupts
import Armator.Proof.Requests
import Armator.Proof.Session
import Armator.Lib.Defers
import Armator.Lib.Emitter
import Armator.Proof.Automaton
import Armator.Proof.Effects
import Armator.Proof.Flex
import Armator.Proof.SendIrq
import Armator.Proof.Transport
import Armator.Lib.Span
import Armator.Proof.FlexBuffer
import Armator.Proof.FlexMemory
