import Z80Machine.Activity
import Z80Machine.Arithmetic.Accumulator
import Z80Machine.Arithmetic.Barrel
import Z80Machine.Arithmetic.Shift
import Z80Machine.Arithmetic.Sum
import Z80Machine.Bus
import Z80Machine.Bus.Flat
import Z80Machine.Bus.Memory
import Z80Machine.Bus.Observed
import Z80Machine.Config
import Z80Machine.Cpu
import Z80Machine.Cpu.Fetch
import Z80Machine.Cpu.Query
import Z80Machine.Cpu.Run
import Z80Machine.Cpu.Step
import Z80Machine.Document
import Z80Machine.Document.Layout
import Z80Machine.Fault
import Z80Machine.Flags
import Z80Machine.Instruction
import Z80Machine.Instruction.Mnemonic
import Z80Machine.Microcode
import Z80Machine.Microcode.Arithmetic
import Z80Machine.Microcode.Bit
import Z80Machine.Microcode.Block
import Z80Machine.Microcode.Extension
import Z80Machine.Microcode.Jump
import Z80Machine.Microcode.Operation
import Z80Machine.Microcode.Transfer
import Z80Machine.Microcode.Transmission
import Z80Machine.Operand
import Z80Machine.Page
import Z80Machine.Page.Base
import Z80Machine.Page.Bits
import Z80Machine.Page.Description
import Z80Machine.Page.Extended
import Z80Machine.Proofs.Chain
import Z80Machine.Proofs.Execution
import Z80Machine.Proofs.Failure
import Z80Machine.Proofs.History
import Z80Machine.Proofs.Orderly
import Z80Machine.Proofs.Plain
import Z80Machine.Proofs.Step
import Z80Machine.Proofs.Supply
import Z80Machine.Proofs.Target
import Z80Machine.Proofs.Timing
import Z80Machine.Registers
import Z80Machine.SavedState
import Z80Machine.Screen
import Z80Machine.Text.Hex
import Z80Machine.Ticks
import Z80Machine.Window
import Z80Machine.Word
import Z80Machine.Machine
import Z80Machine.Proofs.Frame
import Z80Machine.Proofs.Interrupts
import Z80Machine.Proofs.Acceptance
import Z80Machine.Proofs.Conservation
import Z80Machine.Proofs.Rounds
import Z80Machine.Proofs.Copying
import Z80Machine.Proofs.Searching
import Z80Machine.Proofs.PortBlocks
import Z80Machine.Proofs.MaskedCopying
import Z80Machine.Proofs.Interruption
import Z80Machine.Proofs.Halt
import Z80Machine.Proofs.Restoration
import Z80Machine.Proofs.Lockstep
import Z80Machine.Proofs.Exchange
import Z80Machine.Proofs.Renaming
import Z80Machine.Proofs.IndexSymmetry
import Z80Machine.Proofs.HiddenLatches
import Z80Machine.Proofs.IndexedBits
import Z80Machine.Proofs.IndexPage
import Z80Machine.Proofs.Observation
import Z80Machine.Proofs.Traffic
import Z80Machine.Proofs.Pacing
import Z80Machine.Proofs.Replay
import Z80Machine.Proofs.HeldRequest
import Z80Machine.Proofs.BarrelShifting
import Z80Machine.Proofs.SuppliedTarget
import Z80Machine.Proofs.Sourcing
import Z80Machine.Proofs.Decoding
import Z80Machine.Proofs.Bounds
import Z80Machine.Proofs.Substitution
import Z80Machine.Proofs.Configuration
import Z80Machine.Proofs.Latching
import Z80Machine.Proofs.Consistency
import Z80Machine.Proofs.Sums
import Z80Machine.Proofs.CarryChain
import Z80Machine.Proofs.Decimal
import Z80Machine.Proofs.Repetition
import Z80Machine.Proofs.Scope
import Z80Machine.Proofs.Opcodes
import Z80Machine.Proofs.Refresh
import Z80Machine.Proofs.ControlFrame
import Z80Machine.Proofs.Stack
import Z80Machine.Proofs.ProgramCounter
import Z80Machine.Proofs.StackTransfers
import Z80Machine.Proofs.ScreenLines
import Z80Machine.Proofs.BusUses
import Z80Machine.Proofs.SlidingWindow
