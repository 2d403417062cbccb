import Z80Machine.Operand
import Z80Machine.Arithmetic.Accumulator
import Z80Machine.Arithmetic.Shift
import Z80Machine.Arithmetic.Barrel

/-!
The instructions, by family. `Operation` joins the families, and an `Instruction` is an operation
with its declared time.
-/
namespace Z80Machine

/-- Where the accumulator's own loads and stores reach: (BC), (DE) or the word after the opcode. -/
inductive Reach where
  | bc
  | de
  | absolute
  deriving DecidableEq, Repr

/-- Movement of data. -/
inductive Transfer where
  | load (dst : Place) (src : Source)
  /-- The byte after the opcode, and after the displacement if there is one, goes to memory. -/
  | storeImmediate (b : Base)
  | loadAccumulator (r : Reach)
  | storeAccumulator (r : Reach)
  | loadPairImmediate (p : Pair)
  | loadPair (p : Pair)
  | storePair (p : Pair)
  | loadStackPointer (b : Base)
  | loadFromI
  | loadFromR
  | loadToI
  | loadToR
  | push (p : Pair)
  | pop (p : Pair)
  | exchangeDeHl
  | exchangeAf
  | exchangeBanks
  | exchangeStackTop (b : Base)
  deriving DecidableEq, Repr

/-- Arithmetic and logic on the accumulator, on counters and on words. -/
inductive Arithmetic where
  | accumulate (op : AccumulatorOp) (src : Source)
  | step (d : Direction) (p : Place)
  | stepPair (d : Direction) (p : Pair)
  | addTo (dst : Base) (src : Pair)
  | addCarry (src : Pair)
  | subtractCarry (src : Pair)
  | decimalAdjust
  | complement
  | negate
  | setCarry
  | complementCarry
  deriving DecidableEq, Repr

/-- Rotations, shifts and single bits. The register `copy` also receives the byte written. -/
inductive BitOperation where
  | rotateAccumulator (op : Shift)
  | shift (op : Shift) (p : Place) (copy : Option Register)
  | test (n : BitVec 3) (p : Place)
  | reset (n : BitVec 3) (p : Place) (copy : Option Register)
  | set (n : BitVec 3) (p : Place) (copy : Option Register)
  | rotateDigitsRight
  | rotateDigitsLeft
  deriving DecidableEq, Repr

/-- Changes of the program counter; without a condition they are always taken. -/
inductive Jump where
  | absolute (k : Option Condition)
  | toBase (b : Base)
  | relative (k : Option Condition)
  /-- Counts B down and jumps unless it has reached zero. -/
  | countdown
  | call (k : Option Condition)
  | return (k : Option Condition)
  | returnInterrupt
  | returnNmi
  | restart (n : BitVec 3)
  deriving DecidableEq, Repr

/-- Eight times `n`: the address that restart `n` calls. -/
def restartAddress (n : BitVec 3) : Byte := n.setWidth 8 <<< 3

inductive Control where
  | nop
  | halt
  | disableInterrupts
  | enableInterrupts
  | interruptMode (mode : Fin 3)
  deriving DecidableEq, Repr

/-- Input and output of a byte. A read without register only sets flags, a write without register sends
zero. -/
inductive Transmission where
  | readImmediate
  | writeImmediate
  | read (r : Option Register)
  | write (r : Option Register)
  deriving DecidableEq, Repr

inductive BlockKind where
  | load
  | compare
  | input
  | output
  deriving DecidableEq, Repr

/-- One element of a block; a repeating form goes back to its own opcode until the block is done. -/
structure Block where
  kind : BlockKind
  direction : Direction
  repeating : Bool
  deriving DecidableEq, Repr

/-- The operations that the plain processor lacks. -/
inductive Extension where
  | swapDigits
  | reverseBits
  | test
  | barrel (op : BarrelShift)
  | multiply
  | addAccumulator (p : Pair)
  | addImmediate (p : Pair)
  | pushImmediate
  /-- Sends the byte at HL to the port and moves HL up. -/
  | outputNext
  | setRegisterImmediate
  | setRegister
  | pixelBelow
  | pixelAddress
  | pixelMask
  /-- Jumps within the current 16 KiB to 64 times the byte read from the port. -/
  | jumpInput
  /-- Copies a byte unless it equals the accumulator. -/
  | copy (d : Direction) (repeating : Bool)
  /-- Copies from the eight bytes at HL as often as BC says. -/
  | copyPattern
  /-- Copies one byte down a column of 256-byte rows. -/
  | copyColumn
  deriving DecidableEq, Repr

inductive Operation where
  | transfer (t : Transfer)
  | arithmetic (a : Arithmetic)
  | bit (b : BitOperation)
  | jump (j : Jump)
  | control (c : Control)
  | transmit (t : Transmission)
  | block (b : Block)
  | extension (e : Extension)
  deriving DecidableEq, Repr

/-- Whether the operation needs the extensions. -/
def Operation.isExtension : Operation → Bool
  | .extension _ => true
  | _ => false

/-- An operation and its declared time in T-states: all opcode bytes included, the branch not taken, one
element of a block. -/
structure Instruction where
  operation : Operation
  cycles : Nat
  deriving DecidableEq, Repr

end Z80Machine
