import Z80Machine.Microcode.Transfer

/-!
Microcode of the block operations. Each step moves one element. A repeating form that has not
finished goes back to its own opcode, so the next step fetches it again and an interrupt can come in
between; such a step shows the high byte of the program counter in X and Y.
-/
namespace Z80Machine

open Microcode

/-- Goes back to the two opcode bytes just run. -/
def rewind : Microcode Unit := do
  pause 5
  update fun k => { k with pc := k.pc - 2, wz := k.pc - 1 }

/-- Y and X from bits 1 and 3 of a byte. -/
def Flags.withBlockXY (f : Flags) (v : Byte) : Flags := { f with y := v.getLsbD 1, x := v.getLsbD 3 }

/-- Ends one element: goes back if `again`, with X and Y shown there, or sets the flags `last`. -/
def finishBlock (again : Bool) (shown last : Flags) : Microcode Unit := do
  if again then
    rewind
    setFlags (shown.withXY (← registers).pc.high)
  else setFlags last

namespace Block

variable (b : Block)

def load : Microcode Unit := do
  let k ← registers
  let v ← readByte k.hl
  writeByte k.de v
  pause 2
  update fun k => ((k.withHl (b.direction.next k.hl)).withDe (b.direction.next k.de)).withBc (k.bc - 1)
  let k ← registers
  let more := k.bc != 0
  let f := { k.f with half := false, parity := more, subtract := false }
  finishBlock (b.repeating && more) f (f.withBlockXY (v + k.a))

def compare : Microcode Unit := do
  let k ← registers
  let v ← readByte k.hl
  pause 5
  update fun k =>
    { (k.withHl (b.direction.next k.hl)).withBc (k.bc - 1) with wz := b.direction.next k.wz }
  let k ← registers
  let more := k.bc != 0
  let d := subtract k.a v false
  let f := { d.flags with parity := more, carry := k.f.carry }
  finishBlock (b.repeating && more && !d.flags.zero) f
    (f.withBlockXY (d.value - (BitVec.ofBool d.flags.half).setWidth 8))

/-- The flags after input or output of `v` with B counted down to `count`. Half carry and carry tell
whether `v` and `other` sum to more than a byte holds. -/
def portFlags (v other count : Byte) : Flags :=
  let excess := decide (0xFF < v.toNat + other.toNat)
  { Flags.ofResult count with
    half := excess
    parity := evenParity ((v + other) &&& 7 ^^^ count)
    subtract := v.msb
    carry := excess }

/-- The same before another round, X and Y apart: half carry and parity are those of B moving once more
in the direction that the carry points. -/
def portFlagsAgain (v other count : Byte) : Flags :=
  let f := portFlags v other count
  let moved := if f.carry then (if v.msb then count - 1 else count + 1) else count
  { f with
    half := f.carry && count &&& 0x0F == (if v.msb then 0 else 0x0F)
    parity := evenParity ((v + other) &&& 7 ^^^ count ^^^ moved &&& 7) }

/-- Ends one element of input or output. -/
def finishPort (v other : Byte) : Microcode Unit := do
  let count := (← registers).b
  finishBlock (b.repeating && count != 0) (portFlagsAgain v other count) (portFlags v other count)

def input : Microcode Unit := do
  pause 1
  let k ← registers
  let v ← inputByte k.bc
  writeByte k.hl v
  update fun k =>
    { k.withHl (b.direction.next k.hl) with b := k.b - 1, wz := b.direction.next k.bc }
  b.finishPort v (b.direction.next k.c)

def output : Microcode Unit := do
  pause 1
  let v ← readByte (← registers).hl
  update fun k => { k with b := k.b - 1 }
  outputByte (← registers).bc v
  update fun k => { k.withHl (b.direction.next k.hl) with wz := b.direction.next k.bc }
  b.finishPort v (← registers).l

def execute : Microcode Unit :=
  match b.kind with
  | .load => b.load
  | .compare => b.compare
  | .input => b.input
  | .output => b.output

end Block

end Z80Machine
