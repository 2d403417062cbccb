import Z80Machine.Microcode.Transfer

/-!
Microcode of rotations, shifts and single bits.
-/
namespace Z80Machine

open Microcode

/-- Rotates digits through the byte at HL. -/
def rotateDigits (f : Byte → Byte → Byte × Byte) : Microcode Unit := do
  let k ← registers
  let m ← readByte k.hl
  pause 4
  let (a, m) := f k.a m
  writeByte k.hl m
  update fun k => { k with a := a, wz := k.hl + 1 }
  setFlags { Flags.ofLogic a with carry := k.f.carry }

/-- The byte to test, and the byte that gives X and Y: a register itself, and for memory the high byte of
WZ. -/
def Place.examine : Place → Microcode (Byte × Byte)
  | .register r => do
    let v := (← registers).get r
    return (v, v)
  | .memory p => do
    let v ← readByte (← p.address)
    pause 1
    return (v, (← registers).wz.high)

def BitOperation.execute : BitOperation → Microcode Unit
  | .rotateAccumulator op => do
    let k ← registers
    let r := op.applyAccumulator k.f k.a
    update fun k => { k with a := r.value }
    setFlags r.flags
  | .shift op p copy => p.modify copy fun v => do
    let r := op.apply v (← registers).f.carry
    setFlags r.flags
    return r.value
  | .test n p => do
    let (v, xy) ← p.examine
    setFlags (testBit (← registers).f n v xy)
  | .reset n p copy => p.modify copy fun v => return resetBit n v
  | .set n p copy => p.modify copy fun v => return setBit n v
  | .rotateDigitsRight => rotateDigits digitsRight
  | .rotateDigitsLeft => rotateDigits digitsLeft

end Z80Machine
