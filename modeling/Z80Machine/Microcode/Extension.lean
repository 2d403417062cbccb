import Z80Machine.Microcode.Block
import Z80Machine.Microcode.Arithmetic
import Z80Machine.Config
import Z80Machine.Screen

/-!
Microcode of the extensions. Only the test and the column copy set flags.
-/
namespace Z80Machine

open Microcode

/-- Copies the byte at `source` to DE unless it equals the accumulator; DE moves up and BC counts down.
The time of the write passes either way. -/
def copyMasked (source : Word) : Microcode Unit := do
  let v ← readByte source
  let k ← registers
  if v = k.a then pause 3 else writeByte k.de v
  pause 2
  update fun k => (k.withDe (k.de + 1)).withBc (k.bc - 1)

/-- Goes back to the opcode while BC is not zero. -/
def againWhileCounting : Microcode Unit := do
  if (← registers).bc ≠ 0 then
    pause 5
    update fun k => { k with pc := k.pc - 2 }

def Extension.execute (config : Config) : Extension → Microcode Unit
  | .swapDigits => update fun k => { k with a := digitsSwapped k.a }
  | .reverseBits => update fun k => { k with a := bitsReversed k.a }
  | .test => do
    let v ← operand
    setFlags (AccumulatorOp.and.apply (← registers).a v false).flags
  | .barrel op => update fun k => k.withDe (op.apply k.de k.b)
  | .multiply => update fun k => k.withDe (product k.d k.e)
  | .addAccumulator p => update fun k => k.withPair p (k.pair p + k.a.setWidth 16)
  | .addImmediate p => do
    let w ← operandWord
    pause 2
    update fun k => k.withPair p (k.pair p + w)
  | .pushImmediate => do
    let high ← operand
    let low ← operand
    pause 3
    pushWord (Word.ofBytes high low)
  | .outputNext => do
    pause 1
    let k ← registers
    let v ← readByte k.hl
    outputByte k.bc v
    update (·.withHl (k.hl + 1))
  | .setRegisterImmediate => do
    let n ← operand
    send (.register config.selectPort n)
    let v ← operand
    send (.register config.dataPort v)
  | .setRegister => do
    let n ← operand
    send (.register config.selectPort n)
    send (.register config.dataPort (← registers).a)
  | .pixelBelow => update fun k => k.withHl (Screen.below k.hl)
  | .pixelAddress => update fun k => k.withHl (Screen.address k.d k.e)
  | .pixelMask => update fun k => { k with a := Screen.mask k.e }
  | .jumpInput => do
    let v ← inputByte (← registers).bc
    pause 1
    update fun k => { k with pc := k.pc &&& 0xC000 ||| v.setWidth 16 <<< 6 }
  | .copy d repeating => do
    copyMasked (← registers).hl
    update fun k => k.withHl (d.next k.hl)
    if repeating then againWhileCounting
  | .copyPattern => do
    let k ← registers
    copyMasked (k.hl &&& 0xFFF8 ||| (k.e &&& 7).setWidth 16)
    againWhileCounting
  | .copyColumn => do
    let k ← registers
    let v ← readByte k.hl
    writeByte k.de v
    let r := increment k.f k.d
    update fun k => { k with l := k.l + 1, d := r.value }
    setFlags r.flags

end Z80Machine
