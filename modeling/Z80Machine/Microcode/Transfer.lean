import Z80Machine.Microcode
import Z80Machine.Instruction

/-!
Microcode of the data movements.
-/
namespace Z80Machine

open Microcode

def Reach.address : Reach → Microcode Word
  | .bc => return (← registers).bc
  | .de => return (← registers).de
  | .absolute => operandWord

namespace Registers

/-- WZ after the accumulator was stored at `a`: the accumulator over the low byte of the next address. -/
def storeLatch (k : Registers) (a : Word) : Word := Word.ofBytes k.a (a + 1).low

def base (k : Registers) (b : Base) : Word := k.pair b.pair

/-- Sign, zero, X and Y of the accumulator and the interrupt enable in parity; the carry stays. -/
def interruptFlags (k : Registers) : Flags :=
  { Flags.ofResult k.a with parity := k.iff2, carry := k.f.carry }

end Registers

/-- Brings I or R into the accumulator. -/
def loadSpecial (f : Registers → Byte) : Microcode Unit := do
  pause 1
  update fun k => { k with a := f k }
  setFlags (← registers).interruptFlags

/-- Where the byte of a store with immediate byte goes. The displaced form has its displacement first. -/
def Base.storeAddress : Base → Microcode Word
  | .hl => return (← registers).hl
  | .index i => do
    let d ← operand
    let a := ((← registers).index i).displace d
    latchAddress a
    return a

def Transfer.execute : Transfer → Microcode Unit
  | .load dst src => do
    let v ← src.read
    (← dst.locate).write v
  | .storeImmediate b => do
    let a ← b.storeAddress
    let v ← operand
    match b with
    | .hl => pure ()
    | .index _ => pause 2
    writeByte a v
  | .loadAccumulator r => do
    let a ← r.address
    let v ← readByte a
    update fun k => { k with a := v, wz := a + 1 }
  | .storeAccumulator r => do
    let a ← r.address
    writeByte a (← registers).a
    update fun k => { k with wz := k.storeLatch a }
  | .loadPairImmediate p => do
    let w ← operandWord
    update (·.withPair p w)
  | .loadPair p => do
    let a ← operandWord
    let w ← readWord a
    update fun k => { k.withPair p w with wz := a + 1 }
  | .storePair p => do
    let a ← operandWord
    writeWord a ((← registers).pair p)
    latchAddress (a + 1)
  | .loadStackPointer b => do
    pause 2
    update fun k => { k with sp := k.base b }
  | .loadFromI => loadSpecial (·.i)
  | .loadFromR => loadSpecial (·.r)
  | .loadToI => do
    pause 1
    update fun k => { k with i := k.a }
  | .loadToR => do
    pause 1
    update fun k => { k with r := k.a }
  | .push p => do
    pause 1
    pushWord ((← registers).pair p)
  | .pop p => do
    let w ← popWord
    update (·.withPair p w)
  | .exchangeDeHl => update fun k => (k.withDe k.hl).withHl k.de
  | .exchangeAf => update Registers.afterExAf
  | .exchangeBanks => update Registers.afterExx
  | .exchangeStackTop b => do
    let k ← registers
    let w ← readWord k.sp
    pause 1
    writeByte (k.sp + 1) (k.base b).high
    writeByte k.sp (k.base b).low
    pause 2
    update fun k => { k.withPair b.pair w with wz := w }

end Z80Machine
