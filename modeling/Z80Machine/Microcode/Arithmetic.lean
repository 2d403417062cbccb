import Z80Machine.Microcode.Transfer

/-!
Microcode of arithmetic and logic. `previous` holds the flags as the step before left them latched; only
setting and complementing the carry look at it.
-/
namespace Z80Machine

open Microcode

/-- Puts a result into the accumulator and the flags. -/
def toAccumulator (r : Result 8) : Microcode Unit := do
  update fun k => { k with a := r.value }
  setFlags r.flags

/-- Puts a result into HL or an index register; WZ keeps the old value plus one. -/
def toBase (b : Base) (r : Result 16) : Microcode Unit := do
  latchAddress ((← registers).base b + 1)
  update (·.withPair b.pair r.value)
  setFlags r.flags

def Direction.step (d : Direction) : Flags → Byte → Result 8 :=
  match d with
  | .up => increment
  | .down => decrement

def Arithmetic.execute (previous : Flags) : Arithmetic → Microcode Unit
  | .accumulate op src => do
    let v ← src.read
    let k ← registers
    toAccumulator (op.apply k.a v k.f.carry)
  | .step d p => p.modify none fun v => do
    let r := d.step (← registers).f v
    setFlags r.flags
    return r.value
  | .stepPair d p => do
    pause 2
    update fun k => k.withPair p (d.next (k.pair p))
  | .addTo dst src => do
    pause 7
    let k ← registers
    toBase dst (addWord k.f (k.base dst) (k.pair src))
  | .addCarry src => do
    pause 7
    let k ← registers
    toBase .hl (add k.hl (k.pair src) k.f.carry)
  | .subtractCarry src => do
    pause 7
    let k ← registers
    toBase .hl (subtract k.hl (k.pair src) k.f.carry)
  | .decimalAdjust => do
    let k ← registers
    toAccumulator (decimalAdjusted k.f k.a)
  | .complement => do
    let k ← registers
    toAccumulator (complemented k.f k.a)
  | .negate => do
    toAccumulator (negated (← registers).a)
  | .setCarry => do
    let k ← registers
    setFlags (carrySet k.f previous k.a)
  | .complementCarry => do
    let k ← registers
    setFlags (carryComplemented k.f previous k.a)

end Z80Machine
