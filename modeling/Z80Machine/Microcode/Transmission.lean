import Z80Machine.Microcode.Transfer

/-!
Microcode of input and output. The port address is BC, or the accumulator over an immediate byte.
-/
namespace Z80Machine

open Microcode

def Transmission.execute : Transmission → Microcode Unit
  | .readImmediate => do
    let n ← operand
    let p := Word.ofBytes (← registers).a n
    let v ← inputByte p
    update fun k => { k with a := v, wz := p + 1 }
  | .writeImmediate => do
    let n ← operand
    let k ← registers
    outputByte (Word.ofBytes k.a n) k.a
    latchAddress (Word.ofBytes k.a (n + 1))
  | .read r => do
    let p := (← registers).bc
    let v ← inputByte p
    match r with
    | none => pure ()
    | some r => update (·.set r v)
    latchAddress (p + 1)
    setFlags { Flags.ofLogic v with carry := (← registers).f.carry }
  | .write r => do
    let k ← registers
    outputByte k.bc (match r with
      | none => 0
      | some r => k.get r)
    latchAddress (k.bc + 1)

end Z80Machine
