import Z80Machine.Arithmetic.Sum

/-!
The eight operations between the accumulator and a byte, and the four that work on the accumulator
alone.
-/
namespace Z80Machine

inductive AccumulatorOp where
  | add | adc | sub | sbc | and | xor | or | cp
  deriving DecidableEq, Repr

namespace AccumulatorOp

/-- The operation on accumulator `a`, operand `b` and carry `c`. A comparison leaves the accumulator as
it was and takes X and Y from the operand. -/
def apply (op : AccumulatorOp) (a b : Byte) (c : Bool) : Result 8 :=
  match op with
  | .add => Z80Machine.add a b false
  | .adc => Z80Machine.add a b c
  | .sub => subtract a b false
  | .sbc => subtract a b c
  | .and => ⟨a &&& b, { Flags.ofLogic (a &&& b) with half := true }⟩
  | .xor => ⟨a ^^^ b, Flags.ofLogic (a ^^^ b)⟩
  | .or => ⟨a ||| b, Flags.ofLogic (a ||| b)⟩
  | .cp => ⟨a, (subtract a b false).flags.withXY b⟩

/-- A comparison only sets flags. -/
def stores : AccumulatorOp → Bool
  | .cp => false
  | _ => true

end AccumulatorOp

/-- Decimal adjustment: each digit of `a` above nine, or that carried, is corrected by six, downwards
after a subtraction. -/
def decimalAdjusted (f : Flags) (a : Byte) : Result 8 :=
  let digit := a &&& 0x0F
  let low : Byte := if f.half || 9 < digit then 0x06 else 0
  let excess := f.carry || 0x99 < a
  let high : Byte := if excess then 0x60 else 0
  let r := if f.subtract then a - (low ||| high) else a + (low ||| high)
  { value := r
    flags :=
      { Flags.ofLogic r with
        half := if f.subtract then f.half && digit < 6 else 9 < digit
        subtract := f.subtract
        carry := excess } }

def complemented (f : Flags) (a : Byte) : Result 8 :=
  ⟨~~~a, { f.withXY (~~~a) with half := true, subtract := true }⟩

/-- Zero minus the accumulator. -/
def negated (a : Byte) : Result 8 := subtract 0 a false

/-- X and Y after setting or complementing the carry: from the accumulator, and also from `f` where the
instruction before, which left `previous`, did not set the flags to `f`. -/
def Flags.afterCarry (f previous : Flags) (a : Byte) : Flags :=
  { f with
    y := (previous.y ^^ f.y) || a.getLsbD 5
    x := (previous.x ^^ f.x) || a.getLsbD 3
    subtract := false }

def carrySet (f previous : Flags) (a : Byte) : Flags :=
  { f.afterCarry previous a with half := false, carry := true }

/-- The old carry becomes the half carry. -/
def carryComplemented (f previous : Flags) (a : Byte) : Flags :=
  { f.afterCarry previous a with half := f.carry, carry := !f.carry }

end Z80Machine
