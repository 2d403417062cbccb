import Z80Machine.Arithmetic.Sum

/-!
Rotations and shifts of a byte by one place, the accumulator's own rotations, digit rotation through
memory and the test of a bit.
-/
namespace Z80Machine

inductive Shift where
  | rlc | rrc | rl | rr | sla | sra | sll | srl
  deriving DecidableEq, Repr

namespace Shift

/-- The byte that `v` becomes when `c` is the carry. `sll` brings in a one. -/
def value (op : Shift) (v : Byte) (c : Bool) : Byte :=
  match op with
  | .rlc => v.rotateLeft 1
  | .rrc => v.rotateRight 1
  | .rl => v <<< 1 ||| (BitVec.ofBool c).setWidth 8
  | .rr => v >>> 1 ||| (BitVec.ofBool c).setWidth 8 <<< 7
  | .sla => v <<< 1
  | .sra => v.sshiftRight 1
  | .sll => v <<< 1 ||| 1
  | .srl => v >>> 1

/-- The bit of `v` that the shift pushes out. -/
def out (op : Shift) (v : Byte) : Bool :=
  match op with
  | .rlc | .rl | .sla | .sll => v.getLsbD 7
  | .rrc | .rr | .sra | .srl => v.getLsbD 0

def apply (op : Shift) (v : Byte) (c : Bool) : Result 8 :=
  ⟨op.value v c, { Flags.ofLogic (op.value v c) with carry := op.out v }⟩

/-- On the accumulator by itself sign, zero and parity stay as they are in `f`. -/
def applyAccumulator (op : Shift) (f : Flags) (a : Byte) : Result 8 :=
  let r := op.value a f.carry
  ⟨r, { f.withXY r with half := false, subtract := false, carry := op.out a }⟩

end Shift

/-- The flags after testing bit `n` of `v`. Parity follows zero, and X and Y come from `xy`. -/
def testBit (f : Flags) (n : BitVec 3) (v xy : Byte) : Flags :=
  let on := v.getLsbD n.toNat
  Flags.withXY { sign := n == 7 && on, zero := !on, half := true, parity := !on, carry := f.carry } xy

def resetBit (n : BitVec 3) (v : Byte) : Byte := v &&& ~~~((1 : Byte) <<< n.toNat)

def setBit (n : BitVec 3) (v : Byte) : Byte := v ||| (1 : Byte) <<< n.toNat

/-- The low digit of `a` and the two digits of `m`, rotated one digit to the right: the new accumulator
and the new memory byte. -/
def digitsRight (a m : Byte) : Byte × Byte :=
  (a &&& 0xF0 ||| m &&& 0x0F, a <<< 4 ||| m >>> 4)

/-- The same digits rotated one digit to the left. -/
def digitsLeft (a m : Byte) : Byte × Byte :=
  (a &&& 0xF0 ||| m >>> 4, m <<< 4 ||| a &&& 0x0F)

end Z80Machine
