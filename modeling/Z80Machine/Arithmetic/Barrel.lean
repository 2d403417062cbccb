import Z80Machine.Word

/-!
Shifts of a word by a count, products and byte permutations. None of these touches the flags.
-/
namespace Z80Machine

inductive BarrelShift where
  | left
  | rightArithmetic
  | rightLogical
  | rightFill
  | rotateLeft
  deriving DecidableEq, Repr

/-- Shifts `v` by the low five bits of `count`, and rotates it by the low four. `rightFill` shifts `v` out
of a double word whose upper half is sixteen ones, so zeros follow once these are used up. -/
def BarrelShift.apply (op : BarrelShift) (v : Word) (count : Byte) : Word :=
  let n := (count &&& 0x1F).toNat
  match op with
  | .left => v <<< n
  | .rightArithmetic => v.sshiftRight n
  | .rightLogical => v >>> n
  | .rightFill => ((0xFFFF0000 ||| v.setWidth 32) >>> n : BitVec 32).setWidth 16
  | .rotateLeft => v.rotateLeft (count &&& 0x0F).toNat

def product (d e : Byte) : Word := d.setWidth 16 * e.setWidth 16

def digitsSwapped (v : Byte) : Byte := v.rotateLeft 4

/-- The bits of `v` in reverse order. -/
def bitsReversed (v : Byte) : Byte := v.reverse

end Z80Machine
