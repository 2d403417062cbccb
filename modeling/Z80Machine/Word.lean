/-!
Bytes and words. A word is a high byte over a low byte, and a displacement is a signed byte added to
a word modulo 2^16.
-/
namespace Z80Machine

abbrev Byte := BitVec 8

abbrev Word := BitVec 16

namespace Word

def ofBytes (high low : Byte) : Word := high.setWidth 16 <<< 8 ||| low.setWidth 16

def high (w : Word) : Byte := (w >>> 8).setWidth 8

def low (w : Word) : Byte := w.setWidth 8

/-- Moves `w` by the signed byte `d`, wrapping at both ends. -/
def displace (w : Word) (d : Byte) : Word := w + d.signExtend 16

@[simp] theorem high_ofBytes (h l : Byte) : high (ofBytes h l) = h := by
  ext i hi
  simp [high, ofBytes, hi, show 8 + i < 16 by omega, show ¬ 8 + i < 8 by omega, show i < 16 by omega]

@[simp] theorem low_ofBytes (h l : Byte) : low (ofBytes h l) = l := by
  ext i hi
  simp [low, ofBytes]

@[simp] theorem ofBytes_high_low (w : Word) : ofBytes (high w) (low w) = w := by
  ext i hi
  by_cases h8 : i < 8
  · simp [ofBytes, high, low, h8, hi]
  · simp [ofBytes, high, low, h8, hi, show 8 + (i - 8) = i by omega, show i - 8 < 8 by omega]

end Word

theorem next_address (a : Word) (x : Nat) : a + BitVec.ofNat 16 (x + 1) = a + 1 + BitVec.ofNat 16 x := by
  rw [Nat.add_comm, BitVec.ofNat_add, ← BitVec.add_assoc]
  rfl

end Z80Machine
