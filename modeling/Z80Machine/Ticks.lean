/-!
Counts of T-states. A count wraps at 2^64.
-/
namespace Z80Machine

structure Ticks where
  count : BitVec 64
  deriving DecidableEq, Repr

namespace Ticks

def zero : Ticks := ⟨0⟩

/-- The count `n` T-states later. -/
def later (t : Ticks) (n : Nat) : Ticks := ⟨t.count + BitVec.ofNat 64 n⟩

def compare (t u : Ticks) : Ordering := Ord.compare t.count.toNat u.count.toNat

def text (t : Ticks) : String := toString t.count.toNat ++ "T"

theorem later_later (t : Ticks) (m n : Nat) : (t.later m).later n = t.later (m + n) := by
  simp [later, BitVec.add_assoc, BitVec.ofNat_add]

@[simp] theorem later_zero (t : Ticks) : t.later 0 = t := by
  simp [later]

end Ticks

end Z80Machine
