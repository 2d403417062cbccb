import Z80Machine.Word

/-!
The last four bytes of a sequence. A fifth byte pushes the first one out.
-/
namespace Z80Machine

structure Window where
  slots : Vector Byte 4 := .replicate 4 0
  used : Nat := 0
  used_le : used ≤ 4 := by omega
  deriving DecidableEq, Repr

namespace Window

def empty : Window := {}

def push (w : Window) (v : Byte) : Window :=
  if h : w.used < 4 then { slots := w.slots.set w.used v h, used := w.used + 1, used_le := h }
  else { w with slots := #v[w.slots[1], w.slots[2], w.slots[3], v] }

/-- The bytes held, oldest first. -/
def toList (w : Window) : List Byte := w.slots.toList.take w.used

@[simp] theorem toList_empty : empty.toList = [] := rfl

theorem length_toList (w : Window) : w.toList.length = w.used := by
  simp [toList, w.used_le]

theorem toList_push_of_lt {w : Window} (h : w.used < 4) (v : Byte) :
    (w.push v).toList = w.toList ++ [v] := by
  simp only [push, h, ↓reduceDIte, toList, Vector.toList_set]
  rw [List.take_add_one, List.take_set_of_le (Nat.le_refl _)]
  simp [h]

theorem toList_push_of_not_lt {w : Window} (h : ¬ w.used < 4) (v : Byte) :
    (w.push v).toList = w.toList.tail ++ [v] := by
  have hu : w.used = 4 := Nat.le_antisymm w.used_le (Nat.le_of_not_lt h)
  rcases w with ⟨⟨⟨l⟩, hl⟩, n, _⟩
  match l, hl with
  | [a, b, c, d], _ => simp_all [push, toList]

end Window

end Z80Machine
