import Mathlib.Data.List.DropRight
import Z80Machine.Window

/-!
The last four bytes of a sequence, in four slots. A window bounds the count of its slots in use; without that bound a
byte could miss them, and here it may. From empty slots none does: they come to be those of a window, whatever is
pushed.
-/
namespace Z80Machine

namespace Window

theorem used_of_rtake {w : Window} {vs : List Byte} (h : w.toList = vs.rtake 4) : w.used = min 4 vs.length := by
  rw [← length_toList, h, List.rtake, List.length_drop]
  omega

/-- A window holds the last four of the bytes pushed. -/
theorem toList_foldl (vs : List Byte) : (vs.foldl push empty).toList = vs.rtake 4 := by
  induction vs using List.reverseRecOn with
  | nil => rfl
  | append_singleton vs v ih =>
    rw [List.foldl_append, List.foldl_cons, List.foldl_nil, List.rtake_concat_succ]
    have hused := used_of_rtake ih
    by_cases h : (vs.foldl push empty).used < 4
    · have hlast : vs.length - 4 = vs.length - 3 := by omega
      rw [toList_push_of_lt h, ih, List.rtake, List.rtake, hlast]
    · have hlast : vs.length - 4 + 1 = vs.length - 3 := by omega
      rw [toList_push_of_not_lt h, ih, List.rtake, List.rtake, List.tail_drop, hlast]

end Window

/-- Four slots and a count of those in use, with nothing to keep it within them. -/
structure Slots where
  bytes : Vector Byte 4
  used : Nat

namespace Slots

def empty : Slots := ⟨.replicate 4 0, 0⟩

/-- The bytes moved up by one, the first of them to the end. -/
def rotated (bytes : Vector Byte 4) : Vector Byte 4 := #v[bytes[1], bytes[2], bytes[3], bytes[0]]

/-- If all slots are in use, the oldest byte moves to the end, where it is no longer counted. -/
def makeRoom (s : Slots) : Slots := if s.used = 4 then ⟨rotated s.bytes, s.used - 1⟩ else s

/-- Puts a byte into the slot after those in use, if there is one. -/
def store? (s : Slots) (v : Byte) : Option Slots :=
  if h : s.used < 4 then some ⟨s.bytes.set s.used v h, s.used + 1⟩ else none

def push? (s : Slots) (v : Byte) : Option Slots := s.makeRoom.store? v

/-- The bytes in the slots in use, if there are as many slots. -/
def toList? (s : Slots) : Option (List Byte) := if s.used ≤ 4 then some (s.bytes.toList.take s.used) else none

end Slots

namespace Window

def unbounded (w : Window) : Slots := ⟨w.slots, w.used⟩

variable (w : Window) (v : Byte)

theorem makeRoom_of_lt {w : Window} (h : w.used < 4) : w.unbounded.makeRoom = w.unbounded := if_neg (Nat.ne_of_lt h)

theorem makeRoom_of_full {w : Window} (h : w.used = 4) : w.unbounded.makeRoom = ⟨Slots.rotated w.slots, 3⟩ := by
  have hfull : w.unbounded.used = 4 := h
  rw [Slots.makeRoom, if_pos hfull, hfull]
  rfl

theorem used_makeRoom : w.unbounded.makeRoom.used < 4 := by
  rcases Nat.lt_or_eq_of_le w.used_le with h | h
  · rw [makeRoom_of_lt h]
    exact h
  · rw [makeRoom_of_full h]
    exact Nat.lt_succ_self 3

theorem push?_unbounded : w.unbounded.push? v = some (w.push v).unbounded := by
  rcases Nat.lt_or_eq_of_le w.used_le with h | h
  · rw [Slots.push?, makeRoom_of_lt h, push, dif_pos h]
    exact dif_pos h
  · have hpushed : (w.push v).unbounded = ⟨#v[w.slots[1], w.slots[2], w.slots[3], v], 4⟩ := by
      rw [push, dif_neg (Nat.not_lt_of_le (Nat.le_of_eq h.symm))]
      exact congrArg (Slots.mk _) h
    rw [Slots.push?, makeRoom_of_full h, hpushed]
    rfl

theorem toList?_unbounded : w.unbounded.toList? = some w.toList := if_pos w.used_le

theorem foldlM_push? (vs : List Byte) :
    vs.foldlM Slots.push? Slots.empty = some (vs.foldl push empty).unbounded := by
  induction vs using List.reverseRecOn with
  | nil => rfl
  | append_singleton vs v ih =>
    rw [List.foldlM_append, ih, List.foldl_append]
    exact (bind_pure _).trans (push?_unbounded _ v)

/-- Bytes pushed one after the other into empty slots. Each of them finds its slot, no more than four are in use, there
is a slot for another byte, and those in use hold the last four bytes of the sequence, or all of a shorter one. -/
theorem slides (vs : List Byte) :
    let w := vs.foldl push empty
    vs.foldlM Slots.push? Slots.empty = some w.unbounded ∧ w.unbounded.used = min 4 vs.length ∧
      w.unbounded.makeRoom.used < 4 ∧ w.unbounded.toList? = some w.toList ∧ w.toList = vs.rtake 4 := by
  intro w
  have hlast : w.toList = vs.rtake 4 := toList_foldl vs
  exact ⟨foldlM_push? vs, used_of_rtake hlast, w.used_makeRoom, w.toList?_unbounded, hlast⟩

example : (([0xDD, 0xFD, 0xDD, 0xED, 0x00] : List Byte).foldl push empty).toList = [0xFD, 0xDD, 0xED, 0x00] := by decide

end Window

end Z80Machine
