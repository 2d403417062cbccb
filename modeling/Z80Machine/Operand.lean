import Z80Machine.Registers

/-!
What an instruction can name: registers, register pairs, memory through a pointer, conditions and
directions. An index prefix puts `ix` or `iy` in the place of HL; `Base` says which of the three
stands there.
-/
namespace Z80Machine

inductive Index where
  | ix
  | iy
  deriving DecidableEq, Repr

/-- What stands in the place of HL. -/
inductive Base where
  | hl
  | index (i : Index)
  deriving DecidableEq, Repr

/-- The byte registers; `high i` and `low i` are the halves of an index register. -/
inductive Register where
  | b | c | d | e | h | l | a
  | high (i : Index)
  | low (i : Index)
  deriving DecidableEq, Repr

inductive Pair where
  | bc | de | hl | sp | af
  | index (i : Index)
  deriving DecidableEq, Repr

/-- A memory address: HL, an index register moved by the byte after the opcode, or the address that the
index prefix and displacement already left in WZ. -/
inductive Pointer where
  | hl
  | displaced (i : Index)
  | latched (i : Index)
  deriving DecidableEq, Repr

/-- A byte that an instruction can read and write. -/
inductive Place where
  | register (r : Register)
  | memory (p : Pointer)
  deriving DecidableEq, Repr

/-- A byte that an instruction can read. -/
inductive Source where
  | place (p : Place)
  | immediate
  deriving DecidableEq, Repr

inductive Condition where
  | nz | z | nc | c | po | pe | p | m
  deriving DecidableEq, Repr

inductive Direction where
  | up
  | down
  deriving DecidableEq, Repr

def Base.pair : Base → Pair
  | .hl => .hl
  | .index i => .index i

def Base.pointer : Base → Pointer
  | .hl => .hl
  | .index i => .displaced i

def Place.isMemory : Place → Bool
  | .register _ => false
  | .memory _ => true

def Condition.holds (k : Condition) (f : Flags) : Bool :=
  match k with
  | .nz => !f.zero
  | .z => f.zero
  | .nc => !f.carry
  | .c => f.carry
  | .po => !f.parity
  | .pe => f.parity
  | .p => !f.sign
  | .m => f.sign

/-- The next value in a direction, wrapping at both ends. -/
def Direction.next {w : Nat} (d : Direction) (v : BitVec w) : BitVec w :=
  match d with
  | .up => v + 1
  | .down => v - 1

namespace Registers

def index (k : Registers) : Index → Word
  | .ix => k.ix
  | .iy => k.iy

def withIndex (k : Registers) (i : Index) (w : Word) : Registers :=
  match i with
  | .ix => { k with ix := w }
  | .iy => { k with iy := w }

def get (k : Registers) : Register → Byte
  | .b => k.b
  | .c => k.c
  | .d => k.d
  | .e => k.e
  | .h => k.h
  | .l => k.l
  | .a => k.a
  | .high i => (k.index i).high
  | .low i => (k.index i).low

def set (k : Registers) (n : Register) (v : Byte) : Registers :=
  match n with
  | .b => { k with b := v }
  | .c => { k with c := v }
  | .d => { k with d := v }
  | .e => { k with e := v }
  | .h => { k with h := v }
  | .l => { k with l := v }
  | .a => { k with a := v }
  | .high i => k.withIndex i (Word.ofBytes v (k.index i).low)
  | .low i => k.withIndex i (Word.ofBytes (k.index i).high v)

def pair (k : Registers) : Pair → Word
  | .bc => k.bc
  | .de => k.de
  | .hl => k.hl
  | .sp => k.sp
  | .af => k.af
  | .index i => k.index i

def withPair (k : Registers) (n : Pair) (w : Word) : Registers :=
  match n with
  | .bc => k.withBc w
  | .de => k.withDe w
  | .hl => k.withHl w
  | .sp => { k with sp := w }
  | .af => k.withAf w
  | .index i => k.withIndex i w

@[simp] theorem index_withIndex (k : Registers) (i : Index) (w : Word) : (k.withIndex i w).index i = w := by
  cases i <;> rfl

@[simp] theorem get_set (k : Registers) (n : Register) (v : Byte) : (k.set n v).get n = v := by
  cases n <;> simp [get, set]

@[simp] theorem pair_withPair (k : Registers) (n : Pair) (w : Word) : (k.withPair n w).pair n = w := by
  cases n <;> simp [pair, withPair, withBc, withDe, withHl, withAf]

end Registers

end Z80Machine
