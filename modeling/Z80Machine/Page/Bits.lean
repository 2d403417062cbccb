import Z80Machine.Page.Base

/-!
The bits page: shifts, and the test, reset and set of single bits. The indexed page has the same
operations on memory that the prefix and displacement have addressed; there the register field names
the register that receives a copy.
-/
namespace Z80Machine

/-- The bit operation whose fields are those of `v`, on a place. -/
def BitOperation.ofByte (v : Byte) (p : Place) (copy : Option Register) : BitOperation :=
  let y := Opcode.y v
  match Opcode.x v with
  | 0 => .shift (Shift.ofCode y) p copy
  | 1 => .test y p
  | 2 => .reset y p copy
  | _ => .set y p copy

/-- A test does not write back. -/
def BitOperation.isTest : BitOperation → Bool
  | .test _ _ => true
  | _ => false

def bitsPage (v : Byte) : Instruction :=
  let place := Place.ofCode .hl (Opcode.z v)
  let op := BitOperation.ofByte v place none
  ⟨.bit op, if place.isMemory then (if op.isTest then 12 else 15) else 8⟩

def indexedBitsPage (i : Index) (v : Byte) : Instruction :=
  let op := BitOperation.ofByte v (.memory (.latched i)) (Register.ofCode? .hl (Opcode.z v))
  ⟨.bit op, if op.isTest then 20 else 23⟩

end Z80Machine
