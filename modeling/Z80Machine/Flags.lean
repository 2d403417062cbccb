import Z80Machine.Word

/-!
The eight flags. As a byte they stand, from bit 7 down, in the order sign, zero, Y, half carry, X,
parity, subtract, carry; `Flags.ofByte` and `Flags.toByte` are inverse to each other.
-/
namespace Z80Machine

structure Flags where
  sign : Bool := false
  zero : Bool := false
  /-- Bit 5, a copy of that bit of some result. -/
  y : Bool := false
  half : Bool := false
  /-- Bit 3, a copy of that bit of some result. -/
  x : Bool := false
  /-- Even parity, signed overflow or "counter not zero", as the operation has it. -/
  parity : Bool := false
  subtract : Bool := false
  carry : Bool := false
  deriving DecidableEq, Repr

/-- The parity of a byte is even when it has an even number of ones. -/
def evenParity (v : Byte) : Bool :=
  !(v.getLsbD 0 ^^ v.getLsbD 1 ^^ v.getLsbD 2 ^^ v.getLsbD 3 ^^
    v.getLsbD 4 ^^ v.getLsbD 5 ^^ v.getLsbD 6 ^^ v.getLsbD 7)

namespace Flags

def toByte (f : Flags) : Byte :=
  (if f.sign then 0x80 else 0) ||| (if f.zero then 0x40 else 0) |||
  (if f.y then 0x20 else 0) ||| (if f.half then 0x10 else 0) |||
  (if f.x then 0x08 else 0) ||| (if f.parity then 0x04 else 0) |||
  (if f.subtract then 0x02 else 0) ||| (if f.carry then 0x01 else 0)

def ofByte (b : Byte) : Flags where
  sign := b.getLsbD 7
  zero := b.getLsbD 6
  y := b.getLsbD 5
  half := b.getLsbD 4
  x := b.getLsbD 3
  parity := b.getLsbD 2
  subtract := b.getLsbD 1
  carry := b.getLsbD 0

@[simp] theorem ofByte_toByte (f : Flags) : ofByte f.toByte = f := by
  rcases f with ⟨_ | _, _ | _, _ | _, _ | _, _ | _, _ | _, _ | _, _ | _⟩ <;> rfl

@[simp] theorem toByte_ofByte (b : Byte) : (ofByte b).toByte = b := by
  revert b
  decide

theorem toByte_inj {f g : Flags} : f.toByte = g.toByte ↔ f = g :=
  ⟨fun h => by rw [← ofByte_toByte f, h, ofByte_toByte], congrArg toByte⟩

/-- No flag set. -/
def clear : Flags := {}

/-- X and Y copied from a byte, the other flags kept. -/
def withXY (f : Flags) (v : Byte) : Flags := { f with y := v.getLsbD 5, x := v.getLsbD 3 }

/-- Sign, zero, X and Y of a result; X and Y are bits 3 and 5 of its top byte. -/
def ofResult {w : Nat} (v : BitVec w) : Flags where
  sign := v.msb
  zero := v == 0
  y := v.getLsbD (w - 3)
  x := v.getLsbD (w - 5)

/-- Sign, zero, X, Y and parity of a result. -/
def ofLogic (v : Byte) : Flags := { ofResult v with parity := evenParity v }

end Flags

end Z80Machine
