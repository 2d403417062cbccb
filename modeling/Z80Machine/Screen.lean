import Z80Machine.Word

/-!
Screen addresses. A line number is stored with its bits in three groups: the top two bits of the
line stand in bits 12 and 11 of the address, the next three in bits 7 to 5 and the low three in bits
10 to 8. The column of eight pixels is in bits 4 to 0.
-/
namespace Z80Machine.Screen

/-- The address one line further down in the same column. -/
def below (address : Word) : Word :=
  if address &&& 0x0700 ≠ 0x0700 then address + 0x0100
  else if address &&& 0x00E0 ≠ 0x00E0 then (address &&& 0xF8FF) + 0x0020
  else (address &&& 0xF81F) + 0x0800

/-- The address of the byte that holds pixel `x` of line `y`. -/
def address (y x : Byte) : Word :=
  let line := y.setWidth 16
  0x4000 + (line &&& 0xC0) <<< 5 + (line &&& 0x07) <<< 8 + (line &&& 0x38) <<< 2 + (x >>> 3).setWidth 16

/-- The bit that pixel `x` has in its byte; the leftmost pixel is the top bit. -/
def mask (x : Byte) : Byte := 0x80 >>> (x &&& 7).toNat

end Z80Machine.Screen
