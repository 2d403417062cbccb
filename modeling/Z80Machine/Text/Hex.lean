import Z80Machine.Word

/-!
Hexadecimal text of bytes and words: two or four digits, capitals in messages and small letters in
dumps.
-/
namespace Z80Machine.Hex

/-- The digit of the low four bits. -/
def digit (v : Byte) : Char := Nat.digitChar (v &&& 0x0F).toNat

/-- Two digits, small letters. -/
def digits (v : Byte) : List Char := [digit (v >>> 4), digit v]

/-- Two digits, capitals. -/
def capital (v : Byte) : String := String.ofList ((digits v).map Char.toUpper)

/-- Four digits, capitals. -/
def capitalWord (w : Word) : String := capital w.high ++ capital w.low

/-- The bytes one after the other, small letters. -/
def dump (vs : List Byte) : String := String.ofList (vs.flatMap digits)

/-- The value of a digit, in either case. -/
def value? (c : Char) : Option Byte := ((List.range 16).map (BitVec.ofNat 8)).find? (digit · == c.toLower)

/-- Reads pairs of digits; an odd or foreign character is refused. -/
def bytes? : List Char → Option (List Byte)
  | [] => some []
  | [_] => none
  | h :: l :: rest => do
    let h ← value? h
    let l ← value? l
    let vs ← bytes? rest
    return (h <<< 4 ||| l) :: vs

theorem value?_digit (v : Byte) : value? (digit v) = some (v &&& 0x0F) := by
  revert v
  decide +kernel

/-- A dump reads back as the bytes that it shows. -/
theorem bytes?_digits (vs : List Byte) : bytes? (vs.flatMap digits) = some vs := by
  induction vs with
  | nil => rfl
  | cons v vs ih =>
    have hv : (v >>> 4 &&& 0x0F) <<< 4 ||| v &&& 0x0F = v := by
      revert v
      decide +kernel
    simpa [digits, bytes?, value?_digit, ih] using hv

end Z80Machine.Hex
