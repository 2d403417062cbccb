import Z80Machine.Page.Base

/-!
The extended page: bytes 40 to 7F, the blocks among A0 to BF, and the extensions scattered between.
All other bytes are undefined.
-/
namespace Z80Machine

def Extension.ofByte? (v : Byte) : Option (Extension × Nat) :=
  match v with
  | 0x23 => some (.swapDigits, 8)
  | 0x24 => some (.reverseBits, 8)
  | 0x27 => some (.test, 11)
  | 0x28 => some (.barrel .left, 8)
  | 0x29 => some (.barrel .rightArithmetic, 8)
  | 0x2A => some (.barrel .rightLogical, 8)
  | 0x2B => some (.barrel .rightFill, 8)
  | 0x2C => some (.barrel .rotateLeft, 8)
  | 0x30 => some (.multiply, 8)
  | 0x31 => some (.addAccumulator .hl, 8)
  | 0x32 => some (.addAccumulator .de, 8)
  | 0x33 => some (.addAccumulator .bc, 8)
  | 0x34 => some (.addImmediate .hl, 16)
  | 0x35 => some (.addImmediate .de, 16)
  | 0x36 => some (.addImmediate .bc, 16)
  | 0x8A => some (.pushImmediate, 23)
  | 0x90 => some (.outputNext, 16)
  | 0x91 => some (.setRegisterImmediate, 20)
  | 0x92 => some (.setRegister, 17)
  | 0x93 => some (.pixelBelow, 8)
  | 0x94 => some (.pixelAddress, 8)
  | 0x95 => some (.pixelMask, 8)
  | 0x98 => some (.jumpInput, 13)
  | 0xA4 => some (.copy .up false, 16)
  | 0xA5 => some (.copyColumn, 14)
  | 0xAC => some (.copy .down false, 16)
  | 0xB4 => some (.copy .up true, 16)
  | 0xB7 => some (.copyPattern, 16)
  | 0xBC => some (.copy .down true, 16)
  | _ => none

def BlockKind.ofCode? (code : BitVec 3) : Option BlockKind :=
  match code with
  | 0 => some .load
  | 1 => some .compare
  | 2 => some .input
  | 3 => some .output
  | _ => none

/-- The block that a byte from A0 to BF names. -/
def Block.ofByte? (v : Byte) : Option Block :=
  if v.extractLsb' 5 3 = 5 then
    (BlockKind.ofCode? (Opcode.z v)).map fun kind =>
      ⟨kind, if Opcode.q v then .down else .up, v.getLsbD 4⟩
  else none

/-- The interrupt modes that the eight codes select. -/
def interruptModeOfCode (code : BitVec 3) : Fin 3 :=
  match code with
  | 2 | 6 => 1
  | 3 | 7 => 2
  | _ => 0

/-- Bytes 40 to 7F of the extended page. -/
def extendedRow (v : Byte) : Instruction :=
  let y := Opcode.y v
  let pair := Pair.ofCode .hl (Opcode.p v)
  let q := Opcode.q v
  match Opcode.z v with
  | 0 => ⟨.transmit (.read (Register.ofCode? .hl y)), 12⟩
  | 1 => ⟨.transmit (.write (Register.ofCode? .hl y)), 12⟩
  | 2 => ⟨.arithmetic (if q then .addCarry pair else .subtractCarry pair), 15⟩
  | 3 => ⟨.transfer (if q then .loadPair pair else .storePair pair), 20⟩
  | 4 => ⟨.arithmetic .negate, 8⟩
  | 5 => ⟨.jump (if y = 1 then .returnInterrupt else .returnNmi), 14⟩
  | 6 => ⟨.control (.interruptMode (interruptModeOfCode y)), 8⟩
  | _ => match y with
    | 0 => ⟨.transfer .loadToI, 9⟩
    | 1 => ⟨.transfer .loadToR, 9⟩
    | 2 => ⟨.transfer .loadFromI, 9⟩
    | 3 => ⟨.transfer .loadFromR, 9⟩
    | 4 => ⟨.bit .rotateDigitsRight, 18⟩
    | 5 => ⟨.bit .rotateDigitsLeft, 18⟩
    | _ => ⟨.control .nop, 8⟩

/-- The instruction at byte `v` of the extended page, `none` where the byte is undefined. -/
def extendedPage (v : Byte) : Option Instruction :=
  if Opcode.x v = 1 then some (extendedRow v)
  else match Block.ofByte? v with
    | some block => some ⟨.block block, 16⟩
    | none => (Extension.ofByte? v).map fun (e, cycles) => ⟨.extension e, cycles⟩

end Z80Machine
