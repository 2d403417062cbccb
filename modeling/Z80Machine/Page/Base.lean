import Z80Machine.Instruction

/-!
The opening page: what an opcode byte means when HL, or an index register put in its place by a
prefix, is the base. A byte is split into the fields `x` (bits 7 and 6), `y` (bits 5 to 3) and `z`
(bits 2 to 0).
-/
namespace Z80Machine

/-- A byte that leads to another page. -/
inductive Lead where
  | bits
  | extended
  | index (i : Index)
  | indexedBits (i : Index)
  deriving DecidableEq, Repr

inductive Opening where
  | instruction (i : Instruction)
  | lead (l : Lead)
  deriving DecidableEq, Repr

namespace Opcode

def x (v : Byte) : BitVec 2 := v.extractLsb' 6 2
def y (v : Byte) : BitVec 3 := v.extractLsb' 3 3
def z (v : Byte) : BitVec 3 := v.extractLsb' 0 3
/-- The two high bits of `y`. -/
def p (v : Byte) : BitVec 2 := v.extractLsb' 4 2
/-- The low bit of `y`. -/
def q (v : Byte) : Bool := v.getLsbD 3

end Opcode

/-- The register in a three-bit field; code 6 stands for memory. -/
def Register.ofCode? (b : Base) (code : BitVec 3) : Option Register :=
  match code with
  | 0 => some .b
  | 1 => some .c
  | 2 => some .d
  | 3 => some .e
  | 4 => match b with
    | .hl => some .h
    | .index i => some (.high i)
  | 5 => match b with
    | .hl => some .l
    | .index i => some (.low i)
  | 6 => none
  | _ => some .a

def Place.ofCode (b : Base) (code : BitVec 3) : Place :=
  match Register.ofCode? b code with
  | some r => .register r
  | none => .memory b.pointer

def Pair.ofCode (b : Base) (code : BitVec 2) : Pair :=
  match code with
  | 0 => .bc
  | 1 => .de
  | 2 => b.pair
  | _ => .sp

/-- The pairs that the stack instructions name, with AF in the place of SP. -/
def Pair.ofStackCode (b : Base) (code : BitVec 2) : Pair :=
  match code with
  | 3 => .af
  | _ => Pair.ofCode b code

def Condition.ofCode (code : BitVec 3) : Condition :=
  match code with
  | 0 => .nz
  | 1 => .z
  | 2 => .nc
  | 3 => .c
  | 4 => .po
  | 5 => .pe
  | 6 => .p
  | _ => .m

def AccumulatorOp.ofCode (code : BitVec 3) : AccumulatorOp :=
  match code with
  | 0 => .add
  | 1 => .adc
  | 2 => .sub
  | 3 => .sbc
  | 4 => .and
  | 5 => .xor
  | 6 => .or
  | _ => .cp

def Shift.ofCode (code : BitVec 3) : Shift :=
  match code with
  | 0 => .rlc
  | 1 => .rrc
  | 2 => .rl
  | 3 => .rr
  | 4 => .sla
  | 5 => .sra
  | 6 => .sll
  | _ => .srl

/-- The time of the prefix byte, if there was one. -/
def Base.lead : Base → Nat
  | .hl => 0
  | .index _ => 4

/-- The time that memory at the base costs beyond memory at HL: prefix, displacement and its sum. -/
def Base.reach : Base → Nat
  | .hl => 0
  | .index _ => 12

namespace Base

variable (b : Base)

def transfer (t : Transfer) (cycles : Nat) : Instruction := ⟨.transfer t, cycles + b.lead⟩
def arithmetic (a : Arithmetic) (cycles : Nat) : Instruction := ⟨.arithmetic a, cycles + b.lead⟩
def jump (j : Jump) (cycles : Nat) : Instruction := ⟨.jump j, cycles + b.lead⟩
def control (c : Control) : Instruction := ⟨.control c, 4 + b.lead⟩

/-- Bytes 00 to 3F. -/
def first (v : Byte) : Instruction :=
  let y := Opcode.y v
  let p := Opcode.p v
  let q := Opcode.q v
  match Opcode.z v with
  | 0 => match y with
    | 0 => b.control .nop
    | 1 => b.transfer .exchangeAf 4
    | 2 => b.jump .countdown 8
    | 3 => b.jump (.relative none) 12
    | _ => b.jump (.relative (some (Condition.ofCode (y - 4)))) 7
  | 1 =>
    if q then b.arithmetic (.addTo b (Pair.ofCode b p)) 11
    else b.transfer (.loadPairImmediate (Pair.ofCode b p)) 10
  | 2 => match p, q with
    | 0, false => b.transfer (.storeAccumulator .bc) 7
    | 0, true => b.transfer (.loadAccumulator .bc) 7
    | 1, false => b.transfer (.storeAccumulator .de) 7
    | 1, true => b.transfer (.loadAccumulator .de) 7
    | 2, false => b.transfer (.storePair b.pair) 16
    | 2, true => b.transfer (.loadPair b.pair) 16
    | _, false => b.transfer (.storeAccumulator .absolute) 13
    | _, true => b.transfer (.loadAccumulator .absolute) 13
  | 3 => b.arithmetic (.stepPair (if q then .down else .up) (Pair.ofCode b p)) 6
  | 4 => counter .up y
  | 5 => counter .down y
  | 6 => match Register.ofCode? b y with
    | some r => b.transfer (.load (.register r) .immediate) 7
    | none => ⟨.transfer (.storeImmediate b), match b with | .hl => 10 | .index _ => 19⟩
  | _ => match y with
    | 4 => b.arithmetic .decimalAdjust 4
    | 5 => b.arithmetic .complement 4
    | 6 => b.arithmetic .setCarry 4
    | 7 => b.arithmetic .complementCarry 4
    | _ => ⟨.bit (.rotateAccumulator (Shift.ofCode y)), 4 + b.lead⟩
where
  counter (d : Direction) (y : BitVec 3) : Instruction :=
    let place := Place.ofCode b y
    ⟨.arithmetic (.step d place), if place.isMemory then 11 + b.reach else 4 + b.lead⟩

/-- Bytes 40 to 7F: loads between registers and memory. Beside a memory operand H and L keep their
meaning. -/
def second (v : Byte) : Instruction :=
  match Register.ofCode? .hl (Opcode.y v), Register.ofCode? .hl (Opcode.z v) with
  | some r, none => ⟨.transfer (.load (.register r) (.place (.memory b.pointer))), 7 + b.reach⟩
  | none, some r => ⟨.transfer (.load (.memory b.pointer) (.place (.register r))), 7 + b.reach⟩
  | none, none => b.control .halt
  | some _, some _ =>
    b.transfer (.load (Place.ofCode b (Opcode.y v)) (.place (Place.ofCode b (Opcode.z v)))) 4

/-- Bytes 80 to BF: the accumulator and a byte. -/
def third (v : Byte) : Instruction :=
  let place := Place.ofCode b (Opcode.z v)
  ⟨.arithmetic (.accumulate (AccumulatorOp.ofCode (Opcode.y v)) (.place place)),
    if place.isMemory then 7 + b.reach else 4 + b.lead⟩

/-- Bytes C0 to FF. -/
def fourth (v : Byte) : Opening :=
  let y := Opcode.y v
  let p := Opcode.p v
  match Opcode.z v with
  | 0 => .instruction (b.jump (.return (some (Condition.ofCode y))) 5)
  | 1 =>
    if Opcode.q v then
      match p with
      | 0 => .instruction (b.jump (.return none) 10)
      | 1 => .instruction (b.transfer .exchangeBanks 4)
      | 2 => .instruction (b.jump (.toBase b) 4)
      | _ => .instruction (b.transfer (.loadStackPointer b) 6)
    else .instruction (b.transfer (.pop (Pair.ofStackCode b p)) 10)
  | 2 => .instruction (b.jump (.absolute (some (Condition.ofCode y))) 10)
  | 3 => match y with
    | 0 => .instruction (b.jump (.absolute none) 10)
    | 1 => match b with
      | .hl => .lead .bits
      | .index i => .lead (.indexedBits i)
    | 2 => .instruction ⟨.transmit .writeImmediate, 11 + b.lead⟩
    | 3 => .instruction ⟨.transmit .readImmediate, 11 + b.lead⟩
    | 4 => .instruction (b.transfer (.exchangeStackTop b) 19)
    | 5 => .instruction (b.transfer .exchangeDeHl 4)
    | 6 => .instruction (b.control .disableInterrupts)
    | _ => .instruction (b.control .enableInterrupts)
  | 4 => .instruction (b.jump (.call (some (Condition.ofCode y))) 10)
  | 5 =>
    if Opcode.q v then
      match p with
      | 0 => .instruction (b.jump (.call none) 17)
      | 1 => .lead (.index .ix)
      | 2 => .lead .extended
      | _ => .lead (.index .iy)
    else .instruction (b.transfer (.push (Pair.ofStackCode b p)) 11)
  | 6 => .instruction (b.arithmetic (.accumulate (AccumulatorOp.ofCode y) .immediate) 7)
  | _ => .instruction (b.jump (.restart y) 11)

/-- What the opcode byte `v` means with this base. -/
def opening (v : Byte) : Opening :=
  match Opcode.x v with
  | 0 => .instruction (b.first v)
  | 1 => .instruction (b.second v)
  | 2 => .instruction (b.third v)
  | _ => b.fourth v

end Base

end Z80Machine
