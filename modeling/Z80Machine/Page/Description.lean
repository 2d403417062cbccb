import Z80Machine.Page

/-!
The structured text of a slot: an operation with all its parts by name, and its time. Parts are
written as `Name`, `Name(part)` or a record of named parts.
-/
namespace Z80Machine

namespace Description

def tagged (name part : String) : String := name ++ "(" ++ part ++ ")"

def record (name : String) (parts : List (String × String)) : String :=
  name ++ " \x7b " ++ ", ".intercalate (parts.map fun (k, v) => k ++ ": " ++ v) ++ " \x7d"

def optional : Option String → String
  | none => "None"
  | some s => tagged "Some" s

end Description

open Description

def Index.description : Index → String
  | .ix => "Ix"
  | .iy => "Iy"

def Base.description : Base → String
  | .hl => "Hl"
  | .index i => i.description

def Register.description : Register → String
  | .b => "B"
  | .c => "C"
  | .d => "D"
  | .e => "E"
  | .h => "H"
  | .l => "L"
  | .a => "A"
  | .high i => i.description ++ "h"
  | .low i => i.description ++ "l"

def Pair.description : Pair → String
  | .bc => "Bc"
  | .de => "De"
  | .hl => "Hl"
  | .sp => "Sp"
  | .af => "Af"
  | .index i => i.description

def Pointer.description : Pointer → String
  | .hl => tagged "Indirect" "Hl"
  | .displaced i => tagged "Indirect" i.description
  | .latched i => tagged "Latched" i.description

def Place.description : Place → String
  | .register r => tagged "Reg" r.description
  | .memory p => tagged "Mem" p.description

def Source.description : Source → String
  | .place p => p.description
  | .immediate => "Imm"

def Condition.description : Condition → String
  | .nz => "Nz"
  | .z => "Z"
  | .nc => "Nc"
  | .c => "C"
  | .po => "Po"
  | .pe => "Pe"
  | .p => "P"
  | .m => "M"

def AccumulatorOp.description : AccumulatorOp → String
  | .add => "Add"
  | .adc => "Adc"
  | .sub => "Sub"
  | .sbc => "Sbc"
  | .and => "And"
  | .xor => "Xor"
  | .or => "Or"
  | .cp => "Cp"

def Shift.description : Shift → String
  | .rlc => "Rlc"
  | .rrc => "Rrc"
  | .rl => "Rl"
  | .rr => "Rr"
  | .sla => "Sla"
  | .sra => "Sra"
  | .sll => "Sll"
  | .srl => "Srl"

def BarrelShift.description : BarrelShift → String
  | .left => "ShiftLeft"
  | .rightArithmetic => "ShiftRightArithmetic"
  | .rightLogical => "ShiftRightLogical"
  | .rightFill => "ShiftRightFill"
  | .rotateLeft => "RotateLeft"

/-- A load between the accumulator and memory reached through BC or DE is described like any other byte
load. -/
def Transfer.description : Transfer → String
  | .load dst src => record "Ld8" [("dst", dst.description), ("src", src.description)]
  | .storeImmediate b => tagged "LdMemImm" b.pointer.description
  | .loadAccumulator .absolute => "LdAAbs"
  | .loadAccumulator .bc => fromPair "Bc"
  | .loadAccumulator .de => fromPair "De"
  | .storeAccumulator .absolute => "LdAbsA"
  | .storeAccumulator .bc => toPair "Bc"
  | .storeAccumulator .de => toPair "De"
  | .loadPairImmediate p => tagged "Ld16Imm" p.description
  | .loadPair p => tagged "Ld16Load" p.description
  | .storePair p => tagged "Ld16Store" p.description
  | .loadStackPointer b => tagged "LdSpHl" b.description
  | .loadFromI => "LdAI"
  | .loadFromR => "LdAR"
  | .loadToI => "LdIA"
  | .loadToR => "LdRA"
  | .push p => tagged "Push" p.description
  | .pop p => tagged "Pop" p.description
  | .exchangeDeHl => "ExDeHl"
  | .exchangeAf => "ExAf"
  | .exchangeBanks => "Exx"
  | .exchangeStackTop b => tagged "ExSpHl" b.description
where
  fromPair (p : String) := record "Ld8" [("dst", tagged "Reg" "A"), ("src", tagged "Mem" p)]
  toPair (p : String) := record "Ld8" [("dst", tagged "Mem" p), ("src", tagged "Reg" "A")]

def Arithmetic.description : Arithmetic → String
  | .accumulate op src => record "Alu" [("op", op.description), ("src", src.description)]
  | .step .up p => tagged "Inc8" p.description
  | .step .down p => tagged "Dec8" p.description
  | .stepPair .up p => tagged "Inc16" p.description
  | .stepPair .down p => tagged "Dec16" p.description
  | .addTo dst src => record "Add16" [("dst", dst.description), ("src", src.description)]
  | .addCarry src => tagged "Adc16" src.description
  | .subtractCarry src => tagged "Sbc16" src.description
  | .decimalAdjust => "Daa"
  | .complement => "Cpl"
  | .negate => "Neg"
  | .setCarry => "Scf"
  | .complementCarry => "Ccf"

def BitOperation.description : BitOperation → String
  | .rotateAccumulator op => tagged "RotateA" op.description
  | .shift op p copy => record "Shift" (("op", op.description) :: written p copy)
  | .test n p => record "Bit" [("n", toString n.toNat), ("src", p.description)]
  | .reset n p copy => record "Res" (("n", toString n.toNat) :: written p copy)
  | .set n p copy => record "Set" (("n", toString n.toNat) :: written p copy)
  | .rotateDigitsRight => "Rrd"
  | .rotateDigitsLeft => "Rld"
where
  written (p : Place) (copy : Option Register) : List (String × String) :=
    [("target", p.description), ("copy", optional (copy.map Register.description))]

def Jump.description : Jump → String
  | .absolute k => tagged "Jp" (condition k)
  | .toBase b => tagged "JpInd" b.description
  | .relative k => tagged "Jr" (condition k)
  | .countdown => "Djnz"
  | .call k => tagged "Call" (condition k)
  | .return k => tagged "Ret" (condition k)
  | .returnInterrupt => "Reti"
  | .returnNmi => "Retn"
  | .restart n => tagged "Rst" (toString (8 * n.toNat))
where
  condition (k : Option Condition) : String := optional (k.map Condition.description)

def Control.description : Control → String
  | .nop => "Nop"
  | .halt => "Halt"
  | .disableInterrupts => "Di"
  | .enableInterrupts => "Ei"
  | .interruptMode mode => tagged "Im" (toString mode.val)

def Transmission.description : Transmission → String
  | .readImmediate => "InAImm"
  | .writeImmediate => "OutImmA"
  | .read r => tagged "InC" (optional (r.map Register.description))
  | .write r => tagged "OutC" (optional (r.map Register.description))

def BlockKind.description : BlockKind → String
  | .load => "Ld"
  | .compare => "Cp"
  | .input => "In"
  | .output => "Out"

def Direction.description : Direction → String
  | .up => "Inc"
  | .down => "Dec"

def Block.description (b : Block) : String :=
  record "Block"
    [("kind", b.kind.description), ("dir", b.direction.description),
      ("repeat", if b.repeating then "true" else "false")]

def Extension.description : Extension → String
  | .swapDigits => "SwapNib"
  | .reverseBits => "Mirror"
  | .test => "Test"
  | .barrel op => tagged "Barrel" op.description
  | .multiply => "Mul"
  | .addAccumulator p => tagged "AddA" p.description
  | .addImmediate p => tagged "AddImm" p.description
  | .pushImmediate => "PushImm"
  | .outputNext => "OutInb"
  | .setRegisterImmediate => "NextRegImm"
  | .setRegister => "NextRegA"
  | .pixelBelow => "PixelDn"
  | .pixelAddress => "PixelAd"
  | .pixelMask => "SetAe"
  | .jumpInput => "JpC"
  | .copy .up false => "Ldix"
  | .copy .down false => "Lddx"
  | .copy .up true => "Ldirx"
  | .copy .down true => "Lddrx"
  | .copyPattern => "Ldpirx"
  | .copyColumn => "Ldws"

def Operation.description : Operation → String
  | .transfer t => t.description
  | .arithmetic a => a.description
  | .bit b => b.description
  | .jump j => j.description
  | .control c => c.description
  | .transmit t => t.description
  | .block b => tagged "Block" b.description
  | .extension e => tagged "Next" e.description

def Instruction.description (i : Instruction) : String :=
  record "Instr" [("op", i.operation.description), ("cycles", toString i.cycles)]

def Lead.description : Lead → String
  | .bits => "Cb"
  | .extended => "Ed"
  | .index i => tagged "Index" i.description
  | .indexedBits i => tagged "IndexCb" i.description

def Slot.description : Slot → String
  | .instruction i => tagged "Instr" i.description
  | .lead l => tagged "Prefix" l.description
  | .undefined => "Unimplemented"

end Z80Machine
