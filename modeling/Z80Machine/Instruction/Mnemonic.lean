import Z80Machine.Instruction
import Z80Machine.Text.Hex

/-!
The assembler text of an instruction, with `n`, `nn`, `d` and `e` for the byte, word, displacement and
jump offset that follow the opcode.
-/
namespace Z80Machine

def Index.mnemonic : Index → String
  | .ix => "IX"
  | .iy => "IY"

def Base.mnemonic : Base → String
  | .hl => "HL"
  | .index i => i.mnemonic

def Register.mnemonic : Register → String
  | .b => "B"
  | .c => "C"
  | .d => "D"
  | .e => "E"
  | .h => "H"
  | .l => "L"
  | .a => "A"
  | .high i => i.mnemonic ++ "H"
  | .low i => i.mnemonic ++ "L"

def Pair.mnemonic : Pair → String
  | .bc => "BC"
  | .de => "DE"
  | .hl => "HL"
  | .sp => "SP"
  | .af => "AF"
  | .index i => i.mnemonic

def Pointer.mnemonic : Pointer → String
  | .hl => "(HL)"
  | .displaced i | .latched i => "(" ++ i.mnemonic ++ "+d)"

def Place.mnemonic : Place → String
  | .register r => r.mnemonic
  | .memory p => p.mnemonic

def Source.mnemonic : Source → String
  | .place p => p.mnemonic
  | .immediate => "n"

def Reach.mnemonic : Reach → String
  | .bc => "(BC)"
  | .de => "(DE)"
  | .absolute => "(nn)"

def Condition.mnemonic : Condition → String
  | .nz => "NZ"
  | .z => "Z"
  | .nc => "NC"
  | .c => "C"
  | .po => "PO"
  | .pe => "PE"
  | .p => "P"
  | .m => "M"

/-- The condition in front of a jump target, with its comma. -/
def Condition.lead : Option Condition → String
  | none => ""
  | some k => k.mnemonic ++ ","

/-- The operation up to its operand; some name the accumulator. -/
def AccumulatorOp.mnemonic : AccumulatorOp → String
  | .add => "ADD A,"
  | .adc => "ADC A,"
  | .sub => "SUB "
  | .sbc => "SBC A,"
  | .and => "AND "
  | .xor => "XOR "
  | .or => "OR "
  | .cp => "CP "

def Shift.mnemonic : Shift → String
  | .rlc => "RLC"
  | .rrc => "RRC"
  | .rl => "RL"
  | .rr => "RR"
  | .sla => "SLA"
  | .sra => "SRA"
  | .sll => "SLL"
  | .srl => "SRL"

def Transfer.mnemonic : Transfer → String
  | .load dst src => "LD " ++ dst.mnemonic ++ "," ++ src.mnemonic
  | .storeImmediate b => "LD " ++ b.pointer.mnemonic ++ ",n"
  | .loadAccumulator r => "LD A," ++ r.mnemonic
  | .storeAccumulator r => "LD " ++ r.mnemonic ++ ",A"
  | .loadPairImmediate p => "LD " ++ p.mnemonic ++ ",nn"
  | .loadPair p => "LD " ++ p.mnemonic ++ ",(nn)"
  | .storePair p => "LD (nn)," ++ p.mnemonic
  | .loadStackPointer b => "LD SP," ++ b.mnemonic
  | .loadFromI => "LD A,I"
  | .loadFromR => "LD A,R"
  | .loadToI => "LD I,A"
  | .loadToR => "LD R,A"
  | .push p => "PUSH " ++ p.mnemonic
  | .pop p => "POP " ++ p.mnemonic
  | .exchangeDeHl => "EX DE,HL"
  | .exchangeAf => "EX AF,AF'"
  | .exchangeBanks => "EXX"
  | .exchangeStackTop b => "EX (SP)," ++ b.mnemonic

def Direction.mnemonic : Direction → String
  | .up => "INC"
  | .down => "DEC"

def Arithmetic.mnemonic : Arithmetic → String
  | .accumulate op src => op.mnemonic ++ src.mnemonic
  | .step d p => d.mnemonic ++ " " ++ p.mnemonic
  | .stepPair d p => d.mnemonic ++ " " ++ p.mnemonic
  | .addTo dst src => "ADD " ++ dst.mnemonic ++ "," ++ src.mnemonic
  | .addCarry src => "ADC HL," ++ src.mnemonic
  | .subtractCarry src => "SBC HL," ++ src.mnemonic
  | .decimalAdjust => "DAA"
  | .complement => "CPL"
  | .negate => "NEG"
  | .setCarry => "SCF"
  | .complementCarry => "CCF"

/-- The place of a bit operation and the register that receives the copy. -/
def Place.mnemonicCopied (p : Place) : Option Register → String
  | none => p.mnemonic
  | some r => p.mnemonic ++ "," ++ r.mnemonic

def BitOperation.mnemonic : BitOperation → String
  | .rotateAccumulator op => op.mnemonic ++ "A"
  | .shift op p copy => op.mnemonic ++ " " ++ p.mnemonicCopied copy
  | .test n p => "BIT " ++ toString n.toNat ++ "," ++ p.mnemonic
  | .reset n p copy => "RES " ++ toString n.toNat ++ "," ++ p.mnemonicCopied copy
  | .set n p copy => "SET " ++ toString n.toNat ++ "," ++ p.mnemonicCopied copy
  | .rotateDigitsRight => "RRD"
  | .rotateDigitsLeft => "RLD"

def Jump.mnemonic : Jump → String
  | .absolute k => "JP " ++ Condition.lead k ++ "nn"
  | .toBase b => "JP (" ++ b.mnemonic ++ ")"
  | .relative k => "JR " ++ Condition.lead k ++ "e"
  | .countdown => "DJNZ e"
  | .call k => "CALL " ++ Condition.lead k ++ "nn"
  | .return none => "RET"
  | .return (some k) => "RET " ++ k.mnemonic
  | .returnInterrupt => "RETI"
  | .returnNmi => "RETN"
  | .restart n => "RST " ++ Hex.capital (restartAddress n) ++ "h"

def Control.mnemonic : Control → String
  | .nop => "NOP"
  | .halt => "HALT"
  | .disableInterrupts => "DI"
  | .enableInterrupts => "EI"
  | .interruptMode mode => "IM " ++ toString mode.val

def Transmission.mnemonic : Transmission → String
  | .readImmediate => "IN A,(n)"
  | .writeImmediate => "OUT (n),A"
  | .read (some r) => "IN " ++ r.mnemonic ++ ",(C)"
  | .read none => "IN (C)"
  | .write (some r) => "OUT (C)," ++ r.mnemonic
  | .write none => "OUT (C),0"

def Block.mnemonic (b : Block) : String :=
  match b.kind, b.repeating with
  | .load, _ => "LD" ++ direction ++ again
  | .compare, _ => "CP" ++ direction ++ again
  | .input, _ => "IN" ++ direction ++ again
  | .output, false => "OUT" ++ direction
  | .output, true => "OT" ++ direction ++ again
where
  direction := match b.direction with
    | .up => "I"
    | .down => "D"
  again := if b.repeating then "R" else ""

def BarrelShift.mnemonic : BarrelShift → String
  | .left => "BSLA DE,B"
  | .rightArithmetic => "BSRA DE,B"
  | .rightLogical => "BSRL DE,B"
  | .rightFill => "BSRF DE,B"
  | .rotateLeft => "BRLC DE,B"

def Extension.mnemonic : Extension → String
  | .swapDigits => "SWAPNIB"
  | .reverseBits => "MIRROR A"
  | .test => "TEST n"
  | .barrel op => op.mnemonic
  | .multiply => "MUL D,E"
  | .addAccumulator p => "ADD " ++ p.mnemonic ++ ",A"
  | .addImmediate p => "ADD " ++ p.mnemonic ++ ",nn"
  | .pushImmediate => "PUSH nn"
  | .outputNext => "OUTINB"
  | .setRegisterImmediate => "NEXTREG n,n"
  | .setRegister => "NEXTREG n,A"
  | .pixelBelow => "PIXELDN"
  | .pixelAddress => "PIXELAD"
  | .pixelMask => "SETAE"
  | .jumpInput => "JP (C)"
  | .copy .up false => "LDIX"
  | .copy .down false => "LDDX"
  | .copy .up true => "LDIRX"
  | .copy .down true => "LDDRX"
  | .copyPattern => "LDPIRX"
  | .copyColumn => "LDWS"

def Operation.mnemonic : Operation → String
  | .transfer t => t.mnemonic
  | .arithmetic a => a.mnemonic
  | .bit b => b.mnemonic
  | .jump j => j.mnemonic
  | .control c => c.mnemonic
  | .transmit t => t.mnemonic
  | .block b => b.mnemonic
  | .extension e => e.mnemonic

def Instruction.mnemonic (i : Instruction) : String := i.operation.mnemonic

end Z80Machine
