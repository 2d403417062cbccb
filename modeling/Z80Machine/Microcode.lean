import Z80Machine.Activity
import Z80Machine.Operand

/-!
The steps from which instructions are made: registers are read and changed at once, bytes come and
go in bus cycles. While a device supplies the instruction, its bytes are taken from the supply and
the program counter stands still.
-/
namespace Z80Machine

/-- The processor in the middle of a step. -/
structure Execution where
  registers : Registers
  /-- The flags as this step has set them, all clear while it has not. -/
  latch : Flags := .clear
  /-- Set when this step enables interrupts. -/
  eiDelay : Bool := false
  /-- The bytes that a device still supplies, when the instruction comes from a device. -/
  supply : Option (List Byte) := none
  deriving DecidableEq, Repr

abbrev Microcode := StateT Execution Activity

namespace Microcode

def registers : Microcode Registers := return (← get).registers

def update (f : Registers → Registers) : Microcode Unit :=
  modify fun s => { s with registers := f s.registers }

/-- Sets the flags and remembers that this step has set them. -/
def setFlags (f : Flags) : Microcode Unit :=
  modify fun s => { s with registers := { s.registers with f := f }, latch := f }

def receive (c : Receive) : Microcode Byte :=
  fun s => .receive c fun v => .done (v, s)

def send (c : Send) : Microcode Unit := fun s => .send c (.done ((), s))

def wait (c : Pause) : Microcode Unit := fun s => .pause c (.done ((), s))

def pause (n : Nat) : Microcode Unit := wait (.internal n)

/-- The next supplied byte; past its end a supply reads as all ones. -/
def supplied : List Byte → Byte × List Byte
  | [] => (0xFF, [])
  | v :: vs => (v, vs)

/-- Takes the opcode byte `v` from a supply. -/
def takeOpcode (v : Byte) : Microcode Unit := do
  update Registers.refreshed
  wait (.opcode v)

/-- The next opcode byte; each one moves the refresh counter. -/
def opcode : Microcode Byte := do
  let s ← get
  match s.supply with
  | some bytes =>
    let (v, rest) := supplied bytes
    set { s with supply := some rest }
    takeOpcode v
    return v
  | none =>
    update fun k => { k.refreshed with pc := k.pc + 1 }
    receive (.opcode s.registers.pc)

/-- The next byte after the opcode. -/
def operand : Microcode Byte := do
  let s ← get
  match s.supply with
  | some bytes =>
    let (v, rest) := supplied bytes
    set { s with supply := some rest }
    wait (.operand v)
    return v
  | none =>
    update fun k => { k with pc := k.pc + 1 }
    receive (.operand s.registers.pc)

/-- The next word after the opcode, low byte first. -/
def operandWord : Microcode Word := do
  let low ← operand
  let high ← operand
  return Word.ofBytes high low

def readByte (a : Word) : Microcode Byte := receive (.memory a)

def writeByte (a : Word) (v : Byte) : Microcode Unit := send (.memory a v)

def readWord (a : Word) : Microcode Word := do
  let low ← readByte a
  let high ← readByte (a + 1)
  return Word.ofBytes high low

def writeWord (a w : Word) : Microcode Unit := do
  writeByte a w.low
  writeByte (a + 1) w.high

def inputByte (p : Word) : Microcode Byte := receive (.port p)

def outputByte (p : Word) (v : Byte) : Microcode Unit := send (.port p v)

/-- The stack grows downwards, high byte first. -/
def pushWord (w : Word) : Microcode Unit := do
  let sp := (← registers).sp
  update fun k => { k with sp := sp - 2 }
  writeByte (sp - 1) w.high
  writeByte (sp - 2) w.low

def popWord : Microcode Word := do
  let sp := (← registers).sp
  update fun k => { k with sp := sp + 2 }
  readWord sp

def latchAddress (a : Word) : Microcode Unit := update fun k => { k with wz := a }

/-- Goes to an address, which WZ keeps. -/
def goTo (a : Word) : Microcode Unit := update fun k => { k with pc := a, wz := a }

end Microcode

open Microcode

/-- A place whose address is settled. -/
inductive Location where
  | register (r : Register)
  | memory (a : Word)
  deriving DecidableEq, Repr

def Location.read : Location → Microcode Byte
  | .register r => return (← registers).get r
  | .memory a => readByte a

def Location.write (l : Location) (v : Byte) : Microcode Unit :=
  match l with
  | .register r => update (·.set r v)
  | .memory a => writeByte a v

/-- A displaced pointer takes its displacement from after the opcode and leaves the sum in WZ. -/
def Pointer.address : Pointer → Microcode Word
  | .hl => return (← registers).hl
  | .displaced i => do
    let d ← operand
    pause 5
    let a := ((← registers).index i).displace d
    latchAddress a
    return a
  | .latched _ => return (← registers).wz

def Place.locate : Place → Microcode Location
  | .register r => return .register r
  | .memory p => return .memory (← p.address)

def Source.read : Source → Microcode Byte
  | .place p => do (← p.locate).read
  | .immediate => operand

/-- Replaces the byte at a place; in memory one T-state lies between reading and writing. The register
`copy` also receives the new byte. -/
def Place.modify (p : Place) (copy : Option Register) (f : Byte → Microcode Byte) : Microcode Unit := do
  let l ← p.locate
  let v ← l.read
  if p.isMemory then pause 1
  let v ← f v
  l.write v
  match copy with
  | none => return
  | some r => update (·.set r v)

end Z80Machine
