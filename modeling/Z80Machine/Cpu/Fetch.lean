import Z80Machine.Fault
import Z80Machine.Microcode
import Z80Machine.Page
import Z80Machine.Window

/-!
From bytes to an instruction. An index prefix may stand before any opcode; a second one ends the step
and is carried into the next, so that a run of prefixes never keeps interrupts waiting. Among bytes
that a device supplies the run goes on until its end.
-/
namespace Z80Machine

open Microcode

def Index.prefixByte : Index → Byte
  | .ix => 0xDD
  | .iy => 0xFD

/-- What the bytes fetched so far amount to. -/
inductive Resolution where
  | instruction (i : Instruction)
  /-- A further index prefix: the instruction goes on in the next step. -/
  | carry (i : Index)
  | undefined (opcode : Window)
  deriving DecidableEq, Repr

/-- The slot of the extended page, in a machine with or without extensions. -/
def extendedSlot (extensions : Bool) (v : Byte) : Option Instruction :=
  (extendedPage v).filter fun i => extensions || !i.operation.isExtension

/-- Follows an opening to its instruction. With an index prefix the bits page has the displacement before
the operation byte, which is an operand here and not an opcode. -/
def Opening.resolve (extensions : Bool) (seen : Window) : Opening → Microcode Resolution
  | .instruction i => return .instruction i
  | .lead .bits => return .instruction (bitsPage (← opcode))
  | .lead .extended => do
    let v ← opcode
    match extendedSlot extensions v with
    | some i => return .instruction i
    | none => return .undefined (seen.push v)
  | .lead (.index i) => return .carry i
  | .lead (.indexedBits i) => do
    let d ← operand
    latchAddress (((← registers).index i).displace d)
    let v ← operand
    pause 2
    return .instruction (indexedBitsPage i v)

/-- Goes on after the index prefix `i`. -/
def fetchIndexed (extensions : Bool) (seen : Window) (i : Index) : Microcode Resolution := do
  let v ← opcode
  (Base.opening (.index i) v).resolve extensions (seen.push v)

/-- Fetches an instruction from memory, after the prefix carried from the last step if there is one. -/
def fetch (extensions : Bool) : Option Index → Microcode Resolution
  | some i => fetchIndexed extensions (Window.empty.push i.prefixByte) i
  | none => do
    let v ← opcode
    match Base.opening .hl v with
    | .lead (.index i) => fetchIndexed extensions (Window.empty.push v) i
    | o => o.resolve extensions (Window.empty.push v)

/-- Takes an instruction from the bytes that a device supplies; each index prefix replaces the one before
it. Past the end all bytes are FF, which is no prefix. -/
def fetchSupplied (extensions : Bool) (seen : Window) (b : Base) : List Byte → Microcode Resolution
  | [] => do
    takeOpcode 0xFF
    (b.opening 0xFF).resolve extensions (seen.push 0xFF)
  | v :: rest => do
    takeOpcode v
    match b.opening v with
    | .lead (.index i) => fetchSupplied extensions (seen.push v) (.index i) rest
    | o => do
      modify fun s => { s with supply := some rest }
      o.resolve extensions (seen.push v)

end Z80Machine
