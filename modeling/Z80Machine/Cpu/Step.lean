import Z80Machine.Cpu
import Z80Machine.Cpu.Fetch
import Z80Machine.Microcode.Operation

/-!
One step: an instruction, the response to an interrupt, or a cycle of a halted processor. `Cpu.task`
decides which, `Cpu.activity` is what the processor does on its bus, and `Cpu.step` does it.
-/
namespace Z80Machine

open Microcode

inductive Task where
  /-- An instruction, after the index prefix carried from the last step if there is one. -/
  | instruction (carried : Option Index)
  | nmi
  | interrupt
  | idle
  deriving DecidableEq, Repr

/-- What the next step does. Nothing comes between a prefix and its instruction; an NMI goes before an
interrupt, which has to be enabled, and not only by the last step. -/
def Cpu.task (c : Cpu) : Task :=
  match c.carried with
  | some i => .instruction (some i)
  | none =>
    if c.nmiPending then .nmi
    else if c.interruptPending && c.registers.iff1 && !c.eiDelay then .interrupt
    else if c.registers.halted then .idle
    else .instruction none

/-- How a step ends: with a fault, or with an index prefix to carry on if there is one. -/
abbrev Ending := Except Fault (Option Index)

namespace Cpu

variable (c : Cpu)

/-- Runs what has been fetched from address `start`. -/
def complete (start : Word) : Resolution → Microcode Ending
  | .instruction i => do
    i.operation.execute c.config c.latch
    return .ok none
  | .carry i => return .ok (some i)
  | .undefined opcode =>
    match c.config.undefined with
    | .nop => return .ok none
    | .fault => return .error (.undefinedOpcode start opcode.toList)

def runInstruction (carried : Option Index) : Microcode Ending := do
  let pc := (← Microcode.registers).pc
  let start := match carried with
    | some _ => pc - 1
    | none => pc
  c.complete start (← fetch c.config.extensions carried)

/-- The response to an NMI keeps IFF2, from which a return restores IFF1. -/
def acceptNmi : Microcode Ending := do
  update fun k => { k.refreshed with halted := false, iff1 := false }
  pause 5
  enter 0x0066
  return .ok none

/-- The first byte on the bus during an acknowledgement. -/
def vectorByte : Byte := c.interruptData.headD 0xFF

/-- The response to an interrupt: in mode 0 the device supplies an instruction, in mode 1 the routine is
at a fixed address, and else its address stands in a table. -/
def acceptInterrupt : Microcode Ending := do
  update fun k => { k with halted := false, iff1 := false, iff2 := false }
  let k ← Microcode.registers
  if k.im = 0 then
    pause 2
    modify fun s => { s with supply := some [] }
    c.complete k.pc (← fetchSupplied c.config.extensions .empty .hl c.interruptData)
  else
    update Registers.refreshed
    pause 7
    if k.im = 1 then enter 0x0038
    else
      pushWord k.pc
      goTo (← readWord (Word.ofBytes k.i c.vectorByte))
    return .ok none

/-- A halted processor reads the byte at the program counter and stays. -/
def idle : Microcode Ending := do
  update Registers.refreshed
  let _ ← receive (.opcode (← Microcode.registers).pc)
  return .ok none

def perform : Task → Microcode Ending
  | .instruction carried => c.runInstruction carried
  | .nmi => acceptNmi
  | .interrupt => c.acceptInterrupt
  | .idle => idle

/-- The processor after a step. A request ends when it is accepted. -/
def afterStep (task : Task) (ending : Ending) (s : Execution) : Cpu :=
  { c with
    registers := s.registers
    latch := s.latch
    eiDelay := s.eiDelay
    carried := match ending with
      | .ok carried => carried
      | .error _ => none
    interruptPending := c.interruptPending && task != .interrupt
    nmiPending := c.nmiPending && task != .nmi }

/-- Everything that the processor does in one step. The time of it is added by `step`. -/
def activity : Activity (Except Fault Unit × Cpu) := do
  let (ending, s) ← (c.perform c.task).run { registers := c.registers }
  return (ending.map fun _ => (), c.afterStep c.task ending s)

end Cpu

structure Step (β : Type) where
  /-- The T-states of the step, or why it failed. -/
  result : Except Fault (BitVec 32)
  cpu : Cpu
  bus : β

/-- Does one step on a bus. The time of a failed step counts as well. -/
def Cpu.step {β : Type} [Bus β] (c : Cpu) (bus : β) : Step β :=
  let o := c.activity.run bus
  { result := o.value.1.map fun _ => BitVec.ofNat 32 o.elapsed
    cpu := { o.value.2 with total := c.total.later o.elapsed }
    bus := o.bus }

end Z80Machine
