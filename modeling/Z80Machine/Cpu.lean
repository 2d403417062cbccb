import Z80Machine.Config
import Z80Machine.Registers
import Z80Machine.Operand
import Z80Machine.Ticks

/-!
The processor between two steps, and what its surroundings can ask of it.
-/
namespace Z80Machine

structure Cpu where
  registers : Registers := .powerOn
  /-- The flags as the last step has set them, all clear if it has not. -/
  latch : Flags := .clear
  /-- Set when the last step enabled interrupts, which then wait for one more step. -/
  eiDelay : Bool := false
  /-- The index prefix that ended the last step, where the instruction goes on. -/
  carried : Option Index := none
  interruptPending : Bool := false
  nmiPending : Bool := false
  /-- What a device puts on the bus when its interrupt is accepted. -/
  interruptData : List Byte := [0xFF]
  total : Ticks := .zero
  config : Config := .extended
  deriving DecidableEq, Repr

namespace Cpu

def new (config : Config) : Cpu := { config }

/-- Power-on again. The configuration and the devices' data stay. -/
def reset (c : Cpu) : Cpu := { config := c.config, interruptData := c.interruptData }

/-- Asks for an interrupt; a request that cannot be masked is an NMI. -/
def request (c : Cpu) (maskable : Bool) : Cpu :=
  if maskable then { c with interruptPending := true } else { c with nmiPending := true }

def withdraw (c : Cpu) : Cpu := { c with interruptPending := false }

end Cpu

end Z80Machine
