import Z80Machine.Cpu.Step

/-!
A machine is a processor with its bus. Its course is made of deeds: steps, and what the surroundings do to the
processor between them. A course may be of any length, so it is a sequence without end, and `stage` is the machine
before a deed of it.
-/
namespace Z80Machine

structure Machine (β : Type) where
  cpu : Cpu
  bus : β

/-- What can happen to a machine. -/
inductive Deed where
  | step
  /-- A device asks for an interrupt; a request that cannot be masked is an NMI. -/
  | request (maskable : Bool)
  /-- The maskable request is taken back. -/
  | withdraw
  /-- A device gets ready what it will put on the bus when its interrupt is accepted. -/
  | supply (data : List Byte)
  | reset
  /-- Registers are written from outside. -/
  | write (f : Registers → Registers)

namespace Machine

variable {β : Type} [Bus β]

def after (m : Machine β) : Deed → Machine β
  | .step => { cpu := (m.cpu.step m.bus).cpu, bus := (m.cpu.step m.bus).bus }
  | .request maskable => { m with cpu := m.cpu.request maskable }
  | .withdraw => { m with cpu := m.cpu.withdraw }
  | .supply data => { m with cpu := { m.cpu with interruptData := data } }
  | .reset => { m with cpu := m.cpu.reset }
  | .write f => { m with cpu := { m.cpu with registers := f m.cpu.registers } }

/-- The machine before deed `n` of a course. -/
def stage (m : Machine β) (deeds : Nat → Deed) : Nat → Machine β
  | 0 => m
  | n + 1 => (m.stage deeds n).after (deeds n)

theorem stage_succ (m : Machine β) (deeds : Nat → Deed) (n : Nat) :
    m.stage deeds (n + 1) = (m.stage deeds n).after (deeds n) := rfl

end Machine

end Z80Machine
