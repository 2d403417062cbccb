import Z80Machine.Word

/-!
What a processor is built with.
-/
namespace Z80Machine

/-- What an undefined extended opcode does: it fails, or it passes like a NOP of eight T-states. -/
inductive UndefinedPolicy where
  | fault
  | nop
  deriving DecidableEq, Repr

structure Config where
  /-- Whether the extensions are there; without them their opcodes are undefined. -/
  extensions : Bool
  undefined : UndefinedPolicy
  /-- The port that receives the number of a machine register. -/
  selectPort : Word
  /-- The port that receives the value of that register. -/
  dataPort : Word
  deriving DecidableEq, Repr

namespace Config

/-- The processor with its extensions. -/
def extended : Config := ⟨true, .fault, 0x243B, 0x253B⟩

/-- The processor without extensions. -/
def plain : Config := { extended with extensions := false }

end Config

end Z80Machine
