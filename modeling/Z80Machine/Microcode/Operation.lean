import Z80Machine.Microcode.Arithmetic
import Z80Machine.Microcode.Bit
import Z80Machine.Microcode.Jump
import Z80Machine.Microcode.Transmission
import Z80Machine.Microcode.Block
import Z80Machine.Microcode.Extension

/-!
The microcode of every operation.
-/
namespace Z80Machine

/-- Runs an operation after its opcode bytes. `previous` holds the flags as the step before left them
latched. -/
def Operation.execute (config : Config) (previous : Flags) : Operation → Microcode Unit
  | .transfer t => t.execute
  | .arithmetic a => a.execute previous
  | .bit b => b.execute
  | .jump j => j.execute
  | .control c => c.execute
  | .transmit t => t.execute
  | .block b => b.execute
  | .extension e => e.execute config

end Z80Machine
