import Z80Machine.Word

/-!
What the processor is connected to. A bus answers reads of memory and of ports, takes writes, and is
told of every T-state that passes; a bus that does not follow time keeps the `tick` given here.
-/
namespace Z80Machine

class Bus (β : Type) where
  read : β → Word → Byte × β
  write : β → Word → Byte → β
  input : β → Word → Byte × β
  output : β → Word → Byte → β
  /-- So many T-states pass. -/
  tick : β → Nat → β := fun b _ => b

inductive Access where
  | memoryRead
  | memoryWrite
  | portRead
  | portWrite
  deriving DecidableEq, Repr

/-- An access, with the clock at its start. -/
structure Event where
  time : Nat
  access : Access
  address : Word
  value : Byte
  deriving DecidableEq, Repr

end Z80Machine
