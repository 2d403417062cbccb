import Z80Machine.Bus
import Z80Machine.Bus.Memory

/-!
The plain bus: 64 KiB of memory, a byte for every port, a clock, and a log of accesses that can be
switched on. Writes to a port are seen only in the log.
-/
namespace Z80Machine

structure FlatBus where
  memory : Memory := .zero
  /-- What a read of each port gives; an unconnected port reads as all ones. -/
  ports : Word → Byte := fun _ => 0xFF
  clock : Nat := 0
  log? : Option (Array Event) := none

namespace FlatBus

/-- The accesses so far, none while the log is off. -/
def log (b : FlatBus) : Array Event := b.log?.getD #[]

/-- Starts the log; one that runs already goes on. -/
def withLog (b : FlatBus) : FlatBus := { b with log? := some b.log }

def withoutEvents (b : FlatBus) : FlatBus := { b with log? := b.log?.map fun _ => #[] }

def setPort (b : FlatBus) (p : Word) (v : Byte) : FlatBus :=
  { b with ports := fun q => if q = p then v else b.ports q }

def poke (b : FlatBus) (a : Word) (v : Byte) : FlatBus := { b with memory := b.memory.set a v }

def load (b : FlatBus) (a : Word) (vs : List Byte) : FlatBus := { b with memory := b.memory.load a vs }

def peek (b : FlatBus) (a : Word) : Byte := b.memory.get a

def record (b : FlatBus) (access : Access) (address : Word) (value : Byte) : FlatBus :=
  { b with log? := b.log?.map (·.push ⟨b.clock, access, address, value⟩) }

instance : Bus FlatBus where
  read b a := (b.peek a, b.record .memoryRead a (b.peek a))
  write b a v := (b.poke a v).record .memoryWrite a v
  input b p := (b.ports p, b.record .portRead p (b.ports p))
  output b p v := b.record .portWrite p v
  tick b n := { b with clock := b.clock + n }

theorem peek_poke (b : FlatBus) (a q : Word) (v : Byte) :
    (b.poke a v).peek q = if q = a then v else b.peek q := b.memory.get_set a q v

theorem ports_setPort (b : FlatBus) (p q : Word) (v : Byte) :
    (b.setPort p v).ports q = if q = p then v else b.ports q := rfl

@[simp] theorem peek_record (b : FlatBus) (k : Access) (a q : Word) (v : Byte) :
    (b.record k a v).peek q = b.peek q := rfl

@[simp] theorem clock_record (b : FlatBus) (k : Access) (a : Word) (v : Byte) :
    (b.record k a v).clock = b.clock := rfl

@[simp] theorem log_withLog (b : FlatBus) : b.withLog.log = b.log := rfl

@[simp] theorem log_withoutEvents (b : FlatBus) : b.withoutEvents.log = #[] := by
  cases h : b.log? <;> simp [withoutEvents, log, h]

/-- Recording adds one event at the end of a log that runs. -/
theorem log_record {b : FlatBus} (h : b.log?.isSome) (k : Access) (a : Word) (v : Byte) :
    (b.record k a v).log = b.log.push ⟨b.clock, k, a, v⟩ := by
  obtain ⟨events, he⟩ := Option.isSome_iff_exists.1 h
  simp [record, log, he]

end FlatBus

end Z80Machine
