import Z80Machine.Bus.Flat

/-!
Two buses around the plain one: `Untimed` ignores the passing of time, and `Journal` writes down the
accesses and the ticks in the order in which they come.
-/
namespace Z80Machine

/-- A plain bus whose clock stands still. -/
structure Untimed where
  bus : FlatBus

instance : Bus Untimed where
  read b a := let (v, bus) := Bus.read b.bus a; (v, ⟨bus⟩)
  write b a v := ⟨Bus.write b.bus a v⟩
  input b p := let (v, bus) := Bus.input b.bus p; (v, ⟨bus⟩)
  output b p v := ⟨Bus.output b.bus p v⟩

inductive Entry where
  | access (e : Event)
  | tick (n : Nat)
  deriving DecidableEq, Repr

structure Journal where
  bus : FlatBus
  entries : Array Entry := #[]

namespace Journal

def note (j : Journal) (access : Access) (address : Word) (value : Byte) : Journal :=
  { j with entries := j.entries.push (.access ⟨j.bus.clock, access, address, value⟩) }

instance : Bus Journal where
  read j a :=
    let (v, bus) := Bus.read j.bus a
    (v, { (j.note .memoryRead a v) with bus })
  write j a v := { (j.note .memoryWrite a v) with bus := Bus.write j.bus a v }
  input j p :=
    let (v, bus) := Bus.input j.bus p
    (v, { (j.note .portRead p v) with bus })
  output j p v := { (j.note .portWrite p v) with bus := Bus.output j.bus p v }
  tick j n := { bus := Bus.tick j.bus n, entries := j.entries.push (.tick n) }

end Journal

end Z80Machine
