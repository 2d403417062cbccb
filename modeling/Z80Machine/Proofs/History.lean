import Z80Machine.Activity
import Z80Machine.Bus.Flat

/-!
What happened on the bus. The history of a run lists its cycles in order, with the bytes that came in. Elapsed
time, memory, clock and log after a run on the plain bus are read off its history, and the history itself depends
on the memory and the ports alone.
-/
namespace Z80Machine

/-- A cycle that has taken place. -/
inductive Cycle where
  | received (c : Receive) (value : Byte)
  | sent (c : Send)
  | paused (c : Pause)
  deriving DecidableEq, Repr

/-- Whether the cycle brings in a byte of an instruction. -/
def Receive.isCode : Receive → Bool
  | .opcode _ | .operand _ => true
  | .memory _ | .port _ => false

namespace Cycle

def time : Cycle → Nat
  | .received c _ => c.time
  | .sent c => c.time
  | .paused c => c.time

def isCode : Cycle → Bool
  | .received c _ => c.isCode
  | .sent _ | .paused _ => false

/-- The access that a cycle makes: its kind, its address and the byte. -/
def access? : Cycle → Option (Access × Word × Byte)
  | .received (.opcode a) v | .received (.operand a) v | .received (.memory a) v => some (.memoryRead, a, v)
  | .received (.port p) v => some (.portRead, p, v)
  | .sent (.memory a v) => some (.memoryWrite, a, v)
  | .sent (.port p v) | .sent (.register p v) => some (.portWrite, p, v)
  | .paused _ => none

def store (m : Memory) : Cycle → Memory
  | .sent (.memory a v) => m.set a v
  | _ => m

/-- The time of cycles one after the other. -/
def duration : List Cycle → Nat
  | [] => 0
  | c :: cs => c.time + duration cs

theorem duration_append (cs ds : List Cycle) : duration (cs ++ ds) = duration cs + duration ds := by
  induction cs with
  | nil => exact (Nat.zero_add _).symm
  | cons c cs ih => simp only [List.cons_append, duration, ih, Nat.add_assoc]

/-- What a log keeps of a cycle that starts at `clock`. -/
def events (clock : Nat) (c : Cycle) : List Event :=
  (c.access?.map fun (k, a, v) => ⟨clock, k, a, v⟩).toList

/-- What a log keeps of cycles of which the first starts at `clock`. -/
def logged (clock : Nat) : List Cycle → List Event
  | [] => []
  | c :: cs => c.events clock ++ logged (clock + c.time) cs

theorem map_logged (clock : Nat) (cs : List Cycle) :
    (logged clock cs).map (fun e => (e.access, e.address, e.value)) = cs.filterMap access? := by
  induction cs generalizing clock with
  | nil => rfl
  | cons c cs ih => cases h : c.access? <;> simp [logged, events, h, ih]

end Cycle

/-- The accesses of a list of cycles, bytes of instructions left out. -/
def dataAccesses (cs : List Cycle) : List (Access × Word × Byte) :=
  (cs.filter fun c => !c.isCode).filterMap Cycle.access?

@[simp] theorem dataAccesses_nil : dataAccesses [] = [] := rfl

@[simp] theorem dataAccesses_append (cs ds : List Cycle) :
    dataAccesses (cs ++ ds) = dataAccesses cs ++ dataAccesses ds := by
  simp [dataAccesses]

namespace Activity

variable {α β γ : Type} [Bus β]

/-- The cycles of a run on a bus, in order. -/
def history : Activity α → β → List Cycle
  | .done _, _ => []
  | .receive c next, bus =>
    let (v, bus) := c.perform bus
    .received c v :: (next v).history (Bus.tick bus c.time)
  | .send c next, bus => .sent c :: next.history (Bus.tick (c.perform bus) c.time)
  | .pause c next, bus => .paused c :: next.history (Bus.tick bus c.time)

@[simp] theorem history_done (a : α) (bus : β) : (done a).history bus = [] := rfl

@[simp] theorem history_receive (c : Receive) (next : Byte → Activity α) (bus : β) :
    (receive c next).history bus =
      .received c (c.perform bus).1 :: (next (c.perform bus).1).history (Bus.tick (c.perform bus).2 c.time) := rfl

@[simp] theorem history_send (c : Send) (next : Activity α) (bus : β) :
    (send c next).history bus = .sent c :: next.history (Bus.tick (c.perform bus) c.time) := rfl

@[simp] theorem history_pause (c : Pause) (next : Activity α) (bus : β) :
    (pause c next).history bus = .paused c :: next.history (Bus.tick bus c.time) := rfl

theorem history_bind (m : Activity α) (f : α → Activity γ) (bus : β) :
    (m.bind f).history bus = m.history bus ++ (f (m.run bus).value).history (m.run bus).bus := by
  induction m generalizing bus with
  | done a => rfl
  | receive c next ih => simp [ih]
  | send c next ih => simp [ih]
  | pause c next ih => simp [ih]

theorem elapsed_run (m : Activity α) (bus : β) :
    (m.run bus).elapsed = Cycle.duration (m.history bus) := by
  induction m generalizing bus with
  | done a => rfl
  | receive c next ih => simp [ih, Cycle.duration, Cycle.time]
  | send c next ih => simp [ih, Cycle.duration, Cycle.time]
  | pause c next ih => simp [ih, Cycle.duration, Cycle.time]

end Activity

namespace FlatBus

@[simp] theorem memory_record (b : FlatBus) (k : Access) (a : Word) (v : Byte) :
    (b.record k a v).memory = b.memory := rfl

@[simp] theorem ports_record (b : FlatBus) (k : Access) (a : Word) (v : Byte) :
    (b.record k a v).ports = b.ports := rfl

@[simp] theorem memory_tick (b : FlatBus) (n : Nat) : (Bus.tick b n).memory = b.memory := rfl

@[simp] theorem ports_tick (b : FlatBus) (n : Nat) : (Bus.tick b n).ports = b.ports := rfl

@[simp] theorem log_tick (b : FlatBus) (n : Nat) : (Bus.tick b n).log? = b.log? := rfl

@[simp] theorem clock_tick (b : FlatBus) (n : Nat) : (Bus.tick b n).clock = b.clock + n := rfl

/-- What a cycle brings in from memory and ports. -/
def answer (b : FlatBus) : Receive → Byte
  | .opcode a | .operand a | .memory a => b.memory.get a
  | .port p => b.ports p

@[simp] theorem perform_receive (b : FlatBus) (c : Receive) : (c.perform b).1 = b.answer c := by
  cases c <;> rfl

@[simp] theorem memory_receive (b : FlatBus) (c : Receive) : (c.perform b).2.memory = b.memory := by
  cases c <;> rfl

@[simp] theorem ports_receive (b : FlatBus) (c : Receive) : (c.perform b).2.ports = b.ports := by
  cases c <;> rfl

@[simp] theorem clock_receive (b : FlatBus) (c : Receive) : (c.perform b).2.clock = b.clock := by
  cases c <;> rfl

theorem log_receive (b : FlatBus) (c : Receive) :
    (c.perform b).2.log? = b.log?.map (· ++ ((Cycle.received c (b.answer c)).events b.clock).toArray) := by
  cases c <;> simp [Receive.perform, Bus.read, Bus.input, record, Cycle.events, Cycle.access?, answer, peek]

@[simp] theorem memory_send (b : FlatBus) (c : Send) : (c.perform b).memory = (Cycle.sent c).store b.memory := by
  cases c <;> rfl

@[simp] theorem ports_send (b : FlatBus) (c : Send) : (c.perform b).ports = b.ports := by
  cases c <;> rfl

@[simp] theorem clock_send (b : FlatBus) (c : Send) : (c.perform b).clock = b.clock := by
  cases c <;> rfl

theorem log_send (b : FlatBus) (c : Send) :
    (c.perform b).log? = b.log?.map (· ++ ((Cycle.sent c).events b.clock).toArray) := by
  cases c <;> simp [Send.perform, Bus.write, Bus.output, record, poke, Cycle.events, Cycle.access?]

/-- The same memory and the same ports; clocks and logs may differ. -/
structure Alike (b b' : FlatBus) : Prop where
  memory : b.memory = b'.memory
  ports : b.ports = b'.ports

namespace Alike

variable {b b' : FlatBus}

theorem symm (h : b.Alike b') : b'.Alike b := ⟨h.memory.symm, h.ports.symm⟩

theorem trans {b'' : FlatBus} (h : b.Alike b') (h' : b'.Alike b'') : b.Alike b'' :=
  ⟨h.memory.trans h'.memory, h.ports.trans h'.ports⟩

theorem answer (h : b.Alike b') (c : Receive) : b.answer c = b'.answer c := by
  cases c <;> simp [FlatBus.answer, h.memory, h.ports]

theorem receive (h : b.Alike b') (c : Receive) (n n' : Nat) :
    (Bus.tick (c.perform b).2 n).Alike (Bus.tick (c.perform b').2 n') :=
  ⟨by simp [h.memory], by simp [h.ports]⟩

theorem send (h : b.Alike b') (c : Send) (n n' : Nat) :
    (Bus.tick (c.perform b) n).Alike (Bus.tick (c.perform b') n') :=
  ⟨by simp [h.memory], by simp [h.ports]⟩

theorem tick (h : b.Alike b') (n n' : Nat) : (Bus.tick b n).Alike (Bus.tick b' n') :=
  ⟨by simp [h.memory], by simp [h.ports]⟩

end Alike

end FlatBus

namespace Activity

variable {α : Type}

/-- Buses that are alike go through the same run and stay alike. -/
theorem run_alike (m : Activity α) {b b' : FlatBus} (h : b.Alike b') :
    (m.run b).value = (m.run b').value ∧ m.history b = m.history b' ∧ (m.run b).bus.Alike (m.run b').bus := by
  induction m generalizing b b' with
  | done a => exact ⟨rfl, rfl, h⟩
  | receive c next ih =>
    obtain ⟨hv, hh, hb⟩ := ih (b.answer c) (h.receive c c.time c.time)
    simp only [run_receive, history_receive, Outcome.value_after, Outcome.bus_after,
      FlatBus.perform_receive, ← h.answer c]
    exact ⟨hv, by rw [hh], hb⟩
  | send c next ih =>
    obtain ⟨hv, hh, hb⟩ := ih (h.send c c.time c.time)
    exact ⟨hv, by simp only [history_send, hh], hb⟩
  | pause c next ih =>
    obtain ⟨hv, hh, hb⟩ := ih (h.tick c.time c.time)
    exact ⟨hv, by simp only [history_pause, hh], hb⟩

/-- The memory after a run holds what the run has written. -/
theorem memory_run (m : Activity α) (b : FlatBus) :
    (m.run b).bus.memory = (m.history b).foldl Cycle.store b.memory := by
  induction m generalizing b with
  | done a => rfl
  | receive c next ih => simp [ih, Cycle.store]
  | send c next ih => simp [ih]
  | pause c next ih => simp [ih, Cycle.store]

theorem ports_run (m : Activity α) (b : FlatBus) : (m.run b).bus.ports = b.ports := by
  induction m generalizing b with
  | done a => rfl
  | receive c next ih => simp [ih]
  | send c next ih => simp [ih]
  | pause c next ih => simp [ih]

theorem clock_run (m : Activity α) (b : FlatBus) : (m.run b).bus.clock = b.clock + (m.run b).elapsed := by
  induction m generalizing b with
  | done a => rfl
  | receive c next ih => simp [ih, Nat.add_assoc]
  | send c next ih => simp [ih, Nat.add_assoc]
  | pause c next ih => simp [ih, Nat.add_assoc]

/-- A log that runs gains the accesses of the run, each with the clock at its start. -/
theorem log_run (m : Activity α) (b : FlatBus) :
    (m.run b).bus.log? = b.log?.map (· ++ (Cycle.logged b.clock (m.history b)).toArray) := by
  induction m generalizing b with
  | done a => simp [Cycle.logged]
  | receive c next ih =>
    simp [ih, Cycle.logged, FlatBus.log_receive, Cycle.time, Option.map_map, Function.comp_def]
  | send c next ih =>
    simp [ih, Cycle.logged, FlatBus.log_send, Cycle.time, Option.map_map, Function.comp_def]
  | pause c next ih => simp [ih, Cycle.logged, Cycle.events, Cycle.access?, Cycle.time]

end Activity

end Z80Machine
