import Z80Machine.Bus.Observed
import Z80Machine.Machine
import Z80Machine.Proofs.Step

/-!
Observation does not disturb. Maps of buses that forget something of them, the journal around one, its log or its clock,
commute with all that a processor or a host does on them. So a machine goes through the same course whether what it does
on its bus is recorded and timed or not, and its records list the same accesses.
-/
namespace Z80Machine

/-- A map of buses under which all that a processor does on them corresponds. -/
structure Bus.Morphism {β γ : Type} [Bus β] [Bus γ] (f : β → γ) : Prop where
  read (b : β) (a : Word) : Bus.read (f b) a = ((Bus.read b a).1, f (Bus.read b a).2)
  write (b : β) (a : Word) (v : Byte) : Bus.write (f b) a v = f (Bus.write b a v)
  input (b : β) (p : Word) : Bus.input (f b) p = ((Bus.input b p).1, f (Bus.input b p).2)
  output (b : β) (p : Word) (v : Byte) : Bus.output (f b) p v = f (Bus.output b p v)
  tick (b : β) (n : Nat) : Bus.tick (f b) n = f (Bus.tick b n)

section Morphism

variable {α β γ : Type} [Bus β] [Bus γ] {f : β → γ}

theorem Bus.Morphism.receive (hf : Bus.Morphism f) (b : β) (c : Receive) :
    c.perform (f b) = ((c.perform b).1, f (c.perform b).2) := by
  cases c with
  | opcode a | operand a | memory a => exact hf.read b a
  | port p => exact hf.input b p

theorem Bus.Morphism.send (hf : Bus.Morphism f) (b : β) (c : Send) : c.perform (f b) = f (c.perform b) := by
  cases c with
  | memory a v => exact hf.write b a v
  | port p v | register p v => exact hf.output b p v

/-- A run on the image of a bus has the same value and takes the same time, and leaves the image of what the run on
the bus leaves. -/
theorem Activity.run_map (hf : Bus.Morphism f) (m : Activity α) (b : β) :
    m.run (f b) = ⟨(m.run b).value, f (m.run b).bus, (m.run b).elapsed⟩ := by
  induction m generalizing b with
  | done a => rfl
  | receive c next ih => simp only [run_receive, hf.receive, hf.tick, ih, Outcome.after]
  | send c next ih => simp only [run_send, hf.send, hf.tick, ih, Outcome.after]
  | pause c next ih => simp only [run_pause, hf.tick, ih, Outcome.after]

theorem Activity.history_map (hf : Bus.Morphism f) (m : Activity α) (b : β) : m.history (f b) = m.history b := by
  induction m generalizing b with
  | done a => rfl
  | receive c next ih => simp only [history_receive, hf.receive, hf.tick, ih]
  | send c next ih => simp only [history_send, hf.send, hf.tick, ih]
  | pause c next ih => simp only [history_pause, hf.tick, ih]

theorem Cpu.step_map (hf : Bus.Morphism f) (c : Cpu) (b : β) :
    c.step (f b) = { result := (c.step b).result, cpu := (c.step b).cpu, bus := f (c.step b).bus } := by
  simp only [step, Activity.run_map hf]

end Morphism

/-- What a host does to a bus past the processor. A single byte is poked by loading a list of one. -/
inductive Adjustment where
  | load (a : Word) (vs : List Byte)
  | setPort (p : Word) (v : Byte)
  /-- Throws away what has been recorded so far. -/
  | clear

/-- A bus that a host can adjust. -/
class Adjustable (β : Type) where
  adjust : β → Adjustment → β

open Adjustable

instance : Adjustable FlatBus where
  adjust
    | b, .load a vs => b.load a vs
    | b, .setPort p v => b.setPort p v
    | b, .clear => b.withoutEvents

instance : Adjustable Untimed where
  adjust u x := ⟨adjust u.bus x⟩

instance : Adjustable Journal where
  adjust
    | j, .clear => { bus := adjust j.bus .clear }
    | j, x => { j with bus := adjust j.bus x }

/-- What can happen to a machine on a bus that its host can adjust. -/
inductive Call where
  | deed (d : Deed)
  | adjust (x : Adjustment)

namespace Machine

variable {β : Type} [Bus β] [Adjustable β]

def called (m : Machine β) : Call → Machine β
  | .deed d => m.after d
  | .adjust x => { m with bus := adjust m.bus x }

/-- The machine before call `n` of a course. -/
def course (m : Machine β) (calls : Nat → Call) : Nat → Machine β
  | 0 => m
  | n + 1 => (m.course calls n).called (calls n)

/-- The accesses to be found on record after a call, where those of `before` were found before it. -/
def onRecord (m : Machine β) (before : List (Access × Word × Byte)) : Call → List (Access × Word × Byte)
  | .deed .step => before ++ (m.cpu.history m.bus).filterMap Cycle.access?
  | .adjust .clear => []
  | _ => before

/-- The accesses that a machine has made before call `n` of a course, since records were last thrown away. -/
def accesses (m : Machine β) (calls : Nat → Call) : Nat → List (Access × Word × Byte)
  | 0 => []
  | n + 1 => (m.course calls n).onRecord (m.accesses calls n) (calls n)

end Machine

def Machine.map {β γ : Type} (f : β → γ) (m : Machine β) : Machine γ := { cpu := m.cpu, bus := f m.bus }

namespace Machine

variable {β γ : Type} [Bus β] [Bus γ] {f : β → γ} (hf : Bus.Morphism f)
include hf

theorem after_map (m : Machine β) (d : Deed) : (m.map f).after d = (m.after d).map f := by
  cases d with
  | step => simp only [after, map, Cpu.step_map hf]
  | _ => rfl

theorem history_map (m : Machine β) : (m.map f).cpu.history (m.map f).bus = m.cpu.history m.bus :=
  Activity.history_map hf m.cpu.activity m.bus

variable [Adjustable β] [Adjustable γ] (hadjust : ∀ b x, adjust (f b) x = f (adjust b x))
include hadjust

theorem called_map (m : Machine β) (c : Call) : (m.map f).called c = (m.called c).map f := by
  cases c with
  | deed d => exact m.after_map hf d
  | adjust x => exact congrArg (Machine.mk m.cpu) (hadjust m.bus x)

theorem course_map (m : Machine β) (calls : Nat → Call) (n : Nat) :
    (m.map f).course calls n = (m.course calls n).map f := by
  induction n with
  | zero => rfl
  | succ n ih => rw [course, ih, called_map hf hadjust, course]

theorem accesses_map (m : Machine β) (calls : Nat → Call) (n : Nat) :
    (m.map f).accesses calls n = m.accesses calls n := by
  induction n with
  | zero => rfl
  | succ n ih =>
    rw [accesses, accesses, ih, course_map hf hadjust]
    simp only [onRecord, history_map hf]

end Machine

section Forgetting

/-- The journal around a bus is forgotten. -/
theorem Journal.morphism_bus : Bus.Morphism Journal.bus where
  read _ _ := rfl
  write _ _ _ := rfl
  input _ _ := rfl
  output _ _ _ := rfl
  tick _ _ := rfl

theorem Journal.adjust_bus (j : Journal) (x : Adjustment) : adjust j.bus x = (adjust j x).bus := by
  cases x <;> rfl

/-- The log is forgotten. -/
def FlatBus.silenced (b : FlatBus) : FlatBus := { b with log? := none }

theorem FlatBus.morphism_silenced : Bus.Morphism silenced where
  read _ _ := rfl
  write _ _ _ := rfl
  input _ _ := rfl
  output _ _ _ := rfl
  tick _ _ := rfl

theorem FlatBus.adjust_silenced (b : FlatBus) (x : Adjustment) : adjust b.silenced x = (adjust b x).silenced := by
  cases x <;> rfl

/-- The event with its stamp forgotten. -/
def Event.unstamped (e : Event) : Event := { e with time := 0 }

/-- The clock is forgotten, with all stamps. -/
def FlatBus.untimed (b : FlatBus) : Untimed :=
  ⟨{ b with clock := 0, log? := b.log?.map (·.map Event.unstamped) }⟩

theorem FlatBus.record_untimed (b : FlatBus) (k : Access) (a : Word) (v : Byte) :
    b.untimed.bus.record k a v = (b.record k a v).untimed.bus := by
  simp [untimed, record, Option.map_map, Function.comp_def, Event.unstamped]

theorem FlatBus.morphism_untimed : Bus.Morphism untimed where
  read b a := congrArg (fun x => (b.peek a, Untimed.mk x)) (b.record_untimed ..)
  write b a v := congrArg Untimed.mk ((b.poke a v).record_untimed ..)
  input b p := congrArg (fun x => (b.ports p, Untimed.mk x)) (b.record_untimed ..)
  output b _ _ := congrArg Untimed.mk (b.record_untimed ..)
  tick _ _ := rfl

theorem FlatBus.adjust_untimed (b : FlatBus) (x : Adjustment) : adjust b.untimed x = (adjust b x).untimed := by
  cases x with
  | load | setPort => rfl
  | clear => simp [adjust, untimed, withoutEvents, Option.map_map, Function.comp_def]

end Forgetting

namespace Cycle

def entries (clock : Nat) (c : Cycle) : List Entry := (c.events clock).map .access ++ [.tick c.time]

/-- What a journal notes of cycles of which the first starts at `clock`. -/
def journaled (clock : Nat) : List Cycle → List Entry
  | [] => []
  | c :: cs => c.entries clock ++ journaled (clock + c.time) cs

theorem journaled_append (clock : Nat) (cs ds : List Cycle) :
    journaled clock (cs ++ ds) = journaled clock cs ++ journaled (clock + duration cs) ds := by
  induction cs generalizing clock with
  | nil => rfl
  | cons c cs ih => simp only [List.cons_append, journaled, ih, duration, List.append_assoc, Nat.add_assoc]

end Cycle

/-- The event of an entry that is not a tick. -/
def Entry.event? : Entry → Option Event
  | .access e => some e
  | .tick _ => none

theorem Cycle.filterMap_entries (clock : Nat) (c : Cycle) :
    (c.entries clock).filterMap Entry.event? = c.events clock := by
  simp [entries, List.filterMap_append, List.filterMap_map, Function.comp_def, Entry.event?]

/-- Without its ticks a journal is a log. -/
theorem Cycle.filterMap_journaled (clock : Nat) (cs : List Cycle) :
    (journaled clock cs).filterMap Entry.event? = logged clock cs := by
  induction cs generalizing clock with
  | nil => rfl
  | cons c cs ih => rw [journaled, logged, List.filterMap_append, filterMap_entries, ih]

section Journal

variable {α : Type}

theorem Journal.entries_receive (j : Journal) (c : Receive) :
    (Bus.tick (c.perform j).2 c.time).entries =
      j.entries ++ ((Cycle.received c (c.perform j).1).entries j.bus.clock).toArray := by
  cases c <;> simp [Cycle.entries, Cycle.events, Cycle.access?] <;> rfl

theorem Journal.entries_send (j : Journal) (c : Send) :
    (Bus.tick (c.perform j) c.time).entries = j.entries ++ ((Cycle.sent c).entries j.bus.clock).toArray := by
  cases c <;> simp [Cycle.entries, Cycle.events, Cycle.access?] <;> rfl

theorem Activity.entries_run (m : Activity α) (j : Journal) :
    (m.run j).bus.entries = j.entries ++ (Cycle.journaled j.bus.clock (m.history j)).toArray := by
  induction m generalizing j with
  | done a => simp [Cycle.journaled]
  | receive c next ih =>
    have hclock : (Bus.tick (c.perform j).2 c.time).bus.clock = j.bus.clock + c.time := by cases c <;> rfl
    simp [ih, hclock, j.entries_receive, Cycle.journaled, Cycle.time]
  | send c next ih =>
    have hclock : (Bus.tick (c.perform j) c.time).bus.clock = j.bus.clock + c.time := by cases c <;> rfl
    simp [ih, hclock, j.entries_send, Cycle.journaled, Cycle.time]
  | pause c next ih =>
    have hclock : (Bus.tick j c.time).bus.clock = j.bus.clock + c.time := rfl
    have hentries : (Bus.tick j c.time).entries = j.entries ++ ((Cycle.paused c).entries j.bus.clock).toArray := by
      simp [Bus.tick, Cycle.entries, Cycle.events, Cycle.access?, Cycle.time]
    simp [ih, hclock, hentries, Cycle.journaled, Cycle.time]

theorem Cpu.entries_step (c : Cpu) (j : Journal) :
    (c.step j).bus.entries = j.entries ++ (Cycle.journaled j.bus.clock (c.history j.bus)).toArray := by
  have hhistory : c.history j.bus = c.activity.history j := Activity.history_map Journal.morphism_bus c.activity j
  rw [hhistory]
  exact c.activity.entries_run j

end Journal

section Records

def Event.content (e : Event) : Access × Word × Byte := (e.access, e.address, e.value)

/-- The log holds these accesses. -/
def FlatBus.Holds (b : FlatBus) (accesses : List (Access × Word × Byte)) : Prop :=
  ∃ events : Array Event, b.log? = some events ∧ events.toList.map Event.content = accesses

/-- The log inside holds the events of the journal. -/
def Journal.Logged (j : Journal) : Prop := j.bus.log? = some (j.entries.toList.filterMap Entry.event?).toArray

namespace Machine

theorem holds_called {m : Machine FlatBus} {accesses : List (Access × Word × Byte)} (h : m.bus.Holds accesses)
    (c : Call) : (m.called c).bus.Holds (m.onRecord accesses c) := by
  obtain ⟨events, hlog, rfl⟩ := h
  cases c with
  | deed d =>
    cases d with
    | step =>
      have hstep := m.cpu.log_step m.bus
      have hcontent := Cycle.map_logged m.bus.clock (m.cpu.history m.bus)
      refine ⟨events ++ (Cycle.logged m.bus.clock (m.cpu.history m.bus)).toArray, ?_, ?_⟩
      · rw [called, after, hstep, hlog, Option.map_some]
      · rw [onRecord, ← hcontent, Array.toList_append, List.map_append]
        rfl
    | _ => exact ⟨events, hlog, rfl⟩
  | adjust x =>
    cases x with
    | clear => exact ⟨#[], by simp [called, adjust, FlatBus.withoutEvents, hlog], rfl⟩
    | _ => exact ⟨events, hlog, rfl⟩

theorem holds_course {m : Machine FlatBus} (h : m.bus.Holds []) (calls : Nat → Call) (n : Nat) :
    (m.course calls n).bus.Holds (m.accesses calls n) := by
  induction n with
  | zero => exact h
  | succ n ih => exact holds_called ih (calls n)

theorem logged_called {m : Machine Journal} (h : m.bus.Logged) (c : Call) : (m.called c).bus.Logged := by
  cases c with
  | deed d =>
    cases d with
    | step =>
      have hbus : (m.cpu.step m.bus).bus.bus = (m.cpu.step m.bus.bus).bus :=
        (congrArg Step.bus (m.cpu.step_map Journal.morphism_bus m.bus)).symm
      rw [Journal.Logged, called, after, hbus, Cpu.log_step, Cpu.entries_step, Array.toList_append,
        List.filterMap_append, Cycle.filterMap_journaled, h]
      simp
    | _ => exact h
  | adjust x =>
    cases x with
    | clear =>
      rw [Journal.Logged] at h ⊢
      simp [called, adjust, FlatBus.withoutEvents, h]
    | _ => exact h

theorem logged_course {m : Machine Journal} (h : m.bus.Logged) (calls : Nat → Call) (n : Nat) :
    (m.course calls n).bus.Logged := by
  induction n with
  | zero => exact h
  | succ n ih => exact logged_called ih (calls n)

end Machine

end Records

/-- What can be told of a machine on a bus around the plain bus `bus`, except by a record or a clock, is as with `x`. -/
structure Machine.Matches {β : Type} [Bus β] (x : Machine FlatBus) (m : Machine β) (bus : FlatBus) : Prop where
  cpu : m.cpu = x.cpu
  memory : bus.memory = x.bus.memory
  ports : bus.ports = x.bus.ports
  result : (m.cpu.step m.bus).result = (x.cpu.step x.bus).result
  history : m.cpu.history m.bus = x.cpu.history x.bus

namespace Machine

theorem result_map {β γ : Type} [Bus β] [Bus γ] {f : β → γ} (hf : Bus.Morphism f) (m : Machine β) :
    ((m.map f).cpu.step (m.map f).bus).result = (m.cpu.step m.bus).result :=
  congrArg Step.result (m.cpu.step_map hf m.bus)

theorem matches_silenced (y : Machine FlatBus) : (y.map FlatBus.silenced).Matches y y.bus :=
  ⟨rfl, rfl, rfl, (y.result_map FlatBus.morphism_silenced).symm, (y.history_map FlatBus.morphism_silenced).symm⟩

theorem Matches.untimed {x y : Machine FlatBus} (h : x.Matches y y.bus) :
    x.Matches (y.map FlatBus.untimed) (y.map FlatBus.untimed).bus.bus :=
  ⟨h.cpu, h.memory, h.ports, (y.result_map FlatBus.morphism_untimed).trans h.result,
    (y.history_map FlatBus.morphism_untimed).trans h.history⟩

theorem Matches.journal {x : Machine FlatBus} {j : Machine Journal}
    (h : x.Matches (j.map Journal.bus) (j.map Journal.bus).bus) : x.Matches j j.bus.bus :=
  ⟨h.cpu, h.memory, h.ports, (j.result_map Journal.morphism_bus).symm.trans h.result,
    (j.history_map Journal.morphism_bus).symm.trans h.history⟩

/-- One course on four buses: with the log off, with it on, on a bus that ignores time, and on one that keeps a journal.
At each call the processors, the memories and the ports are the same, and so are the result and the cycles of a step.
The same accesses have been made, and the records list them: the log, that without stamps on the bus that ignores time,
and the journal, which has the ticks besides. -/
theorem observation_harmless (c : Cpu) (memory : Memory) (ports : Word → Byte) (calls : Nat → Call) (n : Nat) :
    let start : FlatBus := { memory, ports, log? := some #[] }
    let silent : Machine FlatBus := { cpu := c, bus := { memory, ports } }
    let logging : Machine FlatBus := { cpu := c, bus := start }
    let timeless : Machine Untimed := { cpu := c, bus := { bus := start } }
    let noting : Machine Journal := { cpu := c, bus := { bus := start } }
    let x := silent.course calls n
    let y := logging.course calls n
    let u := timeless.course calls n
    let j := noting.course calls n
    (x.Matches y y.bus ∧ x.Matches u u.bus.bus ∧ x.Matches j j.bus.bus) ∧
      (logging.accesses calls n = silent.accesses calls n ∧ timeless.accesses calls n = silent.accesses calls n ∧
        noting.accesses calls n = silent.accesses calls n) ∧
      x.bus.log? = none ∧ u.bus.bus.clock = 0 ∧
      ∃ events : Array Event, events.toList.map Event.content = silent.accesses calls n ∧
        y.bus.log? = some events ∧ u.bus.bus.log? = some (events.map Event.unstamped) ∧
        j.bus.bus.log? = some events ∧ j.bus.entries.toList.filterMap Entry.event? = events.toList := by
  intro start silent logging timeless noting x y u j
  -- forgetting the journal, then the log or the clock, leads from the last machine to the others
  have hstart : logging.map FlatBus.untimed = timeless := by simp [logging, timeless, map, FlatBus.untimed, start]
  have hx : x = y.map FlatBus.silenced :=
    course_map FlatBus.morphism_silenced FlatBus.adjust_silenced logging calls n
  have hu : u = y.map FlatBus.untimed := by
    rw [← course_map FlatBus.morphism_untimed FlatBus.adjust_untimed, hstart]
  have hy : y = j.map Journal.bus := course_map Journal.morphism_bus Journal.adjust_bus noting calls n
  have hmatch : x.Matches y y.bus := hx ▸ y.matches_silenced
  have hsilent : silent.accesses calls n = logging.accesses calls n :=
    accesses_map FlatBus.morphism_silenced FlatBus.adjust_silenced logging calls n
  have htimeless : timeless.accesses calls n = logging.accesses calls n := by
    rw [← hstart, accesses_map FlatBus.morphism_untimed FlatBus.adjust_untimed]
  have hlogging : logging.accesses calls n = noting.accesses calls n :=
    accesses_map Journal.morphism_bus Journal.adjust_bus noting calls n
  obtain ⟨events, hlog, hcontent⟩ : y.bus.Holds (logging.accesses calls n) := holds_course ⟨#[], rfl, rfl⟩ calls n
  have hnoted : j.bus.Logged := by
    apply logged_course
    simp [Journal.Logged, noting, start]
  have hinside : j.bus.bus.log? = some events := by
    rw [← hlog, hy]
    rfl
  refine ⟨⟨hmatch, hu ▸ hmatch.untimed, (hy ▸ hmatch).journal⟩, ⟨hsilent.symm, htimeless.trans hsilent.symm,
    hlogging.symm.trans hsilent.symm⟩, ?_, ?_, events, hcontent.trans hsilent.symm, hlog, ?_, hinside, ?_⟩
  · rw [hx]
    rfl
  · rw [hu]
    rfl
  · rw [hu]
    exact congrArg (Option.map fun es => es.map Event.unstamped) hlog
  · rw [Journal.Logged, hinside] at hnoted
    rw [Option.some.inj hnoted]

end Machine

end Z80Machine
