import Z80Machine.Proofs.Observation
import Z80Machine.Proofs.Traffic

/-!
The pace of accesses. A journal of a step lists each access with the tick of its own time right after it: first those of
the opcode bytes, four T-states each, and then all others, which take three T-states in memory and four at a port, or
three where a machine register is written. So no two events of a log are closer than three T-states, over any course.
-/
namespace Z80Machine

/-- The time of an access that brings in no opcode byte. -/
def Access.time (short : Bool) : Access → Nat
  | .memoryRead | .memoryWrite => 3
  | .portRead => 4
  | .portWrite => if short then 3 else 4

/-- Entries of which the first is noted at `clock`: after each access, stamped with the clock, comes the tick of its
time at once. -/
inductive Paced (short : Bool) : Nat → List Entry → Prop
  | nil (clock : Nat) : Paced short clock []
  | access {clock : Nat} {entries : List Entry} (k : Access) (a : Word) (v : Byte)
      (h : Paced short (clock + k.time short) entries) :
      Paced short clock (.access ⟨clock, k, a, v⟩ :: .tick (k.time short) :: entries)
  | tick {clock : Nat} {entries : List Entry} (n : Nat) (h : Paced short (clock + n) entries) :
      Paced short clock (.tick n :: entries)

/-- The entries of opcode cycles from address `a` on. -/
def opcodeEntries (clock : Nat) (a : Word) : List Byte → List Entry
  | [] => []
  | v :: vs => .access ⟨clock, .memoryRead, a, v⟩ :: .tick 4 :: opcodeEntries (clock + 4) (a + 1) vs

theorem journaled_opcodeCycles (clock : Nat) (a : Word) (vs : List Byte) :
    Cycle.journaled clock (Target.opcodeCycles a vs) = opcodeEntries clock a vs := by
  induction vs generalizing clock a with
  | nil => rfl
  | cons v vs ih =>
    simp only [Target.opcodeCycles, Cycle.journaled, ih]
    rfl

theorem paced_journaled {short : Bool} {cs : List Cycle} (h : ∀ c ∈ cs, c.OfOperation short) (clock : Nat) :
    Paced short clock (Cycle.journaled clock cs) := by
  induction cs generalizing clock with
  | nil => exact .nil clock
  | cons c cs ih =>
    obtain ⟨hc, hcs⟩ := List.forall_mem_cons.1 h
    have hrest := ih hcs (clock + c.time)
    cases c with
    | received r v =>
      cases r with
      | opcode a => contradiction
      | operand a | memory a => exact .access .memoryRead a v hrest
      | port p => exact .access .portRead p v hrest
    | sent q =>
      cases q with
      | memory a v => exact .access .memoryWrite a v hrest
      | port p v =>
        obtain rfl : short = false := hc
        exact .access .portWrite p v hrest
      | register p v =>
        obtain rfl : short = true := hc
        exact .access .portWrite p v hrest
    | paused q => exact .tick _ hrest

theorem Cpu.paced_step (c : Cpu) (j : Journal) :
    ∃ entries, (c.step j).bus.entries.toList =
        j.entries.toList ++ opcodeEntries j.bus.clock c.registers.pc (c.opcodes j.bus.memory) ++ entries ∧
      Paced (c.writesRegister j.bus) (j.bus.clock + 4 * (c.opcodes j.bus.memory).length) entries := by
  obtain ⟨cs, hhistory, hcs⟩ := c.cycles_step j.bus
  refine ⟨_, ?_, paced_journaled hcs _⟩
  rw [c.entries_step, hhistory, Cycle.journaled_append, journaled_opcodeCycles, Target.duration_opcodeCycles,
    Array.toList_append, List.append_assoc]

section Log

/-- Events at least three T-states apart, of which the first does not come before `start` and the last is over by
`finish`. -/
structure Spaced (start finish : Nat) (events : List Event) : Prop where
  apart : events.Pairwise fun e e' => e.time + 3 ≤ e'.time
  start_le : ∀ e ∈ events, start ≤ e.time
  le_finish : ∀ e ∈ events, e.time + 3 ≤ finish

variable {start middle finish : Nat} {events events' : List Event}

theorem Spaced.append (h : Spaced start middle events) (h' : Spaced middle finish events') (hs : start ≤ middle)
    (hf : middle ≤ finish) : Spaced start finish (events ++ events') where
  apart := by
    rw [List.pairwise_append]
    refine ⟨h.apart, h'.apart, ?_⟩
    intro e he e' he'
    have hbefore := h.le_finish e he
    have hafter := h'.start_le e' he'
    omega
  start_le := by
    rw [List.forall_mem_append]
    exact ⟨h.start_le, fun e he => Nat.le_trans hs (h'.start_le e he)⟩
  le_finish := by
    rw [List.forall_mem_append]
    exact ⟨fun e he => Nat.le_trans (h.le_finish e he) hf, h'.le_finish⟩

theorem spaced_nil : Spaced start finish [] := ⟨.nil, List.forall_mem_nil _, List.forall_mem_nil _⟩

theorem spaced_singleton {e : Event} (hs : start ≤ e.time) (hf : e.time + 3 ≤ finish) : Spaced start finish [e] :=
  ⟨List.pairwise_singleton .., List.forall_mem_singleton.2 hs, List.forall_mem_singleton.2 hf⟩

theorem Cycle.spaced_events (clock : Nat) (c : Cycle) : Spaced clock (clock + c.time) (c.events clock) := by
  cases c with
  | received r v =>
    have htime : 3 ≤ r.time := by cases r <;> simp [Receive.time]
    cases r <;> exact spaced_singleton (Nat.le_refl _) (Nat.add_le_add_left htime clock)
  | sent q =>
    have htime : 3 ≤ q.time := by cases q <;> simp [Send.time]
    cases q <;> exact spaced_singleton (Nat.le_refl _) (Nat.add_le_add_left htime clock)
  | paused q => exact spaced_nil

theorem Cycle.spaced_logged (clock : Nat) (cs : List Cycle) : Spaced clock (clock + duration cs) (logged clock cs) := by
  induction cs generalizing clock with
  | nil => exact spaced_nil
  | cons c cs ih =>
    have hrest := ih (clock + c.time)
    rw [Nat.add_assoc] at hrest
    have hfinish : clock + c.time ≤ clock + (c.time + duration cs) := by omega
    exact (c.spaced_events clock).append hrest (Nat.le_add_right ..) hfinish

end Log

namespace Machine

variable (m : Machine FlatBus) (deeds : Nat → Deed)

/-- What a log gains by a deed. -/
def events (m : Machine FlatBus) : Deed → List Event
  | .step => Cycle.logged m.bus.clock (m.cpu.history m.bus)
  | _ => []

/-- What a log has gained before deed `n` of a course. -/
def recorded : Nat → List Event
  | 0 => []
  | n + 1 => recorded n ++ (m.stage deeds n).events (deeds n)

theorem log_after (d : Deed) : (m.after d).bus.log? = m.bus.log?.map (· ++ (m.events d).toArray) := by
  cases d with
  | step => exact m.cpu.log_step m.bus
  | _ => simp [after, events]

theorem log_stage (n : Nat) : (m.stage deeds n).bus.log? = m.bus.log?.map (· ++ (m.recorded deeds n).toArray) := by
  induction n with
  | zero => simp [stage, recorded]
  | succ n ih => simp [stage_succ, log_after, ih, recorded, Option.map_map, Function.comp_def]

theorem clock_after (d : Deed) : m.bus.clock ≤ (m.after d).bus.clock ∧
    Spaced m.bus.clock (m.after d).bus.clock (m.events d) := by
  cases d with
  | step =>
    have hclock : (m.after .step).bus.clock = m.bus.clock + Cycle.duration (m.cpu.history m.bus) := by
      rw [← Cpu.elapsed_performed]
      exact m.cpu.clock_step m.bus
    rw [hclock]
    exact ⟨Nat.le_add_right .., Cycle.spaced_logged ..⟩
  | _ => exact ⟨Nat.le_refl _, spaced_nil⟩

theorem spaced_recorded (n : Nat) :
    m.bus.clock ≤ (m.stage deeds n).bus.clock ∧
      Spaced m.bus.clock (m.stage deeds n).bus.clock (m.recorded deeds n) := by
  induction n with
  | zero => exact ⟨Nat.le_refl _, spaced_nil⟩
  | succ n ih =>
    obtain ⟨hle, hspaced⟩ := ih
    obtain ⟨hle', hspaced'⟩ := (m.stage deeds n).clock_after (deeds n)
    exact ⟨Nat.le_trans hle hle', hspaced.append hspaced' hle hle'⟩

/-- The journal of a step begins with its opcode bytes, or the byte at which a halted processor stays, read in four
T-states each. In what follows, each access comes with the tick of its own time right after it: three T-states in
memory, four at a port, and three where a machine register is written. So in the log of a course, which gains the
accesses of its steps, these are three T-states or more apart. -/
theorem accesses_paced (c : Cpu) (j : Journal) (n : Nat) :
    (∃ entries, (c.step j).bus.entries.toList =
        j.entries.toList ++ opcodeEntries j.bus.clock c.registers.pc (c.opcodes j.bus.memory) ++ entries ∧
      Paced (c.writesRegister j.bus) (j.bus.clock + 4 * (c.opcodes j.bus.memory).length) entries) ∧
    (m.stage deeds n).bus.log? = m.bus.log?.map (· ++ (m.recorded deeds n).toArray) ∧
    (m.recorded deeds n).Pairwise fun e e' => e.time + 3 ≤ e'.time :=
  ⟨c.paced_step j, m.log_stage deeds n, (m.spaced_recorded deeds n).2.apart⟩

end Machine

end Z80Machine
