import Z80Machine.Proofs.Pacing

/-!
A log as a history. Replaying the events of a log on the memory before a course gives the memory after it, and each read
on the way has found what the replay holds at its address. No byte of an instruction is taken in another way: they are
read at the program counter, one after the other, before anything is stored.
-/
namespace Z80Machine

open Microcode

def Event.store (m : Memory) (e : Event) : Memory :=
  match e.access with
  | .memoryWrite => m.set e.address e.value
  | _ => m

/-- What memory holds after events. -/
def replay (m : Memory) (events : List Event) : Memory := events.foldl Event.store m

/-- An event that memory and ports bear out: it reads what they hold. -/
structure Event.Agrees (ports : Word → Byte) (m : Memory) (e : Event) : Prop where
  memory : e.access = .memoryRead → e.value = m.get e.address
  port : e.access = .portRead → e.value = ports e.address

/-- The events lead from one memory to another, and each one agrees with the memory that it comes to. -/
inductive Replays (ports : Word → Byte) : Memory → List Event → Memory → Prop
  | nil (m : Memory) : Replays ports m [] m
  | cons {m m' : Memory} {e : Event} {events : List Event} (he : e.Agrees ports m)
      (h : Replays ports (e.store m) events m') : Replays ports m (e :: events) m'

section Replays

variable {ports : Word → Byte} {m m' m'' : Memory} {events events' : List Event}

theorem Replays.append (h : Replays ports m events m') (h' : Replays ports m' events' m'') :
    Replays ports m (events ++ events') m'' := by
  induction h with
  | nil m => exact h'
  | cons he h ih => exact .cons he (ih h')

theorem Replays.replay_eq (h : Replays ports m events m') : replay m events = m' := by
  induction h with
  | nil m => rfl
  | cons he h ih => exact ih

theorem Replays.agrees {before after : List Event} {e : Event} (h : Replays ports m (before ++ e :: after) m') :
    e.Agrees ports (replay m before) := by
  induction before generalizing m with
  | nil =>
    cases h with
    | cons he h => exact he
  | cons b before ih =>
    cases h with
    | cons hb h => exact ih h

theorem replays_received (c : Receive) (b : FlatBus) (clock : Nat) :
    Replays b.ports b.memory ((Cycle.received c (b.answer c)).events clock) b.memory := by
  cases c with
  | port p => exact .cons ⟨nofun, fun _ => rfl⟩ (.nil _)
  | _ => exact .cons ⟨fun _ => rfl, nofun⟩ (.nil _)

theorem replays_sent (c : Send) (clock : Nat) :
    Replays ports m ((Cycle.sent c).events clock) ((Cycle.sent c).store m) := by
  cases c <;> exact .cons ⟨nofun, nofun⟩ (.nil _)

theorem Activity.replays {α : Type} (a : Activity α) (b : FlatBus) (clock : Nat) :
    Replays b.ports b.memory (Cycle.logged clock (a.history b)) (a.run b).bus.memory := by
  induction a generalizing b clock with
  | done v => exact .nil _
  | receive c next ih =>
    have hnext := ih (c.perform b).1 (Bus.tick (c.perform b).2 c.time) (clock + c.time)
    rw [FlatBus.memory_tick, FlatBus.ports_tick, FlatBus.memory_receive, FlatBus.ports_receive] at hnext
    have hfirst := replays_received c b clock
    rw [← FlatBus.perform_receive] at hfirst
    exact hfirst.append hnext
  | send c next ih =>
    have hnext := ih (Bus.tick (c.perform b) c.time) (clock + c.time)
    rw [FlatBus.memory_tick, FlatBus.ports_tick, FlatBus.memory_send, FlatBus.ports_send] at hnext
    exact (replays_sent c clock).append hnext
  | pause c next ih => exact ih (Bus.tick b c.time) (clock + c.time)

end Replays

/-- Reads of the `n` bytes from address `a` on. -/
def Memory.reads (m : Memory) (a : Word) : Nat → List (Access × Word × Byte)
  | 0 => []
  | n + 1 => (.memoryRead, a, m.get a) :: m.reads (a + 1) n

theorem Memory.reads_add (m : Memory) (a : Word) (n k : Nat) :
    m.reads a (n + k) = m.reads a n ++ m.reads (a + BitVec.ofNat 16 n) k := by
  induction n generalizing a with
  | zero => simp [reads]
  | succ n ih =>
    rw [Nat.add_right_comm, reads, ih, ← next_address]
    rfl

def codeAccesses (cs : List Cycle) : List (Access × Word × Byte) := (cs.filter Cycle.isCode).filterMap Cycle.access?

theorem codeAccesses_append (cs ds : List Cycle) : codeAccesses (cs ++ ds) = codeAccesses cs ++ codeAccesses ds := by
  simp [codeAccesses]

theorem codeAccesses_sublist (cs : List Cycle) : (codeAccesses cs).Sublist (cs.filterMap Cycle.access?) :=
  List.filter_sublist.filterMap _

/-- Microcode that takes the bytes of an instruction from where `i` are still to come to where `j` are reads them in
memory at the program counter, and as long as some are to come, moves it by as many and stores nothing. -/
structure Fetches (i j : Nat) {α : Type} (m : Microcode α) (s : Execution) (bus : FlatBus) : Prop where
  le : j ≤ i
  unsupplied : (on m s bus).value.2.supply = none
  code : codeAccesses (history m s bus) = bus.memory.reads s.registers.pc (i - j)
  pc : j ≠ 0 → (on m s bus).value.2.registers.pc = s.registers.pc + BitVec.ofNat 16 (i - j)
  memory : j ≠ 0 → (on m s bus).bus.memory = bus.memory

section Fetches

variable {α γ : Type} {i j l : Nat} {s : Execution} {bus : FlatBus}

theorem Fetches.bind {m : Microcode α} {f : α → Microcode γ} (hm : Fetches i j m s bus)
    (hf : Fetches j l (f (on m s bus).value.1) (on m s bus).value.2 (on m s bus).bus) :
    Fetches i l (m >>= f) s bus := by
  have hle := hm.le
  have hle' := hf.le
  by_cases hj : j = 0
  -- after the last byte the program counter and memory are free to change, but no byte is taken any more
  · obtain rfl : l = 0 := by omega
    subst hj
    refine ⟨Nat.zero_le i, ?_, ?_, absurd rfl, absurd rfl⟩
    · rw [on_bind]
      exact hf.unsupplied
    · rw [history_bind, codeAccesses_append, hm.code, hf.code]
      exact List.append_nil _
  · have hcount : i - l = (i - j) + (j - l) := by omega
    refine ⟨Nat.le_trans hle' hle, ?_, ?_, fun hl => ?_, fun hl => ?_⟩
    · rw [on_bind]
      exact hf.unsupplied
    · rw [history_bind, codeAccesses_append, hm.code, hf.code, hm.pc hj, hm.memory hj, hcount, Memory.reads_add]
    · rw [on_bind, hcount, BitVec.ofNat_add, ← BitVec.add_assoc, ← hm.pc hj]
      exact hf.pc hl
    · rw [on_bind, ← hm.memory hj]
      exact hf.memory hl

theorem fetches_none {m : Microcode α} (hs : (on m s bus).value.2.supply = none)
    (hcode : codeAccesses (history m s bus) = []) (hpc : i ≠ 0 → (on m s bus).value.2.registers.pc = s.registers.pc)
    (hmemory : i ≠ 0 → (on m s bus).bus.memory = bus.memory) : Fetches i i m s bus where
  le := Nat.le_refl i
  unsupplied := hs
  code := by
    rw [hcode, Nat.sub_self]
    rfl
  pc hi := by
    rw [hpc hi, Nat.sub_self]
    exact (BitVec.add_zero _).symm
  memory := hmemory

theorem Orderly.fetches {plain : Bool} {m : Microcode α} (h : Orderly plain i j m) (hs : s.supply = none)
    (bus : FlatBus) : Fetches i j m s bus := by
  induction h generalizing s bus with
  | bind hm hf ihm ihf =>
    have hfirst := ihm hs bus
    exact hfirst.bind (ihf _ hfirst.unsupplied _)
  | @look i j γ f hcontrol hpc hf ih =>
    have hlook : Fetches i i registers s bus := fetches_none hs rfl (fun _ => rfl) fun _ => rfl
    exact hlook.bind (ih s.registers hs bus)
  | @update i g hcontrol hpc =>
    refine fetches_none hs rfl (fun hi => ?_) fun _ => rfl
    have hkeeps := hpc hi s.registers s.registers.pc
    exact (congrArg Registers.pc hkeeps :)
  | opcode h | operand =>
    rcases s with ⟨k, l, d, _ | bytes⟩
    · refine ⟨Nat.le_add_right .., rfl, ?_, fun _ => ?_, fun _ => rfl⟩
      · rw [Nat.add_sub_cancel_left]
        rfl
      · rw [Nat.add_sub_cancel_left]
        rfl
    · contradiction
  | sendMemory a v => exact fetches_none hs rfl (absurd rfl) (absurd rfl)
  | _ => exact fetches_none hs rfl (fun _ => rfl) fun _ => rfl

variable (extensions : Bool) (k : Registers) (latch : Flags) (delay : Bool) (bus)

theorem fetches_opcode : Fetches (i + 1) i opcode ⟨k, latch, delay, none⟩ bus := by
  have horderly : Orderly false (i + 1) i opcode := .opcode rfl
  exact horderly.fetches rfl bus

theorem fetches_fetchBase (b : Base) (seen : Window) :
    Fetches (i + (followBase bus.memory b k.pc).bytes) i (fetchBase extensions seen b) ⟨k, latch, delay, none⟩ bus := by
  rw [bytes_followBase]
  have hresolve := Opening.orderly extensions (b.opening (bus.memory.get k.pc)) (seen.push (bus.memory.get k.pc)) i
  exact (fetches_opcode bus k latch delay).bind (hresolve.fetches rfl _)

/-- Fetching reads the bytes on the way to the slot. -/
theorem fetches_fetch (carried : Option Index) :
    Fetches (i + (follow bus.memory k.pc carried).bytes) i (fetch extensions carried) ⟨k, latch, delay, none⟩ bus := by
  cases carried with
  | some x => exact fetches_fetchBase bus extensions k latch delay (.index x) _
  | none =>
    rw [fetch_eq]
    cases hp : Index.ofPrefix? (bus.memory.get k.pc) with
    | some x =>
      rw [bytes_follow_indexed _ (Index.ofPrefix?_eq_some.1 hp), ← bytes_followBase]
      refine (fetches_opcode bus k latch delay).bind ?_
      have hafter : fetchAfter extensions (on opcode ⟨k, latch, delay, none⟩ bus).value.1 =
          fetchBase extensions (Window.empty.push (bus.memory.get k.pc)) (.index x) := by
        simp only [on_opcode, FlatBus.perform_receive, FlatBus.answer, fetchAfter, hp]
      rw [hafter]
      exact fetches_fetchBase (i := i) (on opcode ⟨k, latch, delay, none⟩ bus).bus extensions
        { k with pc := k.pc + 1, r := refreshedBy 1 k.r } latch delay (.index x) _
    | none =>
      rw [follow_plain _ hp, bytes_followBase]
      refine (fetches_opcode bus k latch delay).bind ?_
      have hafter : fetchAfter extensions (on opcode ⟨k, latch, delay, none⟩ bus).value.1 =
          (Base.hl.opening (bus.memory.get k.pc)).resolve extensions
            (Window.empty.push (bus.memory.get k.pc)) := by
        simp only [on_opcode, FlatBus.perform_receive, FlatBus.answer, fetchAfter, hp]
      rw [hafter]
      exact (Opening.orderly extensions _ _ i).fetches rfl _

end Fetches

namespace Cpu

variable (c : Cpu) (bus : FlatBus)

/-- The bytes of the instruction at which a step begins, those of its operands among them. -/
def codeLength (m : Memory) : Nat :=
  (c.target m).bytes + ((c.target m).resolution c.config.extensions (seenBefore c.carried)).operands

theorem code_instruction (ht : c.task = .instruction c.carried) :
    codeAccesses (c.history bus) = bus.memory.reads c.registers.pc (c.codeLength bus.memory) := by
  let o := (c.target bus.memory).resolution c.config.extensions (seenBefore c.carried)
  obtain ⟨plain, horderly⟩ := c.complete_orderly c.start o
  have hfetch : Fetches (o.operands + (c.target bus.memory).bytes) o.operands
      (fetch c.config.extensions c.carried) c.starting bus := fetches_fetch bus ..
  have hresolution : (c.fetching bus).value.1 = o := congrArg Prod.fst (c.value_fetching bus)
  have hcomplete : Fetches o.operands 0 (c.complete c.start (c.fetching bus).value.1) (c.fetching bus).value.2
      (c.fetching bus).bus := by
    rw [hresolution]
    exact horderly.fetches hfetch.unsupplied _
  have hcode := (hfetch.bind hcomplete).code
  rw [Nat.sub_zero, Nat.add_comm] at hcode
  rw [history_eq, ht, perform, Microcode.history, runInstruction_starting]
  exact hcode

end Cpu

namespace Machine

variable (m : Machine FlatBus) (deeds : Nat → Deed)

theorem map_content_events : (m.events .step).map Event.content = (m.cpu.history m.bus).filterMap Cycle.access? :=
  Cycle.map_logged ..

theorem replays_events (d : Deed) : Replays m.bus.ports m.bus.memory (m.events d) (m.after d).bus.memory := by
  cases d with
  | step => exact m.cpu.activity.replays m.bus m.bus.clock
  | _ => exact .nil _

theorem ports_after (d : Deed) : (m.after d).bus.ports = m.bus.ports := by
  cases d with
  | step => exact m.cpu.ports_step m.bus
  | _ => rfl

theorem ports_stage (n : Nat) : (m.stage deeds n).bus.ports = m.bus.ports := by
  induction n with
  | zero => rfl
  | succ n ih => rw [stage_succ, ports_after, ih]

theorem replays_recorded (n : Nat) :
    Replays m.bus.ports m.bus.memory (m.recorded deeds n) (m.stage deeds n).bus.memory := by
  induction n with
  | zero => exact .nil _
  | succ n ih =>
    have hnext := (m.stage deeds n).replays_events (deeds n)
    rw [ports_stage] at hnext
    exact ih.append hnext

/-- Before deed `n` of a course the log has gained events of which the writes, replayed on the memory of the beginning,
give the memory of the end. Each read has found what the replay of the events before it holds, or what the ports give.
The bytes of an instruction's step, whether it fails or not, are read one after the other at the program counter, and
these reads are among the events that the step adds. -/
theorem log_faithful (n : Nat) :
    (m.stage deeds n).bus.log? = m.bus.log?.map (· ++ (m.recorded deeds n).toArray) ∧
      replay m.bus.memory (m.recorded deeds n) = (m.stage deeds n).bus.memory ∧
      (∀ before e after, m.recorded deeds n = before ++ e :: after →
        (e.access = .memoryRead → e.value = (replay m.bus.memory before).get e.address) ∧
          (e.access = .portRead → e.value = m.bus.ports e.address)) ∧
      ∀ k, deeds k = .step → ∀ carried, (m.stage deeds k).cpu.task = .instruction carried →
        let x := m.stage deeds k
        let reads := x.bus.memory.reads x.cpu.registers.pc (x.cpu.codeLength x.bus.memory)
        codeAccesses (x.cpu.history x.bus) = reads ∧
          m.recorded deeds (k + 1) = m.recorded deeds k ++ x.events .step ∧
          reads.Sublist ((x.events .step).map Event.content) := by
  have hreplays := m.replays_recorded deeds n
  refine ⟨m.log_stage deeds n, hreplays.replay_eq, ?_, ?_⟩
  · intro before e after hsplit
    rw [hsplit] at hreplays
    exact ⟨hreplays.agrees.memory, hreplays.agrees.port⟩
  · intro k hstep carried ht x reads
    obtain rfl : carried = x.cpu.carried := x.cpu.eq_carried_of_task ht
    have hcode : codeAccesses (x.cpu.history x.bus) = reads := x.cpu.code_instruction x.bus ht
    refine ⟨hcode, ?_, ?_⟩
    · rw [recorded, hstep]
    · rw [← hcode, map_content_events]
      exact codeAccesses_sublist _

/-- LD (HL), A stores INC A right behind itself, which the next step reads there. -/
theorem log_faithful_selfModifying :
    let cpu : Cpu := { registers := { Registers.powerOn with a := 0x3C, h := 0, l := 1 } }
    let m : Machine FlatBus := { cpu, bus := { memory := Memory.zero.set 0 0x77, log? := some #[] } }
    let events : List Event :=
      [⟨0, .memoryRead, 0, 0x77⟩, ⟨4, .memoryWrite, 1, 0x3C⟩, ⟨7, .memoryRead, 1, 0x3C⟩]
    (m.stage (fun _ => .step) 2).bus.log? = some events.toArray ∧
      replay m.bus.memory events = (m.stage (fun _ => .step) 2).bus.memory ∧
      (replay m.bus.memory (events.take 2)).get 1 = 0x3C := by
  intro cpu m events
  have hrecorded : m.recorded (fun _ => .step) 2 = events := by decide +kernel
  obtain ⟨hlog, hreplay, hreads, -⟩ := m.log_faithful (fun _ => .step) 2
  rw [hrecorded] at hlog hreplay hreads
  have hread := (hreads (events.take 2) ⟨7, .memoryRead, 1, 0x3C⟩ [] rfl).1 rfl
  exact ⟨by rw [hlog]; rfl, hreplay, hread.symm⟩

end Machine

end Z80Machine
