import Z80Machine.Cpu.Step
import Z80Machine.Proofs.Target

/-!
One step, seen from outside. A step is the run of what its task performs: the result, the processor and the cycles
of a step are those of that run, and the run of an instruction is its fetch and what the fetched slot does.
-/
namespace Z80Machine.Cpu

open Microcode

section Outside

variable {β : Type} [Bus β] (c : Cpu) (bus : β)

/-- Where an execution stands when a step begins. -/
def starting : Execution := { registers := c.registers }

/-- The run of a step's microcode. -/
def performed : Outcome β (Ending × Execution) := on (c.perform c.task) c.starting bus

/-- The cycles of a step. -/
def history : List Cycle := c.activity.history bus

theorem history_eq : c.history bus = Microcode.history (c.perform c.task) c.starting bus :=
  (Activity.history_bind _ _ bus).trans (List.append_nil _)

theorem activity_run :
    c.activity.run bus =
      ⟨((c.performed bus).value.1.map fun _ => (),
        c.afterStep c.task (c.performed bus).value.1 (c.performed bus).value.2),
        (c.performed bus).bus, (c.performed bus).elapsed⟩ :=
  Activity.run_bind _ _ bus

theorem result_step :
    (c.step bus).result = (c.performed bus).value.1.map fun _ => BitVec.ofNat 32 (c.performed bus).elapsed := by
  simp only [step, activity_run]
  cases (c.performed bus).value.1 <;> rfl

theorem cpu_step :
    (c.step bus).cpu =
      { c.afterStep c.task (c.performed bus).value.1 (c.performed bus).value.2 with
        total := c.total.later (c.performed bus).elapsed } := by
  simp only [step, activity_run]

theorem bus_step : (c.step bus).bus = (c.performed bus).bus := by
  simp only [step, activity_run]

theorem elapsed_performed : (c.performed bus).elapsed = Cycle.duration (c.history bus) := by
  rw [history_eq, performed, elapsed_eq_history]

theorem registers_step : (c.step bus).cpu.registers = (c.performed bus).value.2.registers := by
  rw [cpu_step]
  rfl

theorem carried_step :
    (c.step bus).cpu.carried = match (c.performed bus).value.1 with
      | .ok carried => carried
      | .error _ => none := by
  rw [cpu_step]
  rfl

theorem latch_step : (c.step bus).cpu.latch = (c.performed bus).value.2.latch := by
  rw [cpu_step]
  rfl

theorem config_step : (c.step bus).cpu.config = c.config := by
  rw [cpu_step]
  rfl

theorem interruptPending_step :
    (c.step bus).cpu.interruptPending = (c.interruptPending && c.task != .interrupt) := by
  rw [cpu_step]
  rfl

theorem nmiPending_step : (c.step bus).cpu.nmiPending = (c.nmiPending && c.task != .nmi) := by
  rw [cpu_step]
  rfl

theorem total_step : (c.step bus).cpu.total = c.total.later (Cycle.duration (c.history bus)) := by
  rw [cpu_step, elapsed_performed]

end Outside

theorem ports_step (c : Cpu) (bus : FlatBus) : (c.step bus).bus.ports = bus.ports := by
  rw [bus_step]
  exact Activity.ports_run _ bus

theorem clock_step (c : Cpu) (bus : FlatBus) :
    (c.step bus).bus.clock = bus.clock + (c.performed bus).elapsed := by
  rw [bus_step]
  exact Activity.clock_run _ bus

/-- The log of a step on a plain bus with its log on holds the accesses of the step's cycles. -/
theorem log_step (c : Cpu) (bus : FlatBus) :
    (c.step bus).bus.log? = bus.log?.map (· ++ (Cycle.logged bus.clock (c.history bus)).toArray) := by
  rw [bus_step, performed, history_eq]
  exact Activity.log_run _ bus

section Instruction

variable (c : Cpu) (bus : FlatBus)

/-- The slot to which the bytes at the program counter lead. -/
def target (m : Memory) : Target := follow m c.registers.pc c.carried

/-- The address of an instruction's first byte: one that begins with a carried prefix begins before the program
counter. -/
def start : Word :=
  match c.carried with
  | some _ => c.registers.pc - 1
  | none => c.registers.pc

/-- The run of an instruction's fetch. -/
def fetching : Outcome FlatBus (Resolution × Execution) :=
  on (fetch c.config.extensions c.carried) c.starting bus

theorem value_fetching :
    (c.fetching bus).value =
      ((c.target bus.memory).resolution c.config.extensions (seenBefore c.carried),
        { registers := (c.target bus.memory).fetched c.registers }) :=
  on_fetch c.config.extensions bus c.registers .clear false c.carried

theorem elapsed_fetching : (c.fetching bus).elapsed = (c.target bus.memory).time := by
  rw [fetching, elapsed_eq_history, starting, history_fetch, Target.duration_cycles]
  rfl

theorem alike_fetching : (c.fetching bus).bus.Alike bus where
  memory := by
    rw [fetching, on, Activity.memory_run]
    exact (congrArg _ (history_fetch ..)).trans (Target.foldl_store_cycles ..)
  ports := Activity.ports_run _ bus

theorem runInstruction_starting :
    c.runInstruction c.carried c.starting =
      (fetch c.config.extensions c.carried >>= c.complete c.start) c.starting := by
  cases hc : c.carried <;> simp only [start, hc] <;> rfl

/-- An instruction's step fetches and then runs what has been fetched. -/
theorem performed_instruction (h : c.task = .instruction c.carried) :
    c.performed bus =
      (on (c.complete c.start (c.fetching bus).value.1) (c.fetching bus).value.2 (c.fetching bus).bus).after
        (c.fetching bus).elapsed := by
  rw [performed, h, perform, on, runInstruction_starting]
  exact on_bind ..

theorem history_instruction (h : c.task = .instruction c.carried) :
    c.history bus =
      (c.target bus.memory).cycles c.registers.pc ++
        Microcode.history (c.complete c.start (c.fetching bus).value.1) (c.fetching bus).value.2
          (c.fetching bus).bus := by
  rw [history_eq, h, perform, Microcode.history, runInstruction_starting]
  refine (Microcode.history_bind ..).trans ?_
  rw [starting, history_fetch]
  rfl

/-- A step that ends where its fetch ends has fetched opcode bytes and done nothing else. -/
theorem step_fetched {o : Resolution} {e : Ending} (ht : c.task = .instruction c.carried)
    (hw : (c.target bus.memory).resolution c.config.extensions (seenBefore c.carried) = o)
    (he : c.complete c.start o = pure e) (ho : (c.target bus.memory).operands = []) :
    let n := (c.target bus.memory).opcode.length
    (c.step bus).result = e.map (fun _ => BitVec.ofNat 32 (4 * n)) ∧
      (c.step bus).cpu =
        { c.afterStep c.task e { registers := { c.registers with
            pc := c.registers.pc + BitVec.ofNat 16 n, r := refreshedBy n c.registers.r } } with
          total := c.total.later (4 * n) } ∧
      (c.step bus).bus.Alike bus ∧
      c.history bus = Target.opcodeCycles c.registers.pc (c.target bus.memory).opcode := by
  have hperformed : c.performed bus =
      ⟨(e, { registers := (c.target bus.memory).fetched c.registers }), (c.fetching bus).bus,
        4 * (c.target bus.memory).opcode.length⟩ := by
    rw [performed_instruction c bus ht, value_fetching, hw, he, elapsed_fetching, Target.time, ho]
    rfl
  refine ⟨?_, ?_, ?_, ?_⟩
  · rw [result_step, hperformed]
  · rw [cpu_step, hperformed]
    simp [Target.fetched, ho]
  · rw [bus_step, hperformed]
    exact alike_fetching c bus
  · rw [history_instruction c bus ht, value_fetching, hw, he, Target.cycles, ho]
    exact (List.append_nil _).trans (List.append_nil _)

end Instruction

section Task

variable {c : Cpu}

/-- An instruction runs when a prefix was carried, or when nothing is accepted and the processor is not halted. -/
theorem task_eq_instruction :
    c.task = .instruction c.carried ↔
      c.carried.isSome ∨
        c.nmiPending = false ∧ (c.interruptPending && c.registers.iff1 && !c.eiDelay) = false ∧
          c.registers.halted = false := by
  cases hc : c.carried with
  | some i => simp [task, hc]
  | none =>
    cases hn : c.nmiPending <;> cases hi : (c.interruptPending && c.registers.iff1 && !c.eiDelay) <;>
      cases hh : c.registers.halted <;> simp [task, hc, hn, hi, hh]

/-- Only a carried prefix goes before an NMI. -/
theorem task_eq_nmi : c.task = .nmi ↔ c.carried = none ∧ c.nmiPending = true := by
  cases hc : c.carried with
  | some i => simp [task, hc]
  | none =>
    cases hn : c.nmiPending <;> cases hi : (c.interruptPending && c.registers.iff1 && !c.eiDelay) <;>
      cases hh : c.registers.halted <;> simp [task, hc, hn, hi, hh]

/-- An interrupt is accepted when it is asked for and enabled, and nothing goes before it. -/
theorem task_eq_interrupt :
    c.task = .interrupt ↔
      c.carried = none ∧ c.nmiPending = false ∧ (c.interruptPending && c.registers.iff1 && !c.eiDelay) = true := by
  cases hc : c.carried with
  | some i => simp [task, hc]
  | none =>
    cases hn : c.nmiPending <;> cases hi : (c.interruptPending && c.registers.iff1 && !c.eiDelay) <;>
      cases hh : c.registers.halted <;> simp [task, hc, hn, hi, hh]

theorem eq_carried_of_task {carried : Option Index} (h : c.task = .instruction carried) : carried = c.carried := by
  cases hc : c.carried with
  | some i => simpa [task, hc] using h.symm
  | none =>
    simp only [task, hc] at h
    split at h <;> try split at h <;> try split at h
    all_goals simp_all

end Task

end Z80Machine.Cpu
