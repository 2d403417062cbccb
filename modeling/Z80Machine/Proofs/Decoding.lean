import Z80Machine.Proofs.Traffic

/-!
What a step decodes. Where it takes an instruction, from memory or in mode 0 from a device, its bytes lead to a slot;
fetching them is the same whatever the configuration, and the step goes on with what the configuration makes of the
slot. Where it takes none the configuration does not matter.
-/
namespace Z80Machine

open Microcode

theorem Activity.bus_run_of_history {α γ : Type} {m : Activity α} {m' : Activity γ} {b : FlatBus}
    (h : m'.history b = m.history b) : (m'.run b).bus = (m.run b).bus := by
  have hmemory : (m'.run b).bus.memory = (m.run b).bus.memory := by rw [memory_run, memory_run, h]
  have hports : (m'.run b).bus.ports = (m.run b).bus.ports := by rw [ports_run, ports_run]
  have hclock : (m'.run b).bus.clock = (m.run b).bus.clock := by
    rw [clock_run, clock_run, elapsed_run, elapsed_run, h]
  have hlog : (m'.run b).bus.log? = (m.run b).bus.log? := by rw [log_run, log_run, h]
  exact FlatBus.mk.injEq .. ▸ ⟨hmemory, hports, hclock, hlog⟩

theorem Target.window_of_undefined (t : Target) {extensions : Bool} {seen w : Window}
    (h : t.resolution extensions seen = .undefined w) : w = t.opcode.foldl Window.push seen := by
  rw [resolution] at h
  cases hs : t.page.slot t.byte with
  | instruction i =>
    simp only [hs] at h
    split at h
    · contradiction
    · exact (Resolution.undefined.inj h).symm
  | lead l =>
    simp only [hs] at h
    cases l with
    | index i => contradiction
    | _ => exact (Resolution.undefined.inj h).symm
  | undefined =>
    simp only [hs] at h
    exact (Resolution.undefined.inj h).symm

theorem Target.foldl_store_suppliedCycles (t : Target) (m : Memory) :
    t.suppliedCycles.foldl Cycle.store m = m := by
  have hopcode (vs : List Byte) : (vs.map fun v => Cycle.paused (.opcode v)).foldl Cycle.store m = m := by
    induction vs with
    | nil => rfl
    | cons v vs ih => exact ih
  rw [suppliedCycles, List.foldl_append, hopcode]
  split <;> rfl

section Way

variable {P : Cycle → Prop} (t : Target)

theorem Target.forall_mem_cycles (a : Word) (hopcode : ∀ a v, P (.received (.opcode a) v))
    (hoperand : ∀ a v, P (.received (.operand a) v)) (hpause : P (.paused (.internal 2))) :
    ∀ x ∈ t.cycles a, P x := by
  have hopcodes (a : Word) (vs : List Byte) : ∀ x ∈ opcodeCycles a vs, P x := by
    induction vs generalizing a with
    | nil => exact List.forall_mem_nil _
    | cons v vs ih => exact List.forall_mem_cons.2 ⟨hopcode a v, ih (a + 1)⟩
  rw [cycles, List.forall_mem_append]
  refine ⟨hopcodes a t.opcode, ?_⟩
  split
  · exact List.forall_mem_cons.2 ⟨hoperand .., List.forall_mem_cons.2 ⟨hoperand .., List.forall_mem_singleton.2 hpause⟩⟩
  · exact List.forall_mem_nil _

end Way

namespace Cpu

variable (c : Cpu)

def configured (config : Config) : Cpu := { c with config }

/-- The slot to which the bytes lead that a step takes. -/
def decoded (m : Memory) : Option Target :=
  match c.task with
  | .instruction _ => some (c.target m)
  | .interrupt => if c.registers.im = 0 then some (followSupplied .hl c.interruptData) else none
  | .nmi | .idle => none

/-- The cycles on the way to a slot. -/
def way (t : Target) : List Cycle :=
  match c.task with
  | .interrupt => .paused (.internal 2) :: t.suppliedCycles
  | _ => t.cycles c.registers.pc

/-- An execution on arrival at a slot. -/
def arriving (t : Target) : Execution :=
  match c.task with
  | .interrupt =>
    { registers := { t.fetched c.accepted with pc := c.registers.pc }
      supply := some (c.interruptData.drop t.bytes) }
  | _ => { registers := t.fetched c.registers }

/-- What a configuration makes of a slot. -/
def meaning (config : Config) (t : Target) : Resolution := t.resolution config.extensions (seenBefore c.carried)

section Decoded

variable {c} {t : Target} {m : Memory}

theorem decoded_eq_some :
    c.decoded m = some t ↔
      c.task = .instruction c.carried ∧ t = c.target m ∨
        c.task = .interrupt ∧ c.registers.im = 0 ∧ t = followSupplied .hl c.interruptData := by
  rw [decoded]
  cases ht : c.task with
  | instruction carried =>
    obtain rfl := eq_carried_of_task ht
    simp only [Option.some.injEq, reduceCtorEq, false_and, or_false, true_and]
    exact eq_comm
  | interrupt =>
    by_cases hm : c.registers.im = 0
    · simp only [hm, ↓reduceIte, Option.some.injEq, reduceCtorEq, false_and, false_or, true_and]
      exact eq_comm
    · simp only [hm, ↓reduceIte, reduceCtorEq, false_and, and_false, or_false]
  | nmi | idle => simp

/-- Nothing is decoded in the response to an NMI or to a vectored interrupt, nor in idling. -/
theorem decoded_eq_none :
    c.decoded m = none ↔ c.task = .nmi ∨ c.task = .interrupt ∧ c.registers.im ≠ 0 ∨ c.task = .idle := by
  rw [decoded]
  cases ht : c.task with
  | interrupt => by_cases hm : c.registers.im = 0 <;> simp [hm]
  | instruction | nmi | idle => simp

end Decoded

variable (bus : FlatBus)

def reached : FlatBus :=
  match c.task with
  | .interrupt =>
    (on (fetchSupplied c.config.extensions .empty .hl c.interruptData) ⟨c.accepted, .clear, false, some []⟩
      (Bus.tick bus 2)).bus
  | _ => (c.fetching bus).bus

theorem alike_reached : (c.reached bus).Alike bus := by
  rw [reached]
  split
  · refine ⟨?_, Activity.ports_run _ _⟩
    rw [on, Activity.memory_run]
    exact (congrArg (List.foldl Cycle.store bus.memory) (history_fetchSupplied ..)).trans
      (Target.foldl_store_suppliedCycles ..)
  · exact c.alike_fetching bus

theorem reached_configured (config : Config) : (c.configured config).reached bus = c.reached bus := by
  have ht : (c.configured config).task = c.task := rfl
  rw [reached, reached, ht]
  split
  · exact Activity.bus_run_of_history ((history_fetchSupplied ..).trans (history_fetchSupplied ..).symm)
  · exact Activity.bus_run_of_history ((history_fetch ..).trans (history_fetch ..).symm)

variable {bus} {t : Target}

/-- A step that decodes a slot runs what its configuration makes of it, from where the way has led. -/
theorem performed_decoded (h : c.decoded bus.memory = some t) :
    let o := c.complete c.start (c.meaning c.config t)
    c.performed bus = (on o (c.arriving t) (c.reached bus)).after (Cycle.duration (c.way t)) ∧
      c.history bus = c.way t ++ Microcode.history o (c.arriving t) (c.reached bus) := by
  rcases decoded_eq_some.1 h with ⟨ht, rfl⟩ | ⟨ht, hm, rfl⟩
  · rw [performed_instruction c bus ht, history_instruction c bus ht, value_fetching, elapsed_fetching]
    simp only [way, arriving, reached, ht, Target.duration_cycles]
    exact ⟨rfl, rfl⟩
  · have hcarried : c.carried = none := (task_eq_interrupt.1 ht).1
    simp only [way, arriving, reached, meaning, start, ht, hcarried, Cycle.duration, Target.duration_suppliedCycles]
    exact performed_followSupplied bus ht hm

end Cpu

end Z80Machine
