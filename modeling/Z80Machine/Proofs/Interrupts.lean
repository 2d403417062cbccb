import Z80Machine.Proofs.Frame
import Z80Machine.Proofs.Supply

/-!
What a step does to the interrupt enables. The acceptance of an interrupt or an NMI changes them first, and then the
operation that the step executes, if there is one; EI, DI and the return from an NMI are the only operations that do.
-/
namespace Z80Machine

open Microcode

/-- The two interrupt flip-flops, and whether the last step has enabled interrupts. -/
structure Enables where
  iff1 : Bool
  iff2 : Bool
  delay : Bool
  deriving DecidableEq, Repr

def Execution.enables (s : Execution) : Enables := ⟨s.registers.iff1, s.registers.iff2, s.eiDelay⟩

theorem Keeps.enables {α : Type} {m : Microcode α} (h : Keeps Execution.control m) : Keeps Execution.enables m :=
  h.comp fun p => Enables.mk p.1.iff1 p.1.iff2 p.2

def Operation.enables (e : Enables) : Operation → Enables
  | .control .enableInterrupts => ⟨true, true, true⟩
  | .control .disableInterrupts => ⟨false, false, e.delay⟩
  | .jump .returnNmi => { e with iff1 := e.iff2 }
  | _ => e

/-- The enables after the acceptance with which a step begins, if it does. -/
def Task.enables (e : Enables) : Task → Enables
  | .nmi => ⟨false, e.iff2, false⟩
  | .interrupt => ⟨false, false, false⟩
  | .instruction _ | .idle => { e with delay := false }

def Enables.Set (e : Enables) : Prop := e.iff1 = true ∨ e.iff2 = true

section Set

variable {e : Enables}

theorem Operation.delay_enables {op : Operation} (h : op ≠ .control .enableInterrupts) (e : Enables) :
    (op.enables e).delay = e.delay := by
  cases op with
  | jump j => cases j <;> rfl
  | control o =>
    cases o with
    | enableInterrupts => exact absurd rfl h
    | _ => rfl
  | _ => rfl

theorem Operation.set_of_enables {op : Operation} (h : op ≠ .control .enableInterrupts)
    (hset : (op.enables e).Set) : e.Set := by
  cases op with
  | jump j =>
    cases j with
    | returnNmi => exact .inr (hset.elim id id)
    | _ => exact hset
  | control o =>
    cases o with
    | enableInterrupts => exact absurd rfl h
    | disableInterrupts => simp [Operation.enables, Enables.Set] at hset
    | _ => exact hset
  | _ => exact hset

theorem Task.delay_enables (t : Task) (e : Enables) : (t.enables e).delay = false := by
  cases t <;> rfl

theorem Task.set_of_enables {t : Task} (hset : (t.enables e).Set) : t ≠ .interrupt ∧ e.Set := by
  cases t with
  | instruction carried => exact ⟨nofun, hset⟩
  | nmi => exact ⟨nofun, .inr (hset.resolve_left nofun)⟩
  | interrupt => simp [Task.enables, Enables.Set] at hset
  | idle => exact ⟨nofun, hset⟩

end Set

def Resolution.operation? : Resolution → Option Operation
  | .instruction i => some i.operation
  | .carry _ | .undefined _ => none

namespace Cpu

variable {β : Type} [Bus β] (c : Cpu) (bus : β)

def enables : Enables := ⟨c.registers.iff1, c.registers.iff2, c.eiDelay⟩

/-- What a step fetches an instruction for: from memory, or in mode 0 from the device whose interrupt it accepts. -/
def resolution? : Option Resolution :=
  match c.task with
  | .instruction carried => some (on (fetch c.config.extensions carried) c.starting bus).value.1
  | .interrupt =>
    if c.registers.im = 0 then
      some (on (fetchSupplied c.config.extensions .empty .hl c.interruptData) ⟨c.accepted, .clear, false, some []⟩
        (Bus.tick bus 2)).value.1
    else none
  | .nmi | .idle => none

def operation? : Option Operation := (c.resolution? bus).bind Resolution.operation?

theorem operation?_instruction (bus : FlatBus) (h : c.task = .instruction c.carried) :
    c.operation? bus =
      ((c.target bus.memory).resolution c.config.extensions (seenBefore c.carried)).operation? := by
  have hvalue := c.value_fetching bus
  rw [fetching] at hvalue
  rw [operation?, resolution?, h, Option.bind_some, hvalue]

end Cpu

section Operations

variable {β : Type} [Bus β] (s : Execution) (bus : β)

theorem Operation.enables_of_isPlain {op : Operation} (h : op.isPlain) (e : Enables) : op.enables e = e := by
  cases op with
  | jump j =>
    cases j with
    | returnNmi => contradiction
    | _ => rfl
  | control o => contradiction
  | _ => rfl

theorem Operation.enables_execute (config : Config) (previous : Flags) (op : Operation) :
    (on (op.execute config previous) s bus).value.2.enables = op.enables s.enables := by
  by_cases hp : op.isPlain
  · have horderly := op.orderly config previous
    rw [hp] at horderly
    rw [enables_of_isPlain hp]
    exact horderly.keeps_control.enables.on s bus
  · cases op with
    | transfer t =>
      cases t with
      | loadFromI | loadFromR | loadToI | loadToR => rfl
      | _ => exact absurd rfl hp
    | jump j =>
      cases j with
      | returnNmi =>
        have hback : (on goBack s bus).value.2.enables = s.enables :=
          orderly_goBack.keeps_control.enables.on s bus
        have hiff2 : (on goBack s bus).value.2.registers.iff2 = s.registers.iff2 := congrArg Enables.iff2 hback
        have hdelay : (on goBack s bus).value.2.eiDelay = s.eiDelay := congrArg Enables.delay hback
        simp only [Operation.execute, Jump.execute, on_bind, on_update, Execution.enables, Operation.enables,
          Outcome.value_after, hiff2, hdelay]
      | _ => exact absurd rfl hp
    | control o => cases o <;> rfl
    | extension e =>
      cases e with
      | setRegister | setRegisterImmediate => rcases s with ⟨k, l, d, _ | bytes⟩ <;> rfl
      | _ => exact absurd rfl hp
    | _ => exact absurd rfl hp

end Operations

namespace Cpu

section Tasks

variable {β : Type} [Bus β] (c : Cpu) (s : Execution) (bus : β)

theorem enables_complete (start : Word) (o : Resolution) :
    (on (c.complete start o) s bus).value.2.enables = o.operation?.elim s.enables (·.enables s.enables) := by
  cases o with
  | instruction i =>
    simp only [complete, on_bind, on_pure, Outcome.value_after, Operation.enables_execute]
    rfl
  | carry i => rfl
  | undefined w => cases h : c.config.undefined <;> simp only [complete, h] <;> rfl

/-- Where an execution stands when the fetch of its instruction begins. -/
def entering : Execution :=
  match c.task with
  | .interrupt => ⟨c.accepted, .clear, false, some []⟩
  | _ => c.starting

theorem latch_entering : c.entering.latch = .clear := by
  rw [entering]
  cases c.task <;> rfl

variable {c bus} in
theorem im_ne_zero (ht : c.task = .interrupt) (h : c.resolution? bus = none) : c.registers.im ≠ 0 := by
  intro hm
  simp only [resolution?, ht, hm, ↓reduceIte] at h
  contradiction

/-- An instruction runs from where its fetch has left the processor. -/
theorem value_of_resolution {δ : Type} {f : Execution → δ}
    (hf : ∀ (s : Execution) (pc : Word) (r : Byte) (wz : Word) (supply : Option (List Byte)),
      f { s with registers := { s.registers with pc := pc, r := r, wz := wz }, supply := supply } = f s)
    {o : Resolution} (h : c.resolution? bus = some o) :
    ∃ start s bus', (c.performed bus).value = (on (c.complete start o) s (bus' : β)).value ∧ f s = f c.entering := by
  cases ht : c.task with
  | instruction carried =>
    obtain rfl := eq_carried_of_task ht
    let fetched := on (fetch c.config.extensions c.carried) c.starting bus
    have hkept : f fetched.value.2 = f c.starting := (keeps_fetch c.config.extensions hf c.carried).on c.starting bus
    have hperformed : c.performed bus =
        on (fetch c.config.extensions c.carried >>= c.complete c.start) c.starting bus := by
      rw [performed, ht, perform, on, runInstruction_starting]
      rfl
    rw [resolution?, ht] at h
    obtain rfl := Option.some.inj h
    rw [entering, ht]
    refine ⟨c.start, fetched.value.2, fetched.bus, ?_, hkept⟩
    rw [hperformed, on_bind, Outcome.value_after]
  | interrupt =>
    by_cases hm : c.registers.im = 0
    · let s : Execution := ⟨c.accepted, .clear, false, some []⟩
      let fetched := on (fetchSupplied c.config.extensions .empty .hl c.interruptData) s (Bus.tick bus 2)
      have hkept : f fetched.value.2 = f s :=
        (keeps_fetchSupplied c.config.extensions hf .empty .hl c.interruptData).on s (Bus.tick bus 2)
      have hperformed : (c.performed bus).value =
          (on (fetchSupplied c.config.extensions .empty .hl c.interruptData >>= c.complete c.registers.pc) s
            (Bus.tick bus 2)).value := by
        rw [performed, ht, perform, on, c.acceptInterrupt_eq hm]
        rfl
      rw [resolution?, ht] at h
      simp only [hm, ↓reduceIte] at h
      obtain rfl := Option.some.inj h
      rw [entering, ht]
      refine ⟨c.registers.pc, fetched.value.2, fetched.bus, ?_, hkept⟩
      rw [hperformed, on_bind, Outcome.value_after]
    · rw [resolution?, ht] at h
      simp only [hm, ↓reduceIte] at h
      contradiction
  | nmi | idle =>
    rw [resolution?, ht] at h
    contradiction

theorem value_acceptInterrupt (hm : c.registers.im ≠ 0) :
    let p := (on c.acceptInterrupt c.starting bus).value
    p.1 = .ok none ∧ p.2.latch = .clear ∧ p.2.registers.halted = false ∧ p.2.enables = ⟨false, false, false⟩ := by
  rw [on, c.acceptInterrupt_vectored hm, vectored]
  split <;> exact ⟨rfl, rfl, rfl, rfl⟩

/-- A step without an instruction carries no prefix and latches no flags, and only in idling is the processor halted
afterwards. -/
theorem value_of_resolution_none (h : c.resolution? bus = none) :
    let p := (c.performed bus).value
    p.1 = .ok none ∧ p.2.latch = .clear ∧ (p.2.registers.halted = true → c.task = .idle) ∧
      p.2.enables = c.task.enables c.enables := by
  rw [performed]
  cases ht : c.task with
  | instruction carried =>
    rw [resolution?, ht] at h
    contradiction
  | nmi => exact ⟨rfl, rfl, fun hhalted => absurd hhalted Bool.false_ne_true, rfl⟩
  | interrupt =>
    obtain ⟨hending, hlatch, hrunning, henables⟩ := c.value_acceptInterrupt bus (im_ne_zero ht h)
    exact ⟨hending, hlatch, fun hhalted => absurd (hrunning.symm.trans hhalted) Bool.false_ne_true, henables⟩
  | idle => exact ⟨rfl, rfl, fun _ => rfl, rfl⟩

end Tasks

variable {β : Type} [Bus β] (c : Cpu) (bus : β)

/-- The enables after a step: first the acceptance has its way with them, and then the operation. -/
theorem enables_step :
    (c.step bus).cpu.enables =
      (c.operation? bus).elim (c.task.enables c.enables) (·.enables (c.task.enables c.enables)) := by
  have hperformed : (c.step bus).cpu.enables = (c.performed bus).value.2.enables := by
    rw [cpu_step]
    rfl
  rw [hperformed]
  cases ho : c.resolution? bus with
  | some o =>
    obtain ⟨start, s, bus', hvalue, hs⟩ := c.value_of_resolution (f := Execution.enables) bus (fun _ _ _ _ _ => rfl) ho
    have hentering : c.entering.enables = c.task.enables c.enables := by
      rw [entering]
      cases ht : c.task with
      | nmi =>
        rw [resolution?, ht] at ho
        contradiction
      | _ => rfl
    rw [hvalue, enables_complete, hs, hentering, operation?, ho]
    rfl
  | none =>
    rw [operation?, ho]
    exact (c.value_of_resolution_none bus ho).2.2.2

theorem enables_step_enableInterrupts (h : c.operation? bus = some (.control .enableInterrupts)) :
    (c.step bus).cpu.enables = ⟨true, true, true⟩ := by
  rw [enables_step, h]
  rfl

/-- Without EI a flip-flop is set only where one was set before, and an interrupt leaves none; nor is there a delay. -/
theorem enables_step_of_ne (h : c.operation? bus ≠ some (.control .enableInterrupts)) :
    (c.step bus).cpu.eiDelay = false ∧
      ((c.step bus).cpu.registers.iff1 = true ∨ (c.step bus).cpu.registers.iff2 = true →
        c.task ≠ .interrupt ∧ (c.registers.iff1 = true ∨ c.registers.iff2 = true)) := by
  have hstep := c.enables_step bus
  have hdelay : (c.step bus).cpu.eiDelay = (c.step bus).cpu.enables.delay := rfl
  have hiff1 : (c.step bus).cpu.registers.iff1 = (c.step bus).cpu.enables.iff1 := rfl
  have hiff2 : (c.step bus).cpu.registers.iff2 = (c.step bus).cpu.enables.iff2 := rfl
  have htask : (c.task.enables c.enables).Set → c.task ≠ .interrupt ∧ c.enables.Set := c.task.set_of_enables
  rw [hdelay, hiff1, hiff2, hstep]
  cases ho : c.operation? bus with
  | none => exact ⟨c.task.delay_enables c.enables, htask⟩
  | some op =>
    have hne : op ≠ .control .enableInterrupts := fun he => h (by rw [ho, he])
    have hoperation : (op.enables (c.task.enables c.enables)).delay = (c.task.enables c.enables).delay :=
      op.delay_enables hne _
    exact ⟨hoperation.trans (c.task.delay_enables c.enables), fun hset => htask (op.set_of_enables hne hset)⟩

end Cpu

end Z80Machine
