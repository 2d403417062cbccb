import Z80Machine.Proofs.Decoding

/-!
What comes of a request. An NMI calls the routine at 0066 and an interrupt that at 0038, or in mode 2 the one whose
address stands in a table: the program counter goes on the stack, a halt is left and interrupts are disabled. In mode 0
the device's instruction runs instead, out of a halt and with interrupts disabled before it. A step that accepts nothing
is the one that would be made with nothing pending.
-/
namespace Z80Machine

open Microcode

/-- What a step does that accepts a request. -/
def Task.answering (maskable : Bool) : Task := if maskable then .interrupt else .nmi

/-- The registers where a routine begins that a request calls. -/
def Registers.called (k : Registers) (maskable : Bool) (address : Word) : Registers :=
  { k with
    halted := false
    iff1 := false
    iff2 := if maskable then false else k.iff2
    r := refreshedBy 1 k.r
    sp := k.sp - 2
    pc := address
    wz := address }

section Buses

variable {β : Type} [Bus β]

def Bus.pushed (bus : β) (sp w : Word) : β :=
  Bus.tick (Bus.write (Bus.tick (Bus.write bus (sp - 1) w.high) 3) (sp - 2) w.low) 3

def Bus.wordRead (bus : β) (a : Word) : Word × β :=
  let (low, bus) := Bus.read bus a
  let (high, bus) := Bus.read (Bus.tick bus 3) (a + 1)
  (Word.ofBytes high low, Bus.tick bus 3)

/-- The bus after the times of cycles without an access. -/
def Bus.waited (bus : β) (cs : List Cycle) : β := cs.foldl (fun b x => Bus.tick b x.time) bus

theorem Activity.bus_run_of_paused {α : Type} {m : Activity α} {bus : β}
    (h : ∀ x ∈ m.history bus, ∃ p, x = .paused p) : (m.run bus).bus = Bus.waited bus (m.history bus) := by
  induction m generalizing bus with
  | done a => rfl
  | receive c next ih =>
    obtain ⟨p, hp⟩ := h _ (List.mem_cons_self ..)
    contradiction
  | send c next ih =>
    obtain ⟨p, hp⟩ := h _ (List.mem_cons_self ..)
    contradiction
  | pause c next ih => exact ih fun x hx => h x (List.mem_cons_of_mem _ hx)

end Buses

namespace Cpu

variable {β : Type} [Bus β] (c : Cpu) (bus : β)

def answered (maskable : Bool) : Cpu :=
  if maskable then { c with interruptPending := false } else { c with nmiPending := false }

/-- The step calls the routine at `address` in `t` T-states and leaves the bus as `bus'`. -/
structure Calls (maskable : Bool) (t : Nat) (address : Word) (bus' : β) : Prop where
  result : (c.step bus).result = .ok (BitVec.ofNat 32 t)
  cpu : (c.step bus).cpu =
    { c.answered maskable with
      registers := c.registers.called maskable address
      latch := .clear
      eiDelay := false
      total := c.total.later t }
  bus : (c.step bus).bus = bus'

/-- What running an instruction gives that the device supplies: two T-states pass, its bytes are taken, and what they
lead to runs out of a halt and with interrupts disabled. The program counter stands still. -/
def supplying : Outcome β (Ending × Execution) :=
  let t := followSupplied .hl c.interruptData
  let s : Execution :=
    { registers :=
        { t.fetched c.registers with pc := c.registers.pc, halted := false, iff1 := false, iff2 := false }
      supply := some (c.interruptData.drop t.bytes) }
  let ran := on (c.complete c.registers.pc (t.resolution c.config.extensions .empty)) s
    (Bus.waited bus (.paused (.internal 2) :: t.suppliedCycles))
  ran.after (2 + t.time)

structure Executes : Prop where
  result : (c.step bus).result = (c.supplying bus).value.1.map fun _ => BitVec.ofNat 32 (c.supplying bus).elapsed
  cpu : (c.step bus).cpu =
    { (c.answered true).afterStep .interrupt (c.supplying bus).value.1 (c.supplying bus).value.2 with
      total := c.total.later (c.supplying bus).elapsed }
  bus : (c.step bus).bus = (c.supplying bus).bus

/-- The step responds to a request as is due to it and to the mode. -/
def Responds (maskable : Bool) : Prop :=
  let k := c.registers
  match maskable with
  | false => c.Calls bus false 11 0x66 (Bus.pushed (Bus.tick bus 5) k.sp k.pc)
  | true =>
    let stacked := Bus.pushed (Bus.tick bus 7) k.sp k.pc
    let entry := Bus.wordRead stacked (Word.ofBytes k.i c.vectorByte)
    if k.im = 0 then c.Executes bus
    else if k.im = 1 then c.Calls bus true 13 0x38 stacked
    else c.Calls bus true 19 entry.1 entry.2

def unasked : Cpu := { c with interruptPending := false, nmiPending := false }

section Response

variable {c bus}

theorem calls_of_performed {maskable : Bool} {t : Nat} {address : Word} {bus' : β}
    (ht : c.task = .answering maskable)
    (h : c.performed bus = ⟨(.ok none, { registers := c.registers.called maskable address }), bus', t⟩) :
    c.Calls bus maskable t address bus' := by
  constructor
  · rw [result_step, h]
    rfl
  · rw [cpu_step, h, ht]
    cases maskable with
    | false =>
      obtain ⟨hcarried, -⟩ := task_eq_nmi.1 ht
      simp [afterStep, answered, Task.answering, hcarried]
    | true =>
      obtain ⟨hcarried, -, -⟩ := task_eq_interrupt.1 ht
      simp [afterStep, answered, Task.answering, hcarried]
  · rw [bus_step, h]

theorem calls_nmi (ht : c.task = .nmi) :
    c.Calls bus false 11 0x66 (Bus.pushed (Bus.tick bus 5) c.registers.sp c.registers.pc) := by
  apply calls_of_performed ht
  rw [performed, ht]
  rfl

theorem performed_vectored (ht : c.task = .interrupt) (hm : c.registers.im ≠ 0) :
    c.performed bus = on c.vectored ⟨c.accepted, .clear, false, none⟩ bus := by
  rw [performed, ht, perform, on, c.acceptInterrupt_vectored hm]
  rfl

theorem calls_fixed (ht : c.task = .interrupt) (hm : c.registers.im = 1) :
    c.Calls bus true 13 0x38 (Bus.pushed (Bus.tick bus 7) c.registers.sp c.registers.pc) := by
  apply calls_of_performed ht
  rw [performed_vectored ht (by rw [hm]; decide), vectored, if_pos hm]
  rfl

theorem calls_vectored (ht : c.task = .interrupt) (hm : c.registers.im ≠ 0) (hm' : c.registers.im ≠ 1) :
    let stacked := Bus.pushed (Bus.tick bus 7) c.registers.sp c.registers.pc
    let entry := Bus.wordRead stacked (Word.ofBytes c.registers.i c.vectorByte)
    c.Calls bus true 19 entry.1 entry.2 := by
  intro stacked entry
  apply calls_of_performed ht
  rw [performed_vectored ht hm, vectored, if_neg hm']
  rfl

theorem executes_supplied (ht : c.task = .interrupt) (hm : c.registers.im = 0) : c.Executes bus := by
  let t := followSupplied .hl c.interruptData
  have hcycles : Microcode.history (fetchSupplied c.config.extensions .empty .hl c.interruptData)
      ⟨c.accepted, .clear, false, some []⟩ (Bus.tick bus 2) = t.suppliedCycles := history_fetchSupplied ..
  have hpaused : ∀ x ∈ t.suppliedCycles, ∃ p, x = .paused p :=
    t.forall_mem_suppliedCycles (fun v => ⟨_, rfl⟩) (fun v => ⟨_, rfl⟩) ⟨_, rfl⟩
  -- the bytes are taken without an access, so the bus is only told of their time
  have htaken : (on (fetchSupplied c.config.extensions .empty .hl c.interruptData)
      ⟨c.accepted, .clear, false, some []⟩ (Bus.tick bus 2)).bus =
        Bus.waited bus (.paused (.internal 2) :: t.suppliedCycles) := by
    rw [← hcycles] at hpaused ⊢
    exact Activity.bus_run_of_paused hpaused
  have hperformed : c.performed bus = c.supplying bus := by
    rw [(performed_followSupplied bus ht hm).1, htaken]
    rfl
  constructor
  · rw [result_step, hperformed]
  · rw [cpu_step, hperformed, ht]
    simp [afterStep, answered]
  · rw [bus_step, hperformed]

theorem responds {maskable : Bool} (ht : c.task = .answering maskable) : c.Responds bus maskable := by
  cases maskable with
  | false => exact calls_nmi ht
  | true =>
    by_cases hm : c.registers.im = 0
    · rw [Responds, if_pos hm]
      exact executes_supplied ht hm
    by_cases hm' : c.registers.im = 1
    · rw [Responds, if_neg hm, if_pos hm']
      exact calls_fixed ht hm'
    · rw [Responds, if_neg hm, if_neg hm']
      exact calls_vectored ht hm hm'

theorem Responds.calls_fixed (h : c.Responds bus true) (hm : c.registers.im = 1) :
    c.Calls bus true 13 0x38 (Bus.pushed (Bus.tick bus 7) c.registers.sp c.registers.pc) := by
  rwa [Responds, if_neg (by rw [hm]; decide), if_pos hm] at h

theorem task_unasked (h : ∀ maskable, c.task ≠ .answering maskable) : c.unasked.task = c.task := by
  cases hc : c.carried with
  | some i => simp only [task, unasked, hc]
  | none =>
    have hnmi : c.nmiPending = false := by
      rw [← Bool.not_eq_true]
      exact fun hn => h false (task_eq_nmi.2 ⟨hc, hn⟩)
    have hmasked : (c.interruptPending && c.registers.iff1 && !c.eiDelay) = false := by
      rw [← Bool.not_eq_true]
      exact fun hi => h true (task_eq_interrupt.2 ⟨hc, hnmi, hi⟩)
    simp [task, unasked, hc, hnmi, hmasked]

/-- A step that accepts nothing is the one that would be made with nothing pending. -/
theorem step_unasked (h : ∀ maskable, c.task ≠ .answering maskable) :
    let s := c.unasked.step bus
    c.step bus =
      { s with cpu := { s.cpu with interruptPending := c.interruptPending, nmiPending := c.nmiPending } } := by
  intro s
  have hperform (t : Task) : c.unasked.perform t = c.perform t := by cases t <;> rfl
  have hperformed : c.unasked.performed bus = c.performed bus := by
    rw [performed, performed, task_unasked h, hperform]
    rfl
  have hinterrupt : (c.task != .interrupt) = true := bne_iff_ne.2 (h true)
  have hnmi : (c.task != .nmi) = true := bne_iff_ne.2 (h false)
  have hresult : s.result = (c.step bus).result := by rw [result_step, result_step, hperformed]
  have hcpu : { s.cpu with interruptPending := c.interruptPending, nmiPending := c.nmiPending } =
      (c.step bus).cpu := by
    rw [cpu_step, cpu_step, hperformed]
    simp [afterStep, unasked, hinterrupt, hnmi]
  have hbus : s.bus = (c.step bus).bus := by rw [bus_step, bus_step, hperformed]
  rw [hresult, hcpu, hbus]

end Response

end Cpu

end Z80Machine
