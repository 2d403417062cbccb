import Z80Machine.Proofs.Halt
import Z80Machine.Proofs.Latching
import Z80Machine.Proofs.Sourcing

/-!
What is true of a processor between two steps. The parts of its state outside the registers hang together with each
other and with the interrupt state: a prefix is carried only into a processor that is running, with no interrupts
waiting for EI and no flags latched. Every step keeps it so, failed ones too, as does everything that its surroundings
can do short of writing into registers at will.
-/
namespace Z80Machine

open Microcode

/-- The interrupt mode is one of the three that there are. -/
def Registers.HasMode (k : Registers) : Prop := k.im = 0 ∨ k.im = 1 ∨ k.im = 2

/-- A maskable interrupt is enabled only where the flip-flop that survives an NMI is set as well. -/
def Enables.Ordered (e : Enables) : Prop := e.iff1 = true → e.iff2 = true

/-- The flags latched are none, or those in F. -/
def Execution.HasLatch (s : Execution) : Prop := s.latch = .clear ∨ s.latch = s.registers.f

section Operations

variable {β : Type} [Bus β] {s : Execution} (bus : β)

theorem Operation.hasMode_execute (config : Config) (previous : Flags) (op : Operation) (h : s.registers.HasMode) :
    (on (op.execute config previous) s bus).value.2.registers.HasMode := by
  by_cases hp : op.isPlain
  · have horderly := op.orderly config previous
    rw [hp] at horderly
    have hkept : (on (op.execute config previous) s bus).value.2.registers.im = s.registers.im :=
      (horderly.keeps_control.comp fun p => p.1.im).on s bus
    rw [Registers.HasMode, hkept]
    exact h
  · cases op with
    | transfer t =>
      cases t with
      | loadFromI | loadFromR | loadToI | loadToR => exact h
      | _ => exact absurd rfl hp
    | jump j =>
      cases j with
      | returnNmi => exact h
      | _ => exact absurd rfl hp
    | control o =>
      cases o with
      | interruptMode mode =>
        have hmodes : ∀ n : Fin 3, BitVec.ofNat 8 n.val = 0 ∨ BitVec.ofNat 8 n.val = 1 ∨ BitVec.ofNat 8 n.val = 2 := by
          decide
        exact hmodes mode
      | _ => exact h
    | extension e =>
      cases e with
      | setRegister | setRegisterImmediate => rcases s with ⟨k, l, d, _ | bytes⟩ <;> exact h
      | _ => exact absurd rfl hp
    | _ => exact absurd rfl hp

theorem Operation.hasLatch_execute (config : Config) (previous : Flags) (op : Operation) (h : s.latch = .clear) :
    (on (op.execute config previous) s bus).value.2.HasLatch := by
  have hlatch := op.latch_execute s bus config previous
  cases hsets : op.setsFlags with
  | true => exact .inr (by simpa [hsets] using hlatch)
  | false => exact .inl (by simpa [hsets, h] using hlatch)

theorem Task.ordered_enables {e : Enables} (h : e.Ordered) (t : Task) : (t.enables e).Ordered := by
  cases t with
  | nmi | interrupt => exact nofun
  | instruction carried | idle => exact h

theorem Operation.ordered_enables {e : Enables} (h : e.Ordered) (op : Operation) : (op.enables e).Ordered := by
  cases op with
  | control o =>
    cases o with
    | enableInterrupts => exact fun _ => rfl
    | disableInterrupts => exact nofun
    | _ => exact h
  | jump j =>
    cases j with
    | returnNmi => exact id
    | _ => exact h
  | _ => exact h

end Operations

namespace Cpu

variable {β : Type} [Bus β] {c : Cpu} (bus : β)

theorem resolution?_of_carried_step {i : Index} (h : (c.step bus).cpu.carried = some i) :
    c.resolution? bus = some (.carry i) := by
  rw [carried_step] at h
  cases ho : c.resolution? bus with
  | none =>
    rw [(c.value_of_resolution_none bus ho).1] at h
    contradiction
  | some o =>
    obtain ⟨start, s, bus', hvalue, -⟩ := c.value_of_resolution (f := fun _ => ()) bus (fun _ _ _ _ _ => rfl) ho
    rw [hvalue] at h
    cases o with
    | instruction i =>
      simp only [complete, on_bind, on_pure, Outcome.value_after, reduceCtorEq] at h
    | carry j =>
      obtain rfl := Option.some.inj h
      rfl
    | undefined w => cases hu : c.config.undefined <;> simp only [complete, hu, on_pure, reduceCtorEq] at h

/-- What a step ends with, if fetching does not touch it: it is brought about by the operation, or by the acceptance if
the step executes nothing. -/
theorem performed_of {P Q : Execution → Prop}
    (hfetch : ∀ (s : Execution) (pc : Word) (r : Byte) (wz : Word) (supply : Option (List Byte)),
      P { s with registers := { s.registers with pc := pc, r := r, wz := wz }, supply := supply } = P s)
    (hentering : P c.entering) (hkept : ∀ s, P s → Q s)
    (hoperation : ∀ (op : Operation) (s : Execution) (bus : β), P s →
      Q (on (op.execute c.config c.latch) s bus).value.2)
    (hnone : c.resolution? bus = none → Q (c.performed bus).value.2) : Q (c.performed bus).value.2 := by
  cases ho : c.resolution? bus with
  | none => exact hnone ho
  | some o =>
    obtain ⟨start, s, bus', hvalue, hs⟩ := c.value_of_resolution (f := P) bus hfetch ho
    have hstart : P s := hs.mpr hentering
    rw [hvalue]
    cases o with
    | instruction i =>
      simp only [complete, on_bind, on_pure, Outcome.value_after]
      exact hoperation i.operation s bus' hstart
    | carry i => exact hkept s hstart
    | undefined w => cases hu : c.config.undefined <;> simp only [complete, hu] <;> exact hkept s hstart

theorem im_of_resolution_none (h : c.resolution? bus = none) :
    (c.performed bus).value.2.registers.im = c.registers.im := by
  rw [performed]
  cases ht : c.task with
  | instruction carried =>
    rw [resolution?, ht] at h
    contradiction
  | nmi | idle => rfl
  | interrupt =>
    rw [perform, on, c.acceptInterrupt_vectored (im_ne_zero ht h), vectored]
    split <;> rfl

theorem hasMode_step (h : c.registers.HasMode) : (c.step bus).cpu.registers.HasMode := by
  have hentering : c.entering.registers.HasMode := by
    rw [entering]
    cases c.task <;> exact h
  rw [registers_step]
  refine performed_of (P := fun s => s.registers.HasMode) (Q := fun s => s.registers.HasMode) bus
    (fun _ _ _ _ _ => rfl) hentering (fun _ hs => hs) (fun op s bus' hs => op.hasMode_execute bus' _ _ hs) fun ho => ?_
  rw [Registers.HasMode, im_of_resolution_none bus ho]
  exact h

theorem hasLatch_step :
    (c.step bus).cpu.latch = .clear ∨ (c.step bus).cpu.latch = (c.step bus).cpu.registers.f := by
  rw [latch_step, registers_step]
  exact performed_of (P := fun s => s.latch = .clear) (Q := Execution.HasLatch) bus (fun _ _ _ _ _ => rfl)
    c.latch_entering (fun _ hs => .inl hs) (fun op s bus' hs => op.hasLatch_execute bus' _ _ hs)
    fun ho => .inl (c.value_of_resolution_none bus ho).2.1

theorem ordered_step (h : c.enables.Ordered) : (c.step bus).cpu.enables.Ordered := by
  rw [enables_step]
  cases c.operation? bus with
  | none => exact c.task.ordered_enables h
  | some op => exact op.ordered_enables (c.task.ordered_enables h)

/-- The parts of a processor between two steps agree with each other, besides what makes it settled: EI has enabled
interrupts if they wait for it, and a halted processor carries no prefix. -/
structure Consistent (c : Cpu) : Prop extends Settled c where
  /-- No bytes are left over from a device: only a step that accepts an interrupt in mode 0 takes any from there. -/
  unfed : ∀ (β : Type) [Bus β] (bus : β), ∀ x ∈ c.history bus, x.OfSource c.takesSupply
  carried : c.carried = none ∨ c.carried = some .ix ∨ c.carried = some .iy
  running : c.carried.isSome = true → c.registers.halted = false ∧ c.eiDelay = false ∧ c.latch = .clear
  ordered : c.registers.iff1 = true → c.registers.iff2 = true
  mode : c.registers.im = 0 ∨ c.registers.im = 1 ∨ c.registers.im = 2
  latched : c.latch = .clear ∨ c.latch = c.registers.f

theorem carried_cases (c : Cpu) : c.carried = none ∨ c.carried = some .ix ∨ c.carried = some .iy := by
  rcases c.carried with _ | _ | _ <;> simp

theorem Settled.consistent {c : Cpu} (hsettled : c.Settled)
    (running : c.carried.isSome = true → c.registers.halted = false ∧ c.eiDelay = false ∧ c.latch = .clear)
    (ordered : c.registers.iff1 = true → c.registers.iff2 = true) (mode : c.registers.HasMode)
    (latched : c.latch = .clear ∨ c.latch = c.registers.f) : c.Consistent :=
  ⟨hsettled, fun _ _ bus => c.ofSource_step bus, c.carried_cases, running, ordered, mode, latched⟩

/-- A step that carries a prefix out has fetched it and done nothing else. -/
theorem Settled.running_step (hc : c.Settled) (h : (c.step bus).cpu.carried.isSome = true) :
    (c.step bus).cpu.registers.halted = false ∧ (c.step bus).cpu.eiDelay = false ∧
      (c.step bus).cpu.latch = .clear := by
  obtain ⟨i, hi⟩ := Option.isSome_iff_exists.1 h
  have ho := resolution?_of_carried_step bus hi
  have hrunning : (c.step bus).cpu.registers.halted = false := by
    cases hh : (c.step bus).cpu.registers.halted with
    | false => rfl
    | true =>
      have hcarried := ((hc.step bus).halted hh).1
      rw [hi] at hcarried
      contradiction
  have hoperation : c.operation? bus ≠ some (.control .enableInterrupts) := by
    simp [operation?, ho, Resolution.operation?]
  obtain ⟨start, s, bus', hvalue, hs⟩ :=
    c.value_of_resolution (f := Execution.latch) bus (fun _ _ _ _ _ => rfl) ho
  have hlatch : (c.step bus).cpu.latch = .clear := by
    rw [latch_step, hvalue]
    exact Eq.trans hs c.latch_entering
  exact ⟨hrunning, (c.enables_step_of_ne bus hoperation).1, hlatch⟩

theorem Consistent.step (hc : c.Consistent) : (c.step bus).cpu.Consistent :=
  (hc.toSettled.step bus).consistent (hc.toSettled.running_step bus) (ordered_step bus hc.ordered)
    (hasMode_step bus hc.mode) (hasLatch_step bus)

theorem consistent_new (config : Config) : (new config).Consistent :=
  Settled.consistent ⟨nofun, nofun⟩ nofun nofun (.inl rfl) (.inl rfl)

theorem consistent_reset (c : Cpu) : c.reset.Consistent :=
  Settled.consistent ⟨nofun, nofun⟩ nofun nofun (.inl rfl) (.inl rfl)

end Cpu

/-- Of the registers only the program counter and the stack pointer are written from outside. -/
def Deed.WritesPointers : Deed → Prop
  | .write f =>
    (∃ a : Word, f = fun k => { k with pc := a }) ∨ ∃ a : Word, f = fun k => { k with sp := a }
  | .step | .request _ | .withdraw | .supply _ | .reset => True

namespace Machine

variable {β : Type} [Bus β]

theorem consistent_after {m : Machine β} (hc : m.cpu.Consistent) {d : Deed} (hd : d.WritesPointers) :
    (m.after d).cpu.Consistent := by
  cases d with
  | step => exact hc.step m.bus
  | reset => exact m.cpu.consistent_reset
  | request maskable =>
    cases maskable <;>
      exact Cpu.Settled.consistent ⟨hc.enabled, hc.halted⟩ hc.running hc.ordered hc.mode hc.latched
  | withdraw | supply data =>
    exact Cpu.Settled.consistent ⟨hc.enabled, hc.halted⟩ hc.running hc.ordered hc.mode hc.latched
  | write f =>
    obtain ⟨a, rfl⟩ | ⟨a, rfl⟩ := hd <;>
      exact Cpu.Settled.consistent ⟨hc.enabled, hc.halted⟩ hc.running hc.ordered hc.mode hc.latched

/-- In every course from power-on in which registers other than the two pointers are not written from outside, the
processor is consistent before every deed. -/
theorem consistent_stage (config : Config) (bus : β) (deeds : Nat → Deed) (hdeeds : ∀ n, (deeds n).WritesPointers)
    (n : Nat) : (({ cpu := .new config, bus } : Machine β).stage deeds n).cpu.Consistent := by
  induction n with
  | zero => exact Cpu.consistent_new config
  | succ n ih => exact consistent_after ih (hdeeds n)

/-- Two prefixes are run from an address set from outside while an interrupt waits. The second one is carried, with the
processor running and no flags latched. -/
theorem consistent_stage_prefixes :
    let m : Machine FlatBus :=
      { cpu := .new .extended, bus := { memory := (Memory.zero.set 0x10 0xDD).set 0x11 0xFD } }
    let deeds : Nat → Deed
      | 0 => .write fun k => { k with pc := 0x10 }
      | 1 => .request true
      | _ => .step
    let c := (m.stage deeds 3).cpu
    c.carried = some .iy ∧ c.registers.halted = false ∧ c.eiDelay = false ∧ c.latch = .clear := by
  intro m deeds c
  have hcarried : c.carried = some .iy := by decide +kernel
  have hdeeds (n : Nat) : (deeds n).WritesPointers := by
    rcases n with _ | _ | n
    · exact .inl ⟨0x10, rfl⟩
    · exact trivial
    · exact trivial
  have hc : c.Consistent := consistent_stage .extended m.bus deeds hdeeds 3
  exact ⟨hcarried, hc.running (by rw [hcarried]; rfl)⟩

end Machine

end Z80Machine
