import Z80Machine.Proofs.Traffic

/-!
Where the bytes of an instruction come from. Microcode takes them from a supply if there is one and else from memory,
and a supply lasts for the one step that has begun with it. So the only step that takes bytes from a device is the one
that accepts an interrupt in mode 0, and no other has anything of them left to read.
-/
namespace Z80Machine

open Microcode

/-- Whether a cycle can be one of an execution with or without a supply: bytes of an instruction come from the supply
if there is one, and else from memory. -/
def Cycle.OfSource (fed : Bool) : Cycle → Prop
  | .received (.opcode _) _ | .received (.operand _) _ => fed = false
  | .paused (.opcode _) | .paused (.operand _) => fed = true
  | _ => True

theorem Cycle.OfSource.isCode {x : Cycle} (h : x.OfSource true) : x.isCode = false := by
  cases x with
  | received c v =>
    cases c with
    | opcode | operand => contradiction
    | memory | port => rfl
  | sent | paused => rfl

/-- Microcode keeps to its source: it takes bytes from nowhere else, and neither drops a supply nor brings one in. -/
def Sourced (fed : Bool) {α : Type} (m : Microcode α) : Prop :=
  ∀ (β : Type) [Bus β] (s : Execution) (bus : β), s.supply.isSome = fed →
    (on m s bus).value.2.supply.isSome = fed ∧ ∀ x ∈ history m s bus, x.OfSource fed

section Sourced

variable {fed : Bool} {α γ : Type}

theorem Sourced.bind {m : Microcode α} {f : α → Microcode γ} (hm : Sourced fed m) (hf : ∀ a, Sourced fed (f a)) :
    Sourced fed (m >>= f) := by
  intro β _ s bus hs
  obtain ⟨hsupply, hfirst⟩ := hm β s bus hs
  obtain ⟨hsupply', hsecond⟩ := hf (on m s bus).value.1 β (on m s bus).value.2 (on m s bus).bus hsupply
  rw [on_bind, history_bind, List.forall_mem_append]
  exact ⟨hsupply', hfirst, hsecond⟩

theorem sourced_opcode : Sourced fed opcode := by
  rintro β _ ⟨k, l, d, _ | bytes⟩ bus rfl <;> exact ⟨rfl, List.forall_mem_singleton.2 rfl⟩

theorem sourced_operand : Sourced fed operand := by
  rintro β _ ⟨k, l, d, _ | bytes⟩ bus rfl <;> exact ⟨rfl, List.forall_mem_singleton.2 rfl⟩

theorem sourced_takeOpcode (v : Byte) : Sourced true (takeOpcode v) :=
  fun _ _ _ _ hs => ⟨hs, List.forall_mem_singleton.2 rfl⟩

theorem Orderly.sourced {plain : Bool} {i j : Nat} {m : Microcode α} (h : Orderly plain i j m) : Sourced fed m := by
  induction h with
  | bind hm hf ihm ihf => exact ihm.bind ihf
  | look hcontrol hpc hf ih => exact fun β _ s bus hs => ih s.registers β s bus hs
  | opcode h => exact sourced_opcode
  | operand => exact sourced_operand
  | receiveMemory | receivePort | sendMemory | sendPort | sendRegister | pause =>
    exact fun _ _ _ _ hs => ⟨hs, List.forall_mem_singleton.2 trivial⟩
  | pure | update | setFlags | enable => exact fun _ _ _ _ hs => ⟨hs, List.forall_mem_nil _⟩

theorem Opening.sourced (extensions : Bool) (o : Opening) (seen : Window) : Sourced fed (o.resolve extensions seen) :=
  (o.orderly extensions seen 0).sourced

theorem sourced_fetchIndexed (extensions : Bool) (seen : Window) (i : Index) :
    Sourced fed (fetchIndexed extensions seen i) :=
  sourced_opcode.bind fun _ => Opening.sourced extensions _ _

theorem sourced_fetch (extensions : Bool) (carried : Option Index) : Sourced fed (fetch extensions carried) := by
  cases carried with
  | some i => exact sourced_fetchIndexed extensions _ i
  | none =>
    refine sourced_opcode.bind fun v => ?_
    split
    · exact sourced_fetchIndexed extensions _ _
    · exact Opening.sourced extensions _ _

/-- Bytes that are supplied do not come from memory, also past their end. -/
theorem sourced_fetchSupplied (extensions : Bool) (seen : Window) (b : Base) (bytes : List Byte) :
    Sourced true (fetchSupplied extensions seen b bytes) := by
  induction bytes generalizing seen b with
  | nil => exact (sourced_takeOpcode 0xFF).bind fun _ => Opening.sourced extensions _ _
  | cons v rest ih =>
    refine (sourced_takeOpcode v).bind fun _ => ?_
    split
    · exact ih _ _
    · have hrest : Sourced true (modify fun s => { s with supply := some rest }) := fun _ _ _ _ _ =>
        ⟨rfl, List.forall_mem_nil _⟩
      exact hrest.bind fun _ => Opening.sourced extensions _ _

end Sourced

namespace Cpu

variable (c : Cpu)

theorem sourced_complete {fed : Bool} (start : Word) (o : Resolution) : Sourced fed (c.complete start o) := by
  obtain ⟨plain, horderly⟩ := c.complete_orderly start o
  exact horderly.sourced

/-- Whether the next step takes its instruction from a device. -/
def takesSupply : Bool := c.task == .interrupt && c.registers.im == 0

variable {c} in
theorem takesSupply_iff : c.takesSupply = true ↔ c.task = .interrupt ∧ c.registers.im = 0 := by
  simp [takesSupply]

/-- A step that accepts an interrupt in mode 0 takes all bytes of its instruction from the device, and any other step
takes them from memory. -/
theorem ofSource_step {β : Type} [Bus β] (bus : β) : ∀ x ∈ c.history bus, x.OfSource c.takesSupply := by
  rw [history_eq]
  cases ht : c.task with
  | instruction carried =>
    have htakes : c.takesSupply = false := by simp [takesSupply, ht]
    obtain rfl := eq_carried_of_task ht
    rw [htakes, perform, Microcode.history, runInstruction_starting]
    exact (((sourced_fetch _ _).bind fun o => c.sourced_complete c.start o) β c.starting bus rfl).2
  | nmi =>
    have htakes : c.takesSupply = false := by simp [takesSupply, ht]
    rw [htakes]
    exact (makes_acceptNmi (fun _ => trivial) (fun _ _ => trivial) c.starting).history bus
  | interrupt =>
    rw [perform, Microcode.history]
    by_cases hm : c.registers.im = 0
    · rw [takesSupply_iff.2 ⟨ht, hm⟩, c.acceptInterrupt_eq hm]
      have hsupplied := (sourced_fetchSupplied c.config.extensions .empty .hl c.interruptData).bind
        fun o => c.sourced_complete c.registers.pc o
      exact List.forall_mem_cons.2 ⟨trivial, (hsupplied β _ _ rfl).2⟩
    · have htakes : c.takesSupply = false := by simpa [takesSupply, ht] using hm
      rw [htakes, c.acceptInterrupt_vectored hm]
      exact (c.makes_vectored (fun _ => trivial) (fun _ _ => trivial) (fun _ _ => trivial) _).history bus
  | idle =>
    have htakes : c.takesSupply = false := by simp [takesSupply, ht]
    rw [htakes]
    exact List.forall_mem_singleton.2 rfl

end Cpu

end Z80Machine
