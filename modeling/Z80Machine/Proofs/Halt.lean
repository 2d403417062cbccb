import Z80Machine.Proofs.Acceptance

/-!
What a halted processor is like. Only HALT halts it, and HALT latches no flags; nor does the idling that follows. As no
prefix is carried into a halt either, a halted processor has nothing between two steps but its registers and requests.
-/
namespace Z80Machine

open Microcode

variable {β : Type} [Bus β] (s : Execution) (bus : β)

/-- Only HALT halts the processor. -/
theorem Operation.halted_of_execute {config : Config} {previous : Flags} {op : Operation}
    (h : (on (op.execute config previous) s bus).value.2.registers.halted = true) :
    op = .control .halt ∨ s.registers.halted = true := by
  by_cases hp : op.isPlain
  · have horderly := op.orderly config previous
    rw [hp] at horderly
    have hkept : (on (op.execute config previous) s bus).value.2.registers.halted = s.registers.halted :=
      (horderly.keeps_control.comp fun p => p.1.halted).on s bus
    rw [hkept] at h
    exact .inr h
  · cases op with
    | transfer t =>
      cases t with
      | loadFromI | loadFromR | loadToI | loadToR => exact .inr h
      | _ => exact absurd rfl hp
    | jump j =>
      cases j with
      | returnNmi => exact .inr h
      | _ => exact absurd rfl hp
    | control o =>
      cases o with
      | halt => exact .inl rfl
      | _ => exact .inr h
    | extension e =>
      cases e with
      | setRegister | setRegisterImmediate => rcases s with ⟨k, l, d, _ | bytes⟩ <;> exact .inr h
      | _ => exact absurd rfl hp
    | _ => exact absurd rfl hp

namespace Cpu

variable (c : Cpu)

theorem value_of_halted {start : Word} {o : Resolution}
    (h : (on (c.complete start o) s bus).value.2.registers.halted = true) :
    s.registers.halted = true ∨ o.operation? = some (.control .halt) ∧
      (on (c.complete start o) s bus).value.1 = .ok none ∧ (on (c.complete start o) s bus).value.2.latch = s.latch := by
  cases o with
  | instruction i =>
    simp only [complete, on_bind, on_pure, Outcome.value_after] at h
    rcases Operation.halted_of_execute s bus h with hop | hs
    · refine .inr ⟨congrArg some hop, ?_⟩
      simp only [complete, hop]
      exact ⟨rfl, rfl⟩
    · exact .inl hs
  | carry i => exact .inl h
  | undefined w =>
    cases hu : c.config.undefined <;> simp only [complete, hu] at h <;> exact .inl h

variable {c}

/-- An interrupt halts the processor only if HALT is what the device supplies. -/
theorem operation?_of_halted (ht : c.task = .interrupt) (h : (c.step bus).cpu.registers.halted = true) :
    c.operation? bus = some (.control .halt) := by
  rw [registers_step] at h
  cases ho : c.resolution? bus with
  | none =>
    have hidle := (c.value_of_resolution_none bus ho).2.2.1 h
    rw [ht] at hidle
    contradiction
  | some o =>
    obtain ⟨start, s, bus', hvalue, hs⟩ :=
      c.value_of_resolution (f := fun s => s.registers.halted) bus (fun _ _ _ _ _ => rfl) ho
    rw [hvalue] at h
    rcases c.value_of_halted s bus' h with hbefore | ⟨hhalt, -⟩
    · rw [hs, entering, ht] at hbefore
      contradiction
    · rw [operation?, ho]
      exact hhalt

/-- What holds of every processor whose registers are not written from outside: EI has enabled interrupts if they wait
for it, and a halted processor has neither a prefix nor latched flags. -/
structure Settled (c : Cpu) : Prop where
  enabled : c.eiDelay = true → c.registers.iff1 = true
  halted : c.registers.halted = true → c.carried = none ∧ c.latch = .clear

theorem Settled.running (hc : c.Settled) {o : Resolution} (ho : c.resolution? bus = some o) :
    c.entering.registers.halted = false := by
  rw [entering]
  cases ht : c.task with
  | instruction carried =>
    obtain rfl := eq_carried_of_task ht
    cases hh : c.registers.halted with
    | false => exact hh
    | true =>
      have hcarried := (hc.halted hh).1
      rcases task_eq_instruction.1 ht with hprefix | ⟨-, -, hrunning⟩
      · rw [hcarried] at hprefix
        contradiction
      · rw [hh] at hrunning
        contradiction
  | interrupt => rfl
  | nmi | idle =>
    rw [resolution?, ht] at ho
    contradiction

theorem Settled.step (hc : c.Settled) : (c.step bus).cpu.Settled := by
  constructor
  · intro hdelay
    by_cases ho : c.operation? bus = some (.control .enableInterrupts)
    · exact congrArg Enables.iff1 (c.enables_step_enableInterrupts bus ho)
    · rw [(c.enables_step_of_ne bus ho).1] at hdelay
      contradiction
  · intro hhalted
    rw [registers_step] at hhalted
    rw [carried_step, latch_step]
    cases ho : c.resolution? bus with
    | none =>
      obtain ⟨hending, hclear, -⟩ := c.value_of_resolution_none bus ho
      rw [hending, hclear]
      exact ⟨rfl, rfl⟩
    | some o =>
      obtain ⟨start, s, bus', hvalue, hs⟩ :=
        c.value_of_resolution (f := fun s => (s.latch, s.registers.halted)) bus (fun _ _ _ _ _ => rfl) ho
      rw [hvalue] at hhalted ⊢
      have hrunning : s.registers.halted = false := (congrArg Prod.snd hs).trans (hc.running bus ho)
      rcases c.value_of_halted s bus' hhalted with hbefore | ⟨-, hending, hkept⟩
      · rw [hrunning] at hbefore
        contradiction
      · rw [hending, hkept]
        exact ⟨rfl, (congrArg Prod.fst hs).trans c.latch_entering⟩

end Cpu

theorem Machine.settled_stage {config : Config} {bus : β} {deeds : Nat → Deed} (hwrite : ∀ n f, deeds n ≠ .write f)
    (n : Nat) : (({ cpu := .new config, bus } : Machine β).stage deeds n).cpu.Settled := by
  induction n with
  | zero => exact ⟨nofun, nofun⟩
  | succ n ih =>
    rw [stage_succ]
    cases hd : deeds n with
    | step => exact ih.step _
    | request maskable => cases maskable <;> exact ⟨ih.enabled, ih.halted⟩
    | withdraw | supply data => exact ⟨ih.enabled, ih.halted⟩
    | reset => exact ⟨nofun, nofun⟩
    | write f => exact absurd hd (hwrite n f)

end Z80Machine
