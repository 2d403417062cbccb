import Z80Machine.Cpu.Step

/-!
Runs of steps. A run ends after so many steps, or before that when the processor halts or a step fails.
-/
namespace Z80Machine

inductive Stop where
  | limit
  | halt
  | fault (f : Fault)
  deriving DecidableEq, Repr

structure Run (β : Type) where
  cpu : Cpu
  bus : β
  /-- The steps done, a failed one among them. -/
  steps : Nat := 0
  /-- The T-states of the steps that did not fail. -/
  time : Nat := 0
  stop : Stop := .limit

namespace Cpu

variable {β : Type} [Bus β]

/-- Goes on for at most so many steps, after `steps` steps that took `time` T-states. -/
def runOn (c : Cpu) (bus : β) (steps time : Nat) : Nat → Run β
  | 0 => { cpu := c, bus, steps, time }
  | n + 1 =>
    if c.registers.halted then { cpu := c, bus, steps, time, stop := .halt }
    else
      let s := c.step bus
      match s.result with
      | .ok t => s.cpu.runOn s.bus (steps + 1) (time + t.toNat) n
      | .error f => { cpu := s.cpu, bus := s.bus, steps := steps + 1, time, stop := .fault f }

/-- Does at most `n` steps. -/
def run (c : Cpu) (n : Nat) (bus : β) : Run β := c.runOn bus 0 0 n

/-- A run never does more steps than it was asked for. -/
theorem runOn_steps_le (c : Cpu) (bus : β) (steps time n : Nat) :
    (c.runOn bus steps time n).steps ≤ steps + n := by
  induction n generalizing c bus steps time with
  | zero => exact Nat.le_refl _
  | succ n ih =>
    by_cases h : c.registers.halted = true
    · simp [runOn, h]
    · cases hs : (c.step bus).result with
      | ok t =>
        have := ih (c.step bus).cpu (c.step bus).bus (steps + 1) (time + t.toNat)
        simp only [runOn, h, hs, Bool.false_eq_true, ↓reduceIte]
        omega
      | error f => simp [runOn, h, hs]

end Cpu

end Z80Machine
