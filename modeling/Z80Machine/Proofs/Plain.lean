import Z80Machine.Proofs.Orderly
import Z80Machine.Proofs.Execution

/-!
What operations do not depend on. A plain operation runs in the same way whatever the interrupt state, I, R and the
halt are, and leaves them as they are. R alone matters only to the two loads from and to it, and the flags that the
last step left latched matter only to setting and complementing the carry.
-/
namespace Z80Machine

open Microcode

/-- An execution with the interrupt state, I, R and the halt of others. -/
def Execution.withControl (s : Execution) (c : Registers) : Execution :=
  { s with registers := s.registers.withControl c }

def Execution.withR (s : Execution) (x : Byte) : Execution :=
  { s with registers := { s.registers with r := x } }

theorem Orderly.run_withControl {plain : Bool} {i j : Nat} {α : Type} {m : Microcode α} (h : Orderly plain i j m)
    (hp : plain) (s : Execution) (c : Registers) :
    m (s.withControl c) = (m s).bind fun p => .done (p.1, p.2.withControl c) := by
  induction h generalizing s with
  | pure a => rfl
  | @bind i j l α γ m f hm hf ihm ihf =>
    have hfirst : (m >>= f) (s.withControl c) = (m (s.withControl c)).bind fun p => f p.1 p.2 := rfl
    have hsecond : (m >>= f) s = (m s).bind fun p => f p.1 p.2 := rfl
    rw [hfirst, hsecond, ihm, Activity.bind_assoc, Activity.bind_assoc]
    exact congrArg (Activity.bind (m s)) (funext fun p => ihf p.1 p.2)
  | @look i j γ f hcontrol hpc hf ih =>
    have hfirst : (Microcode.registers >>= f) (s.withControl c) = f (s.registers.withControl c) (s.withControl c) := rfl
    rw [hfirst, hcontrol hp]
    exact ih s.registers s
  | @update i g hcontrol hpc =>
    have hfirst : Microcode.update g (s.withControl c) =
        .done ((), { s with registers := g (s.registers.withControl c) }) := rfl
    rw [hfirst, hcontrol hp]
    rfl
  | opcode h =>
    rw [h] at hp
    contradiction
  | operand => rcases s with ⟨k, l, d, _ | bytes⟩ <;> rfl
  | _ => rfl

section Refresh

variable (config : Config) (previous : Flags)

/-- R matters only to the loads from and to it. -/
theorem Operation.execute_withR {op : Operation} (hfrom : op ≠ .transfer .loadFromR)
    (hto : op ≠ .transfer .loadToR) (s : Execution) (x : Byte) :
    op.execute config previous (s.withR x) =
      (op.execute config previous s).bind fun p => .done (p.1, p.2.withR x) := by
  by_cases hp : op.isPlain
  · have hplain := (op.orderly config previous).run_withControl hp s
    -- the control of `s` itself stays, so giving way to another R is giving way to another control
    have hself := hplain s.registers
    have hother := hplain { s.registers with r := x }
    have hs : s.withControl s.registers = s := rfl
    rw [hs] at hself
    rw [hself, Activity.bind_assoc]
    exact hother
  · cases op with
    | transfer t =>
      cases t with
      | loadFromR => exact absurd rfl hfrom
      | loadToR => exact absurd rfl hto
      | loadFromI | loadToI => rfl
      | _ => exact absurd rfl hp
    | jump j =>
      cases j with
      | returnNmi => rfl
      | _ => exact absurd rfl hp
    | control o => cases o <;> rfl
    | extension e =>
      cases e with
      | setRegister | setRegisterImmediate => rcases s with ⟨k, l, d, _ | bytes⟩ <;> rfl
      | _ => exact absurd rfl hp
    | _ => exact absurd rfl hp

/-- The latched flags matter only to setting and complementing the carry. -/
theorem Operation.execute_previous {op : Operation} (hset : op ≠ .arithmetic .setCarry)
    (hcomplement : op ≠ .arithmetic .complementCarry) (p q : Flags) :
    op.execute config p = op.execute config q := by
  cases op with
  | arithmetic a =>
    cases a with
    | setCarry => exact absurd rfl hset
    | complementCarry => exact absurd rfl hcomplement
    | _ => rfl
  | _ => rfl

end Refresh

end Z80Machine
