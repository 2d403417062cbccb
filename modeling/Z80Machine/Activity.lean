import Z80Machine.Bus

/-!
What a processor does on its bus, cycle by cycle. An `Activity` receives bytes, sends bytes and lets
time pass; how long each cycle takes is a function of the cycle alone. `run` carries an activity out
on a bus and counts the T-states, telling the bus of each cycle's time right after its access.
-/
namespace Z80Machine

/-- A cycle that brings a byte in from an address or a port. -/
inductive Receive where
  | opcode (address : Word)
  | operand (address : Word)
  | memory (address : Word)
  | port (address : Word)
  deriving DecidableEq, Repr

/-- A cycle that puts a byte out. A `register` is a port written in a short cycle. -/
inductive Send where
  | memory (address : Word) (value : Byte)
  | port (address : Word) (value : Byte)
  | register (address : Word) (value : Byte)
  deriving DecidableEq, Repr

/-- Time without an access: internal work, or an instruction byte that a device supplies. -/
inductive Pause where
  | internal (n : Nat)
  | opcode (value : Byte)
  | operand (value : Byte)
  deriving DecidableEq, Repr

def Receive.time : Receive → Nat
  | .opcode _ => 4
  | .operand _ => 3
  | .memory _ => 3
  | .port _ => 4

def Send.time : Send → Nat
  | .memory _ _ => 3
  | .port _ _ => 4
  | .register _ _ => 3

def Pause.time : Pause → Nat
  | .internal n => n
  | .opcode _ => 4
  | .operand _ => 3

inductive Activity (α : Type) where
  | done (value : α)
  | receive (cycle : Receive) (next : Byte → Activity α)
  | send (cycle : Send) (next : Activity α)
  | pause (cycle : Pause) (next : Activity α)

namespace Activity

variable {α γ δ : Type}

def bind : Activity α → (α → Activity γ) → Activity γ
  | .done a, f => f a
  | .receive c next, f => .receive c fun v => (next v).bind f
  | .send c next, f => .send c (next.bind f)
  | .pause c next, f => .pause c (next.bind f)

instance : Monad Activity where
  pure := .done
  bind := bind

@[simp] theorem pure_eq (a : α) : (pure a : Activity α) = .done a := rfl

@[simp] theorem bind_eq (m : Activity α) (f : α → Activity γ) : m >>= f = m.bind f := rfl

@[simp] theorem done_bind (a : α) (f : α → Activity γ) : (done a).bind f = f a := rfl

@[simp] theorem receive_bind (c : Receive) (next : Byte → Activity α) (f : α → Activity γ) :
    (receive c next).bind f = receive c fun v => (next v).bind f := rfl

@[simp] theorem send_bind (c : Send) (next : Activity α) (f : α → Activity γ) :
    (send c next).bind f = send c (next.bind f) := rfl

@[simp] theorem pause_bind (c : Pause) (next : Activity α) (f : α → Activity γ) :
    (pause c next).bind f = pause c (next.bind f) := rfl

theorem bind_done (m : Activity α) : m.bind done = m := by
  induction m with
  | done a => rfl
  | receive c next ih => simp only [receive_bind, ih]
  | send c next ih => simp only [send_bind, ih]
  | pause c next ih => simp only [pause_bind, ih]

theorem bind_assoc (m : Activity α) (f : α → Activity γ) (g : γ → Activity δ) :
    (m.bind f).bind g = m.bind fun a => (f a).bind g := by
  induction m with
  | done a => rfl
  | receive c next ih => simp only [receive_bind, ih]
  | send c next ih => simp only [send_bind, ih]
  | pause c next ih => simp only [pause_bind, ih]

instance : LawfulMonad Activity :=
  LawfulMonad.mk' Activity (fun m => bind_done m) (fun _ _ => rfl) bind_assoc

end Activity

/-- What running an activity gives: its value, the bus afterwards and the T-states that passed. -/
structure Outcome (β α : Type) where
  value : α
  bus : β
  elapsed : Nat

namespace Outcome

variable {α β : Type}

def after (n : Nat) (o : Outcome β α) : Outcome β α := { o with elapsed := n + o.elapsed }

@[simp] theorem value_after (n : Nat) (o : Outcome β α) : (o.after n).value = o.value := rfl

@[simp] theorem bus_after (n : Nat) (o : Outcome β α) : (o.after n).bus = o.bus := rfl

@[simp] theorem elapsed_after (n : Nat) (o : Outcome β α) : (o.after n).elapsed = n + o.elapsed := rfl

theorem after_after (m n : Nat) (o : Outcome β α) : (o.after n).after m = o.after (m + n) := by
  simp [after, Nat.add_assoc]

end Outcome

section Run

variable {α β γ : Type} [Bus β]

def Receive.perform (c : Receive) (bus : β) : Byte × β :=
  match c with
  | .opcode a | .operand a | .memory a => Bus.read bus a
  | .port a => Bus.input bus a

def Send.perform (c : Send) (bus : β) : β :=
  match c with
  | .memory a v => Bus.write bus a v
  | .port a v | .register a v => Bus.output bus a v

namespace Activity

def run : Activity α → β → Outcome β α
  | .done a, bus => ⟨a, bus, 0⟩
  | .receive c next, bus =>
    let (v, bus) := c.perform bus
    ((next v).run (Bus.tick bus c.time)).after c.time
  | .send c next, bus => (next.run (Bus.tick (c.perform bus) c.time)).after c.time
  | .pause c next, bus => (next.run (Bus.tick bus c.time)).after c.time

@[simp] theorem run_done (a : α) (bus : β) : (done a).run bus = ⟨a, bus, 0⟩ := rfl

@[simp] theorem run_receive (c : Receive) (next : Byte → Activity α) (bus : β) :
    (receive c next).run bus =
      ((next (c.perform bus).1).run (Bus.tick (c.perform bus).2 c.time)).after c.time := rfl

@[simp] theorem run_send (c : Send) (next : Activity α) (bus : β) :
    (send c next).run bus = (next.run (Bus.tick (c.perform bus) c.time)).after c.time := rfl

@[simp] theorem run_pause (c : Pause) (next : Activity α) (bus : β) :
    (pause c next).run bus = (next.run (Bus.tick bus c.time)).after c.time := rfl

/-- A composed activity runs its parts one after the other, and their times add up. -/
theorem run_bind (m : Activity α) (f : α → Activity γ) (bus : β) :
    (m.bind f).run bus = ((f (m.run bus).value).run (m.run bus).bus).after (m.run bus).elapsed := by
  induction m generalizing bus with
  | done a => simp [Outcome.after]
  | receive c next ih => simp [ih, Outcome.after_after]
  | send c next ih => simp [ih, Outcome.after_after]
  | pause c next ih => simp [ih, Outcome.after_after]

end Activity

end Run

end Z80Machine
