import Z80Machine.Proofs.SuppliedTarget

/-!
The traffic of a step. `Makes P` says of microcode that all its cycles have `P`, whatever bytes come in. A step reads
its opcode bytes first; all its other cycles are such as an operation makes, which brings in no opcode bytes and takes
short cycles at ports only to write a machine register.
-/
namespace Z80Machine

open Microcode

/-- Every cycle on every way has `P`. -/
def Activity.Makes {α : Type} (P : Cycle → Prop) : Activity α → Prop
  | .done _ => True
  | .receive c next => ∀ v, P (.received c v) ∧ (next v).Makes P
  | .send c next => P (.sent c) ∧ next.Makes P
  | .pause c next => P (.paused c) ∧ next.Makes P

/-- Every cycle of the microcode has `P`, from whatever execution. -/
def Makes {α : Type} (P : Cycle → Prop) (m : Microcode α) : Prop := ∀ s, (m s).Makes P

section Makes

variable {α γ : Type} {P : Cycle → Prop}

theorem Activity.Makes.history {β : Type} [Bus β] {m : Activity α} (h : m.Makes P) (bus : β) :
    ∀ c ∈ m.history bus, P c := by
  induction m generalizing bus with
  | done a => exact List.forall_mem_nil _
  | receive c next ih =>
    obtain ⟨hc, hnext⟩ := h (c.perform bus).1
    exact List.forall_mem_cons.2 ⟨hc, ih _ hnext _⟩
  | send c next ih => exact List.forall_mem_cons.2 ⟨h.1, ih h.2 _⟩
  | pause c next ih => exact List.forall_mem_cons.2 ⟨h.1, ih h.2 _⟩

theorem Activity.Makes.bind {m : Activity α} {f : α → Activity γ} (hm : m.Makes P) (hf : ∀ a, (f a).Makes P) :
    (m.bind f).Makes P := by
  induction m with
  | done a => exact hf a
  | receive c next ih =>
    intro v
    exact ⟨(hm v).1, ih v (hm v).2⟩
  | send c next ih => exact ⟨hm.1, ih hm.2⟩
  | pause c next ih => exact ⟨hm.1, ih hm.2⟩

theorem makes_pure (a : α) : Makes P (pure a : Microcode α) := fun _ => trivial

theorem Makes.bind {m : Microcode α} {f : α → Microcode γ} (hm : Makes P m) (hf : ∀ a, Makes P (f a)) :
    Makes P (m >>= f) :=
  fun s => (hm s).bind fun p => hf p.1 p.2

theorem makes_look {f : Registers → Microcode γ} (hf : ∀ k, Makes P (f k)) : Makes P (registers >>= f) :=
  fun s => hf s.registers s

theorem Activity.Makes.imp {Q : Cycle → Prop} (h : ∀ x, P x → Q x) {m : Activity α} (hm : m.Makes P) : m.Makes Q := by
  induction m with
  | done a => trivial
  | receive c next ih => exact fun v => ⟨h _ (hm v).1, ih v (hm v).2⟩
  | send c next ih => exact ⟨h _ hm.1, ih hm.2⟩
  | pause c next ih => exact ⟨h _ hm.1, ih hm.2⟩

end Makes

/-- Whether a cycle can be one of an operation: it brings in no opcode byte, and a port is written in a short cycle or
not. -/
def Cycle.OfOperation (short : Bool) : Cycle → Prop
  | .received (.opcode _) _ => False
  | .sent (.port _ _) => short = false
  | .sent (.register _ _) => short = true
  | _ => True

/-- The opcode byte that a cycle brings in, from memory or from a device. -/
def Cycle.opcode? : Cycle → Option Byte
  | .received (.opcode _) v | .paused (.opcode v) => some v
  | _ => none

section Operations

variable {short : Bool}

theorem makes_operand : Makes (fun x => x.OfOperation short ∧ x.opcode? = none) operand := by
  rintro ⟨k, l, d, _ | bytes⟩
  · exact fun _ => ⟨⟨trivial, rfl⟩, trivial⟩
  · exact ⟨⟨trivial, rfl⟩, trivial⟩

theorem makes_sendRegister (a : Word) (v : Byte) :
    Makes (fun x => x.OfOperation true ∧ x.opcode? = none) (send (.register a v)) :=
  fun _ => ⟨⟨rfl, rfl⟩, trivial⟩

theorem Orderly.makes {i j : Nat} {α : Type} {m : Microcode α} (h : Orderly true i j m) :
    Makes (fun x => x.OfOperation false ∧ x.opcode? = none) m := by
  induction h with
  | bind hm hf ihm ihf => exact ihm.bind ihf
  | look hcontrol hpc hf ih => exact makes_look ih
  | enable h | opcode h | sendRegister h => contradiction
  | operand => exact makes_operand
  | receiveMemory a | receivePort a => exact fun _ _ => ⟨⟨trivial, rfl⟩, trivial⟩
  | sendMemory a v | pause n => exact fun _ => ⟨⟨trivial, rfl⟩, trivial⟩
  | sendPort a v => exact fun _ => ⟨⟨rfl, rfl⟩, trivial⟩
  | pure a | update | setFlags f => exact fun _ => trivial

def Operation.writesRegister : Operation → Bool
  | .extension .setRegister | .extension .setRegisterImmediate => true
  | _ => false

theorem Operation.writesRegister_of_isPlain {op : Operation} (h : op.isPlain) : op.writesRegister = false := by
  cases op with
  | extension e =>
    cases e with
    | setRegister | setRegisterImmediate => contradiction
    | _ => rfl
  | _ => rfl

/-- An operation brings in no opcode bytes, and its port cycles are short if it writes a machine register. -/
theorem Operation.makes (config : Config) (previous : Flags) (op : Operation) :
    Makes (fun x => x.OfOperation op.writesRegister ∧ x.opcode? = none) (op.execute config previous) := by
  by_cases hp : op.isPlain
  · have horderly := op.orderly config previous
    rw [hp] at horderly
    rw [op.writesRegister_of_isPlain hp]
    exact horderly.makes
  · cases op with
    | transfer t =>
      cases t with
      | loadFromI | loadFromR | loadToI | loadToR => exact fun _ => ⟨⟨trivial, rfl⟩, trivial⟩
      | _ => exact absurd rfl hp
    | jump j =>
      cases j with
      | returnNmi => exact orderly_goBack.makes.bind fun _ _ => trivial
      | _ => exact absurd rfl hp
    | control o => cases o <;> exact fun _ => trivial
    | extension e =>
      cases e with
      | setRegister =>
        refine makes_operand.bind fun n => ?_
        refine (makes_sendRegister _ n).bind fun _ => ?_
        exact makes_look fun k => makes_sendRegister _ k.a
      | setRegisterImmediate =>
        refine makes_operand.bind fun n => ?_
        refine (makes_sendRegister _ n).bind fun _ => ?_
        exact makes_operand.bind fun v => makes_sendRegister _ v
      | _ => exact absurd rfl hp
    | _ => exact absurd rfl hp

end Operations

namespace Cpu

variable (c : Cpu)

/-- The bytes that a step reads in opcode cycles: those that lead to an instruction, or that of a halted processor. -/
def opcodes (m : Memory) : List Byte :=
  match c.task with
  | .instruction _ => (c.target m).opcode
  | .idle => [m.get c.registers.pc]
  | .nmi | .interrupt => []

def writesRegister (bus : FlatBus) : Bool := (c.operation? bus).any Operation.writesRegister

theorem makes_complete (start : Word) (o : Resolution) :
    Makes (fun x => x.OfOperation (o.operation?.any Operation.writesRegister) ∧ x.opcode? = none)
      (c.complete start o) := by
  cases o with
  | instruction i => exact (i.operation.makes c.config c.latch).bind fun _ => makes_pure _
  | carry i => exact makes_pure _
  | undefined w =>
    rw [complete]
    cases c.config.undefined <;> exact makes_pure _

section Acceptance

variable {P : Cycle → Prop} (hpause : ∀ n, P (.paused (.internal n))) (hread : ∀ a v, P (.received (.memory a) v))
  (hwrite : ∀ a v, P (.sent (.memory a v))) (s : Execution)

include hpause hwrite

theorem makes_acceptNmi : (acceptNmi s).Makes P := ⟨hpause 5, hwrite _ _, hwrite _ _, trivial⟩

include hread

theorem makes_vectored : (c.vectored s).Makes P := by
  refine ⟨hpause 7, ?_⟩
  split
  · exact ⟨hwrite _ _, hwrite _ _, trivial⟩
  · exact ⟨hwrite _ _, hwrite _ _, fun v => ⟨hread _ v, fun w => ⟨hread _ w, trivial⟩⟩⟩

end Acceptance

variable (bus : FlatBus)

theorem cycles_instruction (ht : c.task = .instruction c.carried) :
    ∃ cs, c.history bus = Target.opcodeCycles c.registers.pc (c.target bus.memory).opcode ++ cs ∧
      ∀ x ∈ cs, x.OfOperation (c.writesRegister bus) := by
  rw [history_instruction c bus ht, Target.cycles, List.append_assoc]
  refine ⟨_, rfl, List.forall_mem_append.2 ⟨?_, ?_⟩⟩
  · split
    · simp [Cycle.OfOperation]
    · exact List.forall_mem_nil _
  · rw [value_fetching, writesRegister, operation?_instruction c bus ht]
    exact ((c.makes_complete _ _ _).imp fun _ => And.left).history _

theorem cycles_supplied (ht : c.task = .interrupt) (hm : c.registers.im = 0) :
    ∀ x ∈ c.history bus, x.OfOperation (c.writesRegister bus) := by
  rw [(performed_followSupplied bus ht hm).2, List.forall_mem_cons, List.forall_mem_append, writesRegister, operation?,
    resolution?_supplied bus ht hm, Option.bind_some]
  refine ⟨trivial, Target.forall_mem_suppliedCycles _ (fun _ => trivial) (fun _ => trivial) trivial, ?_⟩
  exact ((c.makes_complete _ _ _).imp fun _ => And.left).history _

/-- The cycles of a step: those of its opcode bytes, and then such as an operation makes. -/
theorem cycles_step :
    ∃ cs, c.history bus = Target.opcodeCycles c.registers.pc (c.opcodes bus.memory) ++ cs ∧
      ∀ x ∈ cs, x.OfOperation (c.writesRegister bus) := by
  cases ht : c.task with
  | instruction carried =>
    obtain rfl := eq_carried_of_task ht
    rw [opcodes, ht]
    exact c.cycles_instruction bus ht
  | nmi =>
    rw [opcodes, history_eq, ht]
    refine ⟨_, rfl, ?_⟩
    exact (makes_acceptNmi (fun _ => trivial) (fun _ _ => trivial) c.starting).history bus
  | interrupt =>
    rw [opcodes, ht]
    refine ⟨c.history bus, rfl, ?_⟩
    by_cases hm : c.registers.im = 0
    · exact c.cycles_supplied bus ht hm
    · rw [history_eq, ht, perform, Microcode.history, c.acceptInterrupt_vectored hm]
      exact (c.makes_vectored (fun _ => trivial) (fun _ _ => trivial) (fun _ _ => trivial) _).history bus
  | idle =>
    rw [opcodes, history_eq, ht]
    exact ⟨[], rfl, List.forall_mem_nil _⟩

end Cpu

end Z80Machine
