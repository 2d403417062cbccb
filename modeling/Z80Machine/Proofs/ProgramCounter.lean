import Z80Machine.Proofs.Bounds
import Z80Machine.Proofs.MaskedCopying
import Z80Machine.Proofs.Opcodes
import Z80Machine.Proofs.PortBlocks
import Z80Machine.Proofs.Replay
import Z80Machine.Proofs.Stack

/-!
Where the program counter goes. A step reads the bytes of its instruction one after the other and goes on behind the
last, unless the operation departs: a jump that is taken, or a block or copy that has not finished and goes back to its
own ED byte. A call leaves the address behind the instruction on the stack.
-/
namespace Z80Machine

open Microcode

section Departure

variable (k : Registers)

def Jump.takes : Jump → Bool
  | .absolute q | .relative q | .call q | .return q => q.all (·.holds k.f)
  | .countdown => k.b - 1 != 0
  | .toBase _ | .returnInterrupt | .returnNmi | .restart _ => true

/-- Where a taken jump goes, from an instruction that ends before `next`: to the word or by the displacement there, to
the base, to the word on the stack or to a fixed address. -/
def Jump.destination (m : Memory) (next : Word) : Jump → Word
  | .absolute _ | .call _ => m.word (next - 2)
  | .toBase b => k.base b
  | .relative _ | .countdown => next.displace (m.get (next - 1))
  | .return _ | .returnInterrupt | .returnNmi => m.word k.sp
  | .restart n => (restartAddress n).setWidth 16

/-- Whether the operation goes back to its own opcode: a block or a copy that has not finished. -/
def Operation.rewinds (m : Memory) : Operation → Bool
  | .block b => b.rewinds k m
  | .extension (.copy _ repeating) => repeating && k.bc - 1 != 0
  | .extension .copyPattern => k.bc - 1 != 0
  | _ => false

/-- Whether the program counter goes elsewhere than behind the instruction. -/
def Operation.departs (m : Memory) : Operation → Bool
  | .jump j => j.takes k
  | .extension .jumpInput => true
  | op => op.rewinds k m

def Operation.destination (bus : FlatBus) (next : Word) : Operation → Word
  | .jump j => j.destination k bus.memory next
  | .extension .jumpInput => next &&& 0xC000 ||| (bus.ports k.bc).setWidth 16 <<< 6
  | _ => next - 2

variable {k} {m : Memory}

theorem Operation.operands_of_rewinds {op : Operation} (h : op.rewinds k m) : op.operands = 0 := by
  cases op with
  | block b => rfl
  | extension e =>
    cases e with
    | copy d repeating => rfl
    | copyPattern => rfl
    | _ => contradiction
  | _ => contradiction

/-- Going back is a departure to the second byte before the next instruction. -/
theorem Operation.departs_of_rewinds {op : Operation} (h : op.rewinds k m) (bus : FlatBus) (a : Word) :
    op.departs k m = true ∧ op.destination k bus a = a - 2 := by
  cases op with
  | block b => exact ⟨h, rfl⟩
  | extension e =>
    cases e with
    | copy d repeating => exact ⟨h, rfl⟩
    | copyPattern => exact ⟨h, rfl⟩
    | _ => contradiction
  | _ => contradiction

end Departure

section Execution

variable (k : Registers) (latch : Flags) (delay : Bool) (bus : FlatBus)

theorem Execution.ahead_zero (s : Execution) : s.ahead 0 = s.registers.pc := by
  rw [ahead]
  split
  · rfl
  · exact BitVec.add_zero _

theorem value_operandWord :
    (on operandWord ⟨k, latch, delay, none⟩ bus).value =
      (bus.memory.word k.pc, ⟨{ k with pc := k.pc + 2 }, latch, delay, none⟩) := by
  have hpc : k.pc + 2 = k.pc + 1 + 1 := (BitVec.add_assoc k.pc 1 1).symm
  rw [hpc]
  rfl

theorem pc_jumpRelative (s : Execution) (d : Byte) :
    (on (jumpRelative d) s bus).value.2.registers.pc = s.registers.pc.displace d := rfl

theorem pc_goBack (s : Execution) :
    (on goBack s bus).value.2.registers.pc = bus.memory.word s.registers.sp := rfl

theorem pc_ite (p : Prop) [Decidable p] (m m' : Microcode Unit) (s : Execution) :
    (on (if p then m else m') s bus).value.2.registers.pc =
      if p then (on m s bus).value.2.registers.pc else (on m' s bus).value.2.registers.pc := by
  split <;> rfl

theorem on_taken_all (q : Option Condition) (s : Execution) :
    on (taken q) s bus = ⟨(q.all (·.holds s.registers.f), s), bus, 0⟩ := by
  cases q <;> rfl

theorem Jump.pc_execute (j : Jump) :
    let next := k.pc + BitVec.ofNat 16 j.operands
    (on j.execute ⟨k, latch, delay, none⟩ bus).value.2.registers.pc =
      if j.takes k then j.destination k bus.memory next else next := by
  intro next
  cases j with
  | absolute q =>
    have hoperand : next - 2 = k.pc := BitVec.add_sub_cancel k.pc 2
    simp only [Jump.execute, on_bind, value_operandWord, on_latchAddress, on_taken_all, Outcome.value_after, pc_ite,
      destination, takes, hoperand]
    rfl
  | relative q =>
    have hoperand : next - 1 = k.pc := BitVec.add_sub_cancel k.pc 1
    simp only [Jump.execute, on_bind, on_operand, on_taken_all, Outcome.value_after, pc_ite, pc_jumpRelative,
      destination, takes, hoperand]
    rfl
  | countdown =>
    have hoperand : next - 1 = k.pc := BitVec.add_sub_cancel k.pc 1
    rw [destination, hoperand]
    by_cases hb : k.b - 1#8 = 0#8
    · simp [Jump.execute, on_bind, takes, hb, next, operands]
    · simp [Jump.execute, on_bind, takes, hb, next, operands, pc_jumpRelative, FlatBus.answer]
  | call q =>
    have hoperand : next - 2 = k.pc := BitVec.add_sub_cancel k.pc 2
    simp only [Jump.execute, on_bind, value_operandWord, on_latchAddress, on_taken_all, Outcome.value_after, pc_ite,
      destination, takes, hoperand]
    rfl
  | «return» q =>
    cases q with
    | none => rfl
    | some q =>
      have hnext : next = k.pc := BitVec.add_zero k.pc
      simp only [Jump.execute, on_bind, on_pause, on_taken_all, Outcome.value_after, pc_ite, pc_goBack, destination,
        takes, hnext]
      rfl
  | toBase b => rfl
  | returnInterrupt | returnNmi | restart n => rfl

theorem Block.pc_execute (b : Block) (s : Execution) :
    (on b.execute s bus).value.2.registers.pc =
      if b.rewinds s.registers bus.memory then s.registers.pc - 2 else s.registers.pc := by
  have hfinished (k : Registers) (again : Bool) (shown last : Flags) :
      (k.finished again shown last).pc = if again then k.pc - 2 else k.pc := by
    cases again <;> rfl
  rcases b with ⟨kind, d, repeating⟩
  cases kind with
  | load => rw [Block.execute, registers_load, hfinished]; rfl
  | compare => rw [Block.execute, registers_compare, hfinished, rewinds, Bool.and_assoc]; rfl
  | input => rw [Block.execute, registers_input, hfinished]; rfl
  | output => rw [Block.execute, registers_output, hfinished]; rfl

/-- Jumps touch the program counter, and blocks and three extensions, which have no operands. -/
theorem Operation.departing_of_touches {op : Operation} (h : op.touches .counter) :
    (∃ j, op = .jump j) ∨ op.operands = 0 ∧ ((∃ b, op = .block b) ∨
      ∃ e, op = .extension e ∧ (e = .jumpInput ∨ e = .copyPattern ∨ ∃ d, e = .copy d true)) := by
  cases op with
  | transfer t => cases t <;> simp [touches, Transfer.touches] at h
  | arithmetic a => cases a <;> simp [touches, Arithmetic.touches] at h
  | bit b => cases b <;> simp [touches, BitOperation.touches] at h
  | transmit t => cases t <;> simp [touches, Transmission.touches] at h
  | control o => contradiction
  | jump j => exact .inl ⟨j, rfl⟩
  | block b => exact .inr ⟨rfl, .inl ⟨b, rfl⟩⟩
  | extension e => cases e <;> simp_all [touches, Extension.touches, operands, Extension.operands]

theorem Operation.stays_of_touches {op : Operation} (h : op.touches .counter = false) (m : Memory) :
    op.departs k m = false := by
  cases op with
  | jump j => contradiction
  | block b =>
    have hrepeating : b.repeating = false := h
    simp [departs, rewinds, Block.rewinds, hrepeating]
  | extension e =>
    cases e with
    | jumpInput | copyPattern => contradiction
    | copy d repeating =>
      have hrepeating : repeating = false := h
      simp [departs, rewinds, hrepeating]
    | _ => rfl
  | _ => rfl

/-- An operation leaves the program counter behind its operands, or at its destination. -/
theorem Operation.pc_execute (config : Config) (previous : Flags) (op : Operation) :
    let next := k.pc + BitVec.ofNat 16 op.operands
    (on (op.execute config previous) ⟨k, latch, delay, none⟩ bus).value.2.registers.pc =
      if op.departs k bus.memory then op.destination k bus next else next := by
  intro next
  cases htouches : op.touches .counter with
  | false =>
    have hspared := (op.spares htouches config previous).on ⟨k, latch, delay, none⟩ bus
    rw [stays_of_touches k htouches, ← Execution.ahead_zero]
    exact hspared
  | true =>
    rcases departing_of_touches htouches with ⟨j, rfl⟩ | ⟨hoperands, hother⟩
    · exact j.pc_execute k latch delay bus
    have hnext : next = k.pc := by
      have hsum : next = k.pc + BitVec.ofNat 16 op.operands := rfl
      rw [hsum, hoperands]
      exact BitVec.add_zero k.pc
    rw [hnext]
    rcases hother with ⟨b, rfl⟩ | ⟨e, rfl, rfl | rfl | ⟨d, rfl⟩⟩
    · exact b.pc_execute bus _
    · rfl
    · exact congrArg Registers.pc (Walk.pattern.registers_execute ⟨k, latch, delay, none⟩ bus config)
    · exact congrArg Registers.pc ((Walk.along d).registers_execute ⟨k, latch, delay, none⟩ bus config)

end Execution

section Moved

variable (t : Target) (k : Registers)

theorem Operation.departs_fetched (m : Memory) (op : Operation) : op.departs (t.fetched k) m = op.departs k m := by
  cases op with
  | jump j => cases j <;> rfl
  | extension e => cases e <;> rfl
  | _ => rfl

theorem Operation.destination_fetched (bus : FlatBus) (next : Word) (op : Operation) :
    op.destination (t.fetched k) bus next = op.destination k bus next := by
  cases op with
  | jump j =>
    cases j with
    | toBase b => rcases b with _ | _ | _ <;> rfl
    | _ => rfl
  | extension e => cases e <;> rfl
  | _ => rfl

end Moved

section Calls

/-- A call and a restart leave a return address on the stack, if they are taken. -/
def Operation.calls : Operation → Bool
  | .jump (.call _) | .jump (.restart _) => true
  | _ => false

variable (k : Registers) (latch : Flags) (delay : Bool) (bus : FlatBus)

theorem Operation.pushes_execute {op : Operation} (h : op.calls) (config : Config) (previous : Flags) :
    let next := k.pc + BitVec.ofNat 16 op.operands
    let o := on (op.execute config previous) ⟨k, latch, delay, none⟩ bus
    o.bus.memory = (if op.departs k bus.memory then bus.memory.pushed k.sp next else bus.memory) ∧
      o.value.2.registers.sp = if op.departs k bus.memory then k.sp - 2 else k.sp := by
  intro next o
  cases op with
  | jump j =>
    cases j with
    | call q =>
      have ho : o = on (Jump.call q).execute ⟨k, latch, delay, none⟩ bus := rfl
      rw [ho, departs, Jump.takes]
      cases hq : q.all (·.holds k.f) <;>
        simp only [Jump.execute, on_bind, value_operandWord, on_latchAddress, on_taken_all, Outcome.value_after, hq]
      · exact ⟨rfl, rfl⟩
      · exact ⟨rfl, rfl⟩
    | restart n =>
      have hnext : next = k.pc := BitVec.add_zero k.pc
      rw [hnext]
      exact ⟨rfl, rfl⟩
    | _ => contradiction
  | _ => contradiction

end Calls

section Pages

/-- The bytes of the instruction between its opcode bytes and the slot: on the page of indexed bits the displacement
and the operation byte. -/
def Page.operands : Page → Nat
  | .indexedBits _ => 2
  | _ => 0

/-- Of what the bytes of an instruction at `a` lead to: the displacement and the operation byte are all that stands
between opcode bytes and slot, and the extended page is reached by ED and one byte more. -/
structure Target.Placed (t : Target) (m : Memory) (a : Word) : Prop where
  operands : t.operands.length = t.page.operands
  bytes : t.bytes = t.opcode.length + t.page.operands
  extended : t.page = .extended → [0xED, t.byte] <:+ t.opcode
  lead : t.page = .extended → m.get (a + BitVec.ofNat 16 t.opcode.length - 2) = 0xED

variable (m : Memory)

theorem placed_followBase (b : Base) (a : Word) : (followBase m b a).Placed m a := by
  by_cases he : m.get a = 0xED
  · rw [followBase_extended _ b he]
    refine ⟨rfl, rfl, fun _ => ?_, fun _ => ?_⟩
    · exact ⟨[], congrArg (· :: _) he.symm⟩
    · have hback : a + BitVec.ofNat 16 2 - 2 = a := BitVec.add_sub_cancel a 2
      exact hback.symm ▸ he
  by_cases hb : m.get a = 0xCB
  · cases b with
    | hl =>
      rw [followBase_bits _ hb]
      exact ⟨rfl, rfl, nofun, nofun⟩
    | index i =>
      rw [followBase_indexedBits _ i hb]
      exact ⟨rfl, rfl, nofun, nofun⟩
  · rw [followBase_opening _ b he hb]
    exact ⟨rfl, rfl, nofun, nofun⟩

theorem placed_follow (a : Word) (carried : Option Index) : (follow m a carried).Placed m a := by
  cases carried with
  | some i => exact placed_followBase m (.index i) a
  | none =>
    cases hp : Index.ofPrefix? (m.get a) with
    | none =>
      rw [follow_plain _ hp]
      exact placed_followBase m .hl a
    | some i =>
      have hbase := placed_followBase m (.index i) (a + 1)
      rw [follow_indexed _ (Index.ofPrefix?_eq_some.1 hp)]
      refine ⟨hbase.operands, ?_, fun h => ?_, fun h => ?_⟩
      · have hbytes := hbase.bytes
        simp only [Target.bytes, List.length_cons] at hbytes ⊢
        omega
      · exact (hbase.extended h).trans (List.suffix_cons ..)
      · rw [List.length_cons, next_address]
        exact hbase.lead h

theorem Page.rewinds_slot (page : Page) (v : Byte) {i : Instruction} (h : page.slot v = .instruction i)
    {k : Registers} (hr : i.operation.rewinds k m) : page = .extended := by
  have hslots : ∀ v : Byte, ∀ i ∈ (page.slot v).instruction?,
      i.operation.isExtension ∨ (i.operation matches .block _) → page = .extended := by
    rcases page with (_ | _ | _) | _ | _ | (_ | _) <;> decide +kernel
  refine hslots v i (by rw [h]; rfl) ?_
  generalize i.operation = op at hr
  cases op with
  | block b => exact .inr rfl
  | extension e => exact .inl rfl
  | _ => contradiction

end Pages

namespace Cpu

variable (c : Cpu) (bus : FlatBus)

theorem slot_of_operation {op : Operation} (ht : c.task = .instruction c.carried) (h : c.operation? bus = some op) :
    ∃ i, (c.target bus.memory).page.slot (c.target bus.memory).byte = .instruction i ∧ i.operation = op ∧
      (i.operation.isExtension → c.config.extensions) := by
  rw [operation?_instruction c bus ht, Target.resolution] at h
  cases hi : (c.target bus.memory).page.slot (c.target bus.memory).byte with
  | instruction i =>
    by_cases hx : c.config.extensions || !i.operation.isExtension
    · simp only [hi, hx, ↓reduceIte] at h
      have hpresent : i.operation.isExtension → c.config.extensions := fun he => by simpa [he] using hx
      exact ⟨i, rfl, Option.some.inj h, hpresent⟩
    · simp only [hi, hx] at h
      contradiction
  | lead l =>
    rw [hi] at h
    cases l <;> contradiction
  | undefined =>
    rw [hi] at h
    contradiction

theorem step_executed {op : Operation} (ht : c.task = .instruction c.carried) (h : c.operation? bus = some op) :
    let o := on (op.execute c.config c.latch) ⟨(c.target bus.memory).fetched c.registers, .clear, false, none⟩ bus
    (c.step bus).result.isOk ∧ (c.step bus).cpu.carried = none ∧ (c.step bus).cpu.registers = o.value.2.registers ∧
      (c.step bus).bus.memory = o.bus.memory := by
  intro o
  obtain ⟨i, hi, rfl, hx⟩ := c.slot_of_operation bus ht h
  obtain ⟨hresult, hcpu, halike, -⟩ := step_slot c bus ht hi hx
  rw [hresult, hcpu]
  exact ⟨rfl, rfl, rfl, halike.memory⟩

theorem opcodeBytes_instruction (ht : c.task = .instruction c.carried) :
    opcodeBytes (c.history bus) = (c.target bus.memory).opcode :=
  c.opcodes_history (decoded_eq_some.2 (.inl ⟨ht, rfl⟩))

/-- The bytes that the step of an instruction reads for it: the opcode bytes, those between them and the slot, and the
operands of the operation there. -/
theorem codeLength_eq (ht : c.task = .instruction c.carried) :
    c.codeLength bus.memory =
      (opcodeBytes (c.history bus)).length + (c.target bus.memory).page.operands +
        (c.operation? bus).elim 0 Operation.operands := by
  have hplaced : (c.target bus.memory).Placed bus.memory c.registers.pc := placed_follow ..
  rw [codeLength, c.opcodeBytes_instruction bus ht, ← hplaced.bytes, operation?_instruction c bus ht]
  congr 1
  cases (c.target bus.memory).resolution c.config.extensions (seenBefore c.carried) <;> rfl

theorem pc_fetched (ht : c.task = .instruction c.carried) :
    ((c.target bus.memory).fetched c.registers).pc +
        BitVec.ofNat 16 ((c.operation? bus).elim 0 Operation.operands) =
      c.registers.pc + BitVec.ofNat 16 (c.codeLength bus.memory) := by
  have hplaced : (c.target bus.memory).Placed bus.memory c.registers.pc := placed_follow ..
  rw [c.codeLength_eq bus ht, c.opcodeBytes_instruction bus ht, BitVec.ofNat_add _ (Option.elim _ _ _),
    ← BitVec.add_assoc, Target.fetched]
  exact congrArg (fun n => c.registers.pc + BitVec.ofNat 16 ((c.target bus.memory).opcode.length + n) + _)
    hplaced.operands

theorem pc_step (ht : c.task = .instruction c.carried) :
    let next := c.registers.pc + BitVec.ofNat 16 (c.codeLength bus.memory)
    (c.step bus).cpu.registers.pc =
      (c.operation? bus).elim next fun op =>
        if op.departs c.registers bus.memory then op.destination c.registers bus next else next := by
  intro next
  have hnext : _ = next := c.pc_fetched bus ht
  cases hop : c.operation? bus with
  | none =>
    rw [hop] at hnext
    rw [operation?_instruction c bus ht] at hop
    rw [registers_step, performed_instruction c bus ht, Outcome.value_after, value_complete, value_fetching, hop]
    exact (BitVec.add_zero _).symm.trans hnext
  | some op =>
    obtain ⟨-, -, hregisters, -⟩ := c.step_executed bus ht hop
    rw [hop, Option.elim_some] at hnext
    have hpc := op.pc_execute ((c.target bus.memory).fetched c.registers) .clear false bus c.config c.latch
    simp only [Operation.departs_fetched, Operation.destination_fetched, hnext] at hpc
    rw [hregisters]
    exact hpc

/-- What a call or a restart does to the stack. -/
theorem stack_step (ht : c.task = .instruction c.carried) {op : Operation} (hop : c.operation? bus = some op)
    (hcalls : op.calls) :
    let taken := op.departs c.registers bus.memory
    let next := c.registers.pc + BitVec.ofNat 16 (c.codeLength bus.memory)
    (c.step bus).bus.memory = (if taken then bus.memory.pushed c.registers.sp next else bus.memory) ∧
      (c.step bus).cpu.registers.sp = if taken then c.registers.sp - 2 else c.registers.sp := by
  intro taken next
  have hnext : _ = next := c.pc_fetched bus ht
  obtain ⟨-, -, hregisters, hmemory⟩ := c.step_executed bus ht hop
  rw [hop, Option.elim_some] at hnext
  have hpushes := Operation.pushes_execute ((c.target bus.memory).fetched c.registers) .clear false bus hcalls c.config
    c.latch
  simp only [Operation.departs_fetched, hnext] at hpushes
  rw [hmemory, hregisters]
  exact hpushes

/-- An operation that goes back has been reached by ED and one byte more, with no operands. -/
theorem rewinds_step (ht : c.task = .instruction c.carried) {op : Operation} (hop : c.operation? bus = some op)
    (hr : op.rewinds c.registers bus.memory) :
    let bytes := opcodeBytes (c.history bus)
    c.codeLength bus.memory = bytes.length ∧ (∃ v, [0xED, v] <:+ bytes) ∧
      bus.memory.get (c.registers.pc + BitVec.ofNat 16 bytes.length - 2) = 0xED := by
  intro bytes
  obtain ⟨i, hi, rfl, hx⟩ := c.slot_of_operation bus ht hop
  have hpage := Page.rewinds_slot bus.memory _ _ hi hr
  have hplaced : (c.target bus.memory).Placed bus.memory c.registers.pc := placed_follow ..
  have hbytes : bytes = (c.target bus.memory).opcode := c.opcodeBytes_instruction bus ht
  refine ⟨?_, ⟨_, hbytes ▸ hplaced.extended hpage⟩, hbytes ▸ hplaced.lead hpage⟩
  rw [c.codeLength_eq bus ht, hop, hpage, Option.elim_some, Operation.operands_of_rewinds hr]
  rfl

end Cpu

end Z80Machine
