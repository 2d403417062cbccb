import Z80Machine.Proofs.Step

/-!
The time of instructions. An operation takes a time of its own, fixed by what it names, and now and then an extra
that depends on the registers and on memory. The declared time of a slot is the time that its page takes to reach
and the operation's own, so a step charges what is declared and the extra.
-/
namespace Z80Machine

open Microcode

section Declared

def Pointer.time : Pointer → Nat
  | .hl | .latched _ => 0
  | .displaced _ => 8

/-- Reading or writing at a place. -/
def Place.accessTime : Place → Nat
  | .register _ => 0
  | .memory p => p.time + 3

/-- Reading at a place and writing back. -/
def Place.modifyTime : Place → Nat
  | .register _ => 0
  | .memory p => p.time + 7

def Source.time : Source → Nat
  | .place p => p.accessTime
  | .immediate => 3

def Reach.time : Reach → Nat
  | .bc | .de => 0
  | .absolute => 6

def Transfer.time : Transfer → Nat
  | .load dst src => src.time + dst.accessTime
  | .storeImmediate .hl => 6
  | .storeImmediate (.index _) => 11
  | .loadAccumulator r | .storeAccumulator r => r.time + 3
  | .loadPairImmediate _ => 6
  | .loadPair _ | .storePair _ => 12
  | .loadStackPointer _ => 2
  | .loadFromI | .loadFromR | .loadToI | .loadToR => 1
  | .push _ => 7
  | .pop _ => 6
  | .exchangeDeHl | .exchangeAf | .exchangeBanks => 0
  | .exchangeStackTop _ => 15

def Arithmetic.time : Arithmetic → Nat
  | .accumulate _ src => src.time
  | .step _ p => p.modifyTime
  | .stepPair _ _ => 2
  | .addTo _ _ | .addCarry _ | .subtractCarry _ => 7
  | .decimalAdjust | .complement | .negate | .setCarry | .complementCarry => 0

def BitOperation.time : BitOperation → Nat
  | .rotateAccumulator _ => 0
  | .shift _ p _ | .reset _ p _ | .set _ p _ => p.modifyTime
  | .test _ (.register _) => 0
  | .test _ (.memory p) => p.time + 4
  | .rotateDigitsRight | .rotateDigitsLeft => 10

def Jump.time : Jump → Nat
  | .absolute _ => 6
  | .toBase _ => 0
  | .relative none => 8
  | .relative (some _) => 3
  | .countdown => 4
  | .call none => 13
  | .call (some _) => 6
  | .return (some _) => 1
  | .return none | .returnInterrupt | .returnNmi => 6
  | .restart _ => 7

def Transmission.time : Transmission → Nat
  | .readImmediate | .writeImmediate => 7
  | .read _ | .write _ => 4

def Extension.time : Extension → Nat
  | .test => 3
  | .addImmediate _ => 8
  | .pushImmediate => 15
  | .outputNext => 8
  | .setRegisterImmediate => 12
  | .setRegister => 9
  | .jumpInput => 5
  | .copy _ _ | .copyPattern => 8
  | .copyColumn => 6
  | _ => 0

/-- The time of an operation after its opcode bytes: the branch not taken, one element of a block. -/
def Operation.time : Operation → Nat
  | .transfer t => t.time
  | .arithmetic a => a.time
  | .bit b => b.time
  | .jump j => j.time
  | .control _ => 0
  | .transmit t => t.time
  | .block _ => 8
  | .extension e => e.time

/-- The time that reaching a slot takes: the opcode bytes, and on the page of indexed bits the displacement and the
operation byte. -/
def Page.lead : Page → Nat
  | .opening .hl => 4
  | .opening (.index _) | .bits | .extended => 8
  | .indexedBits _ => 16

def Slot.instruction? : Slot → Option Instruction
  | .instruction i => some i
  | .lead _ | .undefined => none

/-- The declared time is that of the way to the slot and of the operation there, and none exceeds 23. -/
theorem Page.cycles_slot (p : Page) (v : Byte) {i : Instruction} (h : p.slot v = .instruction i) :
    i.cycles = p.lead + i.operation.time ∧ i.cycles ≤ 23 := by
  have hslots : ∀ v : Byte, ∀ i ∈ (p.slot v).instruction?,
      i.cycles = p.lead + i.operation.time ∧ i.cycles ≤ 23 := by
    rcases p with (_ | _ | _) | _ | _ | (_ | _) <;> decide
  exact hslots v i (by rw [h]; rfl)

end Declared

section Extra

variable (k : Registers) (m : Memory)

/-- A taken branch: relative jumps take 5 T-states more, returns 6 and calls 7. -/
def Jump.extra : Jump → Nat
  | .relative (some q) => if q.holds k.f then 5 else 0
  | .countdown => if k.b - 1 ≠ 0 then 5 else 0
  | .return (some q) => if q.holds k.f then 6 else 0
  | .call (some q) => if q.holds k.f then 7 else 0
  | _ => 0

/-- Whether a block goes back to its own opcode: the counter has not run out and, in a comparison, the byte is not
the one that the accumulator looks for. -/
def Block.rewinds (b : Block) : Bool :=
  b.repeating && match b.kind with
    | .load => k.bc - 1 != 0
    | .compare => k.bc - 1 != 0 && k.a != m.get k.hl
    | .input | .output => k.b - 1 != 0

def Extension.extra : Extension → Nat
  | .copy _ true | .copyPattern => if k.bc - 1 ≠ 0 then 5 else 0
  | _ => 0

/-- The T-states beyond an operation's own time, as the registers and memory before it say. -/
def Operation.extra : Operation → Nat
  | .jump j => j.extra k
  | .block b => if b.rewinds k m then 5 else 0
  | .extension e => e.extra k
  | _ => 0

end Extra

section Charged

variable {α β : Type} [Bus β] (s : Execution) (bus : β)

theorem elapsed_ite (p : Prop) [Decidable p] (m m' : Microcode α) :
    (on (if p then m else m') s bus).elapsed = if p then (on m s bus).elapsed else (on m' s bus).elapsed := by
  split <;> rfl

@[simp] theorem Pointer.elapsed_address (p : Pointer) : (on p.address s bus).elapsed = p.time := by
  cases p <;> simp [Pointer.address, elapsed_bind, Pointer.time]

@[simp] theorem Source.elapsed_read (src : Source) : (on src.read s bus).elapsed = src.time := by
  rcases src with (r | p) | _ <;>
    simp [Source.read, Place.locate, Location.read, elapsed_bind, on_map, Source.time, Place.accessTime]

@[simp] theorem Reach.elapsed_address (r : Reach) : (on r.address s bus).elapsed = r.time := by
  cases r <;> simp [Reach.address, Reach.time]

/-- Replacing a byte takes the time of its place, whatever is done with the byte. -/
theorem Place.elapsed_modify (p : Place) (copy : Option Register) {f : Byte → Microcode Byte}
    (hf : ∀ v s (bus : β), (on (f v) s bus).elapsed = 0) :
    (on (p.modify copy f) s bus).elapsed = p.modifyTime := by
  cases p <;> cases copy <;>
    simp [Place.modify, Place.locate, Place.isMemory, Location.read, Location.write, elapsed_bind, hf,
      Place.modifyTime]

@[simp] theorem elapsed_toAccumulator (r : Result 8) : (on (toAccumulator r) s bus).elapsed = 0 := rfl

@[simp] theorem elapsed_toBase (b : Base) (r : Result 16) : (on (toBase b r) s bus).elapsed = 0 := rfl

theorem Transfer.elapsed_execute (t : Transfer) : (on t.execute s bus).elapsed = t.time := by
  cases t with
  | load dst src =>
    cases dst <;>
      simp [Transfer.execute, Place.locate, Location.write, elapsed_bind, Transfer.time, Place.accessTime]
  | storeImmediate b => cases b <;> simp [Transfer.execute, Base.storeAddress, elapsed_bind, Transfer.time]
  | _ => simp [Transfer.execute, loadSpecial, elapsed_bind, Transfer.time]

theorem Arithmetic.elapsed_execute (previous : Flags) (a : Arithmetic) :
    (on (a.execute previous) s bus).elapsed = a.time := by
  cases a with
  | step d p => exact p.elapsed_modify s bus none fun v s bus => rfl
  | _ => simp [Arithmetic.execute, elapsed_bind, Arithmetic.time]

theorem BitOperation.elapsed_execute (b : BitOperation) : (on b.execute s bus).elapsed = b.time := by
  cases b with
  | shift op p copy => exact p.elapsed_modify s bus copy fun v s bus => rfl
  | reset n p copy => exact p.elapsed_modify s bus copy fun v s bus => rfl
  | set n p copy => exact p.elapsed_modify s bus copy fun v s bus => rfl
  | test n p => cases p <;> simp [BitOperation.execute, Place.examine, elapsed_bind, BitOperation.time]
  | _ => simp [BitOperation.execute, rotateDigits, elapsed_bind, BitOperation.time]

@[simp] theorem on_taken (q : Option Condition) :
    on (taken q) s bus = ⟨(match q with | none => true | some q => q.holds s.registers.f, s), bus, 0⟩ := by
  cases q <;> rfl

@[simp] theorem elapsed_goBack : (on goBack s bus).elapsed = 6 := by
  simp [goBack, elapsed_bind]

@[simp] theorem elapsed_enter (a : Word) : (on (enter a) s bus).elapsed = 6 := by
  simp [enter, elapsed_bind]

@[simp] theorem elapsed_jumpRelative (d : Byte) : (on (jumpRelative d) s bus).elapsed = 5 := by
  simp [jumpRelative, elapsed_bind]

/-- An operand byte moves the program counter and nothing else among the registers. -/
theorem registers_operand :
    ∃ pc, (on operand s bus).value.2.registers = { s.registers with pc := pc } := by
  rcases s with ⟨k, l, d, _ | bytes⟩ <;> exact ⟨_, rfl⟩

@[simp] theorem f_operand : (on operand s bus).value.2.registers.f = s.registers.f := by
  obtain ⟨pc, h⟩ := registers_operand s bus
  rw [h]

@[simp] theorem b_operand : (on operand s bus).value.2.registers.b = s.registers.b := by
  obtain ⟨pc, h⟩ := registers_operand s bus
  rw [h]

@[simp] theorem f_operandWord : (on operandWord s bus).value.2.registers.f = s.registers.f := by
  simp [operandWord, on_bind, on_map]

theorem Jump.elapsed_execute (j : Jump) : (on j.execute s bus).elapsed = j.time + j.extra s.registers := by
  cases j with
  | countdown =>
    simp only [Jump.execute, elapsed_bind, elapsed_ite]
    simp [Jump.time, Jump.extra, ← Nat.add_assoc]
  | absolute q | relative q | call q | «return» q =>
    cases q <;> simp [Jump.execute, elapsed_bind, elapsed_ite, Jump.time, Jump.extra]
  | _ => simp [Jump.execute, elapsed_bind, Jump.time, Jump.extra]

theorem Control.elapsed_execute (o : Control) : (on o.execute s bus).elapsed = 0 := by
  cases o <;> rfl

theorem Transmission.elapsed_execute (t : Transmission) : (on t.execute s bus).elapsed = t.time := by
  cases t with
  | read r => cases r <;> simp [Transmission.execute, elapsed_bind, Transmission.time]
  | _ => simp [Transmission.execute, elapsed_bind, Transmission.time]

@[simp] theorem elapsed_finishBlock (again : Bool) (shown last : Flags) :
    (on (finishBlock again shown last) s bus).elapsed = if again then 5 else 0 := by
  cases again <;> simp [finishBlock, rewind, elapsed_bind]

@[simp] theorem elapsed_copyMasked (a : Word) : (on (copyMasked a) s bus).elapsed = 8 := by
  simp only [copyMasked, elapsed_bind, elapsed_ite]
  split <;> simp

@[simp] theorem bc_copyMasked (a : Word) :
    (on (copyMasked a) s bus).value.2.registers.bc = s.registers.bc - 1 := by
  by_cases h : ((Receive.memory a).perform bus).1 = s.registers.a <;> simp [copyMasked, on_bind, h]

@[simp] theorem elapsed_againWhileCounting :
    (on againWhileCounting s bus).elapsed = if s.registers.bc = 0#16 then 0 else 5 := by
  simp only [againWhileCounting, elapsed_bind, elapsed_ite]
  by_cases h : s.registers.bc = 0#16 <;> simp [h]

end Charged

section Plain

variable (s : Execution) (bus : FlatBus)

theorem Block.elapsed_execute (b : Block) :
    (on b.execute s bus).elapsed = 8 + if b.rewinds s.registers bus.memory then 5 else 0 := by
  rcases b with ⟨_ | _ | _ | _, d, r⟩
  · simp [Block.execute, Block.load, Block.rewinds, elapsed_bind, ← Nat.add_assoc]
  · simp [Block.execute, Block.compare, Block.rewinds, elapsed_bind, ← Nat.add_assoc, zero_subtract, FlatBus.answer,
      and_assoc]
  · simp [Block.execute, Block.input, Block.rewinds, elapsed_bind, finishPort, ← Nat.add_assoc]
  · simp [Block.execute, Block.output, Block.rewinds, elapsed_bind, finishPort, ← Nat.add_assoc]

theorem Extension.elapsed_execute (config : Config) (e : Extension) :
    (on (e.execute config) s bus).elapsed = e.time + e.extra s.registers := by
  cases e with
  | copy d repeating =>
    cases repeating <;> simp [Extension.execute, Extension.time, Extension.extra, elapsed_bind]
  | copyPattern => simp [Extension.execute, Extension.time, Extension.extra, elapsed_bind]
  | _ => simp [Extension.execute, Extension.time, Extension.extra, elapsed_bind, Send.time]

/-- An operation takes its own time and the extra that the registers and memory before it call for. -/
theorem Operation.elapsed_execute (config : Config) (previous : Flags) (op : Operation) :
    (on (op.execute config previous) s bus).elapsed = op.time + op.extra s.registers bus.memory := by
  cases op with
  | transfer t => exact t.elapsed_execute s bus
  | arithmetic a => exact a.elapsed_execute s bus previous
  | bit b => exact b.elapsed_execute s bus
  | jump j => exact j.elapsed_execute s bus
  | control o => exact o.elapsed_execute s bus
  | transmit t => exact t.elapsed_execute s bus
  | block b => exact b.elapsed_execute s bus
  | extension e => exact e.elapsed_execute s bus config

end Plain

section Way

/-- The way to a slot takes the lead of its page. A prefix before ED takes four T-states more. -/
theorem time_followBase (m : Memory) (b : Base) (a : Word) :
    (followBase m b a).time + (if b = .hl then 0 else 4) =
      (followBase m b a).page.lead + if (followBase m b a).page = .extended ∧ b ≠ .hl then 4 else 0 := by
  by_cases he : m.get a = 0xED
  · rcases b with _ | _ <;> simp [followBase_extended _ _ he, Target.time, Page.lead]
  by_cases hb : m.get a = 0xCB
  · rcases b with _ | _
    · simp [followBase_bits _ hb, Target.time, Page.lead]
    · simp [followBase_indexedBits _ _ hb, Target.time, Page.lead]
  rcases b with _ | _ <;> simp [followBase_opening _ _ he hb, Target.time, Page.lead]

theorem base_followBase (m : Memory) (b : Base) (a : Word) : (followBase m b a).base = b := by
  simp only [followBase]
  split
  · rfl
  split
  · cases b <;> rfl
  · rfl

/-- A carried prefix has been paid for by the step before. -/
theorem time_follow (m : Memory) (a : Word) (carried : Option Index) :
    (follow m a carried).time + (if carried.isSome then 4 else 0) =
      (follow m a carried).page.lead +
        if (follow m a carried).page = .extended ∧ (follow m a carried).base ≠ .hl then 4 else 0 := by
  cases carried with
  | some i => simpa [follow_carried, base_followBase] using time_followBase m (.index i) a
  | none =>
    cases hp : Index.ofPrefix? (m.get a) with
    | some i =>
      have h := time_followBase m (.index i) (a + 1)
      rw [follow_indexed _ (Index.ofPrefix?_eq_some.1 hp)]
      simp only [Target.time, List.length_cons, base_followBase] at h ⊢
      simp only [reduceCtorEq, ↓reduceIte, Option.isSome_none, Bool.false_eq_true] at h ⊢
      omega
    | none => simpa [follow_plain _ hp, base_followBase] using time_followBase m .hl a

theorem Operation.extra_fetched (t : Target) (k : Registers) (m : Memory) (op : Operation) :
    op.extra (t.fetched k) m = op.extra k m := by
  cases op with
  | jump j => cases j <;> rfl
  | block b => rfl
  | extension e => cases e <;> rfl
  | _ => rfl

theorem Operation.extra_le (k : Registers) (m : Memory) (op : Operation) : op.extra k m ≤ 7 := by
  have hif (p : Prop) [Decidable p] (n : Nat) (h : n ≤ 7) : (if p then n else 0) ≤ 7 := by
    split <;> omega
  cases op with
  | jump j =>
    simp only [extra, Jump.extra]
    split <;> first | exact hif _ _ (by decide) | exact Nat.zero_le _
  | block b => exact hif _ _ (by decide)
  | extension e =>
    simp only [extra, Extension.extra]
    split <;> first | exact hif _ _ (by decide) | exact Nat.zero_le _
  | _ => exact Nat.zero_le _

end Way

namespace Cpu

/-- A machine takes a slot's instruction for itself unless the instruction is an extension that it lacks. -/
theorem resolution_target (c : Cpu) (m : Memory) {i : Instruction}
    (hi : (c.target m).page.slot (c.target m).byte = .instruction i)
    (hx : i.operation.isExtension → c.config.extensions) :
    (c.target m).resolution c.config.extensions (seenBefore c.carried) = .instruction i := by
  have ha : (c.config.extensions || !i.operation.isExtension) = true := by
    cases h : i.operation.isExtension <;> simp [h] at hx ⊢
    exact hx
  simp only [Target.resolution, hi, ha, ↓reduceIte]

/-- The step of an instruction takes the time of its way and the time of its operation. -/
theorem elapsed_instruction (c : Cpu) (bus : FlatBus) {i : Instruction} (ht : c.task = .instruction c.carried)
    (hi : (c.target bus.memory).page.slot (c.target bus.memory).byte = .instruction i)
    (hx : i.operation.isExtension → c.config.extensions) :
    (c.performed bus).value.1 = .ok none ∧
      (c.performed bus).elapsed =
        (c.target bus.memory).time + i.operation.time + i.operation.extra c.registers bus.memory := by
  rw [performed_instruction c bus ht, value_fetching, resolution_target c bus.memory hi hx]
  refine ⟨by rw [Outcome.value_after, complete, on_bind]; rfl, ?_⟩
  rw [Outcome.elapsed_after, elapsed_fetching, complete, elapsed_bind, Operation.elapsed_execute,
    (alike_fetching c bus).memory, Operation.extra_fetched, on_pure, Nat.add_zero, Nat.add_assoc]

/-- It comes to what its operation comes to, from where the fetch ends. -/
theorem value_instruction (c : Cpu) (bus : FlatBus) {i : Instruction} (ht : c.task = .instruction c.carried)
    (hi : (c.target bus.memory).page.slot (c.target bus.memory).byte = .instruction i)
    (hx : i.operation.isExtension → c.config.extensions) :
    (c.performed bus).value =
      (.ok none, (on (i.operation.execute c.config c.latch)
        { registers := (c.target bus.memory).fetched c.registers } bus).value.2) := by
  rw [performed_instruction c bus ht, value_fetching, resolution_target c bus.memory hi hx, Outcome.value_after,
    complete, on_bind]
  -- the fetch has moved the clock and the log of the bus, which an operation does not see
  have halike := (Activity.run_alike (i.operation.execute c.config c.latch
    { registers := (c.target bus.memory).fetched c.registers }) (alike_fetching c bus)).1
  exact congrArg (fun p : Unit × Execution => (Except.ok none, p.2)) halike

/-- The step of an instruction does what its operation does from where the fetch ends. -/
theorem step_slot (c : Cpu) (bus : FlatBus) {i : Instruction} (ht : c.task = .instruction c.carried)
    (hi : (c.target bus.memory).page.slot (c.target bus.memory).byte = .instruction i)
    (hx : i.operation.isExtension → c.config.extensions) :
    let m := i.operation.execute c.config c.latch
    let s : Execution := { registers := (c.target bus.memory).fetched c.registers }
    let t := (c.target bus.memory).time + (on m s bus).elapsed
    (c.step bus).result = .ok (BitVec.ofNat 32 t) ∧
      (c.step bus).cpu =
        { c.afterStep (.instruction c.carried) (.ok none) (on m s bus).value.2 with total := c.total.later t } ∧
      (c.step bus).bus.Alike (on m s bus).bus ∧
      dataAccesses (c.history bus) = dataAccesses (Microcode.history m s bus) := by
  intro m s t
  have hfetched : (c.fetching bus).value = (.instruction i, s) := by
    rw [value_fetching, resolution_target c bus.memory hi hx]
  -- the fetch has moved the clock and the log of the bus, which an operation does not see
  obtain ⟨hvalue, hhistory, hbus⟩ := Activity.run_alike (m s) (alike_fetching c bus)
  have helapsed : (on m s (c.fetching bus).bus).elapsed = (on m s bus).elapsed := by
    rw [elapsed_eq_history, elapsed_eq_history]
    exact congrArg Cycle.duration hhistory
  have hperformed : c.performed bus = ⟨(.ok none, (on m s bus).value.2), (on m s (c.fetching bus).bus).bus, t⟩ := by
    rw [performed_instruction c bus ht, hfetched, complete, on_bind, elapsed_fetching]
    refine Outcome.mk.injEq .. ▸ ⟨?_, rfl, ?_⟩
    · exact congrArg (fun p : Unit × Execution => (Except.ok none, p.2)) hvalue
    · exact congrArg ((c.target bus.memory).time + ·) helapsed
  refine ⟨?_, ?_, ?_, ?_⟩
  · rw [result_step, hperformed]
    rfl
  · rw [cpu_step, hperformed, ht]
  · rw [bus_step, hperformed]
    exact hbus
  · rw [history_instruction c bus ht, hfetched, complete, dataAccesses_append, Target.dataAccesses_cycles,
      List.nil_append, history_bind, history_pure, List.append_nil]
    exact congrArg dataAccesses hhistory

/-- The T-states of an instruction's step are the declared ones, four more for a prefix before ED, four less for
a prefix that the last step has carried over, and the extra of a branch taken or a block that goes on. -/
theorem result_instruction (c : Cpu) (bus : FlatBus) (i : Instruction) (ht : c.task = .instruction c.carried)
    (hi : (c.target bus.memory).page.slot (c.target bus.memory).byte = .instruction i)
    (hx : i.operation.isExtension → c.config.extensions) :
    ∃ T, (c.step bus).result = .ok T ∧
      T.toNat + (if c.carried.isSome then 4 else 0) =
        i.cycles + (if (c.target bus.memory).page = .extended ∧ (c.target bus.memory).base ≠ .hl then 4 else 0) +
          i.operation.extra c.registers bus.memory := by
  obtain ⟨hok, he⟩ := elapsed_instruction c bus ht hi hx
  have hway : (c.target bus.memory).time + (if c.carried.isSome then 4 else 0) =
      (c.target bus.memory).page.lead +
        if (c.target bus.memory).page = .extended ∧ (c.target bus.memory).base ≠ .hl then 4 else 0 :=
    time_follow bus.memory c.registers.pc c.carried
  obtain ⟨hdeclared, hbound⟩ := Page.cycles_slot _ _ hi
  have hextra := i.operation.extra_le c.registers bus.memory
  have hlt : (c.performed bus).elapsed < 2 ^ 32 := by
    split at hway <;> split at hway <;> omega
  refine ⟨BitVec.ofNat 32 (c.performed bus).elapsed, by rw [result_step, hok]; rfl, ?_⟩
  rw [BitVec.toNat_ofNat, Nat.mod_eq_of_lt hlt, he]
  omega

/-- A copy with more bytes to go, after ED and a prefix that the last step has carried over. -/
theorem result_copy_again :
    ∃ T, (Cpu.step { carried := some .ix, registers := { b := 0, c := 2 } }
      { memory := (Memory.zero.set 0 0xED).set 1 0xB0 : FlatBus }).result = .ok T ∧ T.toNat = 21 := by
  obtain ⟨T, hT, hn⟩ := result_instruction { carried := some .ix, registers := { b := 0, c := 2 } }
    { memory := (Memory.zero.set 0 0xED).set 1 0xB0 } ⟨.block ⟨.load, .up, true⟩, 16⟩ rfl
    (by simp [target, follow, followBase, Memory.get_set]; rfl) (by simp [Operation.isExtension])
  refine ⟨T, hT, ?_⟩
  simpa [target, follow, followBase, Operation.extra, Block.rewinds, Bank.bc, Word.ofBytes, Memory.get_set] using hn

end Cpu

end Z80Machine
