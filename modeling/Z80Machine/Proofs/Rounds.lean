import Z80Machine.Machine
import Z80Machine.Proofs.Timing

/-!
Rounds of block operations. `step_reached` says of any instruction of the extended page that a step at it is its
operation, after two opcode bytes. A step at a block operation is one round of it, and a repeating form that has not
finished leaves the program counter where it was. `step_load` and `step_compare` say what a round of a copy and of a
search does to registers and memory; with a counter of zero a block goes round 65536 times.
-/
namespace Z80Machine

open Microcode

/-- What `v` becomes in `n` moves. -/
def Direction.moved (d : Direction) (v : Word) (n : Nat) : Word :=
  match d with
  | .up => v + BitVec.ofNat 16 n
  | .down => v - BitVec.ofNat 16 n

@[simp] theorem Direction.moved_zero (d : Direction) (v : Word) : d.moved v 0 = v := by
  cases d <;> simp [moved]

theorem Direction.next_moved (d : Direction) (v : Word) (n : Nat) : d.next (d.moved v n) = d.moved v (n + 1) := by
  cases d with
  | up => exact (BitVec.add_assoc ..).trans (congrArg (v + ·) (BitVec.ofNat_add ..).symm)
  | down => exact (BitVec.sub_sub ..).trans (congrArg (v - ·) (BitVec.ofNat_add ..).symm)

/-- The machine after `n` steps with nothing in between. -/
def Machine.steps {β : Type} [Bus β] (m : Machine β) (n : Nat) : Machine β := m.stage (fun _ => .step) n

theorem Machine.steps_succ {β : Type} [Bus β] (m : Machine β) (n : Nat) :
    m.steps (n + 1) = (m.steps n).after .step := rfl

/-- What holds when a loop begins and goes on from each of its rounds but the last to the next holds before every
round. -/
theorem Machine.steps_of_rounds {β : Type} [Bus β] {P : Nat → Machine β → Prop} {n : Nat} (m : Machine β)
    (hstart : P 0 m) (hnext : ∀ i x, i + 1 < n → P i x → P (i + 1) (x.after .step)) : ∀ i < n, P i (m.steps i) := by
  intro i hi
  induction i with
  | zero => exact hstart
  | succ i ih => exact hnext i _ hi (ih (by omega))

section Countdown

variable {w : Nat} (v : BitVec w)

/-- A counter that is counted down from `v` to zero goes round once more than `v - 1` says, so from zero it goes all the
way round. -/
theorem ofNat_countdown : BitVec.ofNat w ((v - 1).toNat + 1) = v := by
  rw [BitVec.ofNat_add, BitVec.ofNat_toNat, BitVec.setWidth_eq]
  exact BitVec.sub_add_cancel v 1

/-- After a round the counter has something left exactly when there is another round. -/
theorem counts_down {i : Nat} (hi : i < (v - 1).toNat + 1) :
    (v - BitVec.ofNat w i - 1 != 0) = decide (i + 1 < (v - 1).toNat + 1) := by
  have hlt : i < 2 ^ w := Nat.lt_of_le_of_lt (Nat.le_of_lt_succ hi) (v - 1).isLt
  have hswap : v - BitVec.ofNat w i - 1 = v - 1 - BitVec.ofNat w i := by
    rw [BitVec.sub_sub, BitVec.sub_sub, BitVec.add_comm]
  have hend : v - 1 - BitVec.ofNat w i = 0 ↔ i = (v - 1).toNat := by
    constructor
    · intro h
      have heq : v - 1 = BitVec.ofNat w i := (BitVec.sub_eq_iff_eq_add.1 h).trans (BitVec.zero_add _)
      rw [heq, BitVec.toNat_ofNat, Nat.mod_eq_of_lt hlt]
    · intro h
      rw [h, BitVec.ofNat_toNat, BitVec.setWidth_eq, BitVec.sub_self]
      rfl
  rw [Bool.eq_iff_iff, bne_iff_ne, ne_eq, hswap, hend, decide_eq_true_iff]
  omega

end Countdown

/-- How often a block goes round that counts in BC. -/
def Registers.rounds (k : Registers) : Nat := if k.bc = 0 then 65536 else k.bc.toNat

namespace Registers

variable (k : Registers)

theorem rounds_eq : k.rounds = (k.bc - 1).toNat + 1 := by
  rw [rounds]
  split
  · rw [‹k.bc = 0›]
    rfl
  · bv_omega

theorem rounds_pos : 0 < k.rounds := by
  rw [rounds_eq]
  exact Nat.succ_pos _

theorem ofNat_rounds : BitVec.ofNat 16 k.rounds = k.bc := by
  rw [rounds_eq, ofNat_countdown]

theorem counts_on {i : Nat} (hi : i < k.rounds) :
    (k.bc - BitVec.ofNat 16 i - 1 != 0) = decide (i + 1 < k.rounds) := by
  rw [rounds_eq] at hi ⊢
  exact counts_down k.bc hi

/-- HL, the counter and R after `i` rounds. -/
def passed (d : Direction) (i : Nat) : Registers :=
  { (k.withHl (d.moved k.hl i)).withBc (k.bc - BitVec.ofNat 16 i) with r := refreshedBy (2 * i) k.r }

@[simp] theorem bc_passed (d : Direction) (i : Nat) : (k.passed d i).bc = k.bc - BitVec.ofNat 16 i :=
  (k.withHl _).bc_withBc _

@[simp] theorem hl_passed (d : Direction) (i : Nat) : (k.passed d i).hl = d.moved k.hl i := k.hl_withHl _

@[simp] theorem passed_zero (d : Direction) : k.passed d 0 = k := by
  simp [passed]

theorem passed_succ (d : Direction) (i : Nat) :
    let k' := k.passed d i
    { (k'.withHl (d.next k'.hl)).withBc (k'.bc - 1) with r := refreshedBy 2 k'.r } = k.passed d (i + 1) := by
  intro k'
  have hhl : d.next k'.hl = d.moved k.hl (i + 1) := by rw [hl_passed, Direction.next_moved]
  have hbc : k'.bc - 1 = k.bc - BitVec.ofNat 16 (i + 1) := by
    rw [bc_passed]
    bv_omega
  have hr : refreshedBy 2 k'.r = refreshedBy (2 * (i + 1)) k.r := refreshedBy_refreshedBy 2 (2 * i) k.r
  rw [hhl, hbc, hr]
  rfl

def finished (again : Bool) (shown last : Flags) : Registers :=
  if again then { k with pc := k.pc - 2, wz := k.pc - 1, f := shown.withXY (k.pc - 2).high }
  else { k with f := last }

/-- The end of a round at `pc` moves the program counter, if at all, and sets X, Y and WZ. -/
theorem finished_block (pc : Word) (hpc : k.pc = pc + 2) (again : Bool) (f : Flags) (v : Byte) :
    ∃ x y wz, k.finished again f (f.withBlockXY v) =
      { k with pc := if again then pc else pc + 2, f := { f with x, y }, wz } := by
  cases again with
  | false =>
    refine ⟨v.getLsbD 3, v.getLsbD 1, k.wz, ?_⟩
    rw [← hpc]
    rfl
  | true =>
    have hback : k.pc - 2 = pc := by rw [hpc, BitVec.add_sub_cancel]
    refine ⟨pc.high.getLsbD 3, pc.high.getLsbD 5, k.pc - 1, ?_⟩
    rw [finished, hback]
    rfl

def loaded (d : Direction) (v : Byte) : Registers :=
  let again := k.bc - 1 != 0
  let moved := ((k.withHl (d.next k.hl)).withDe (d.next k.de)).withBc (k.bc - 1)
  let f := { k.f with half := false, parity := again, subtract := false }
  finished { moved with pc := k.pc + 2, r := refreshedBy 2 k.r } again f (f.withBlockXY (v + k.a))

theorem loaded_eq (d : Direction) (v : Byte) :
    let again := k.bc - 1 != 0
    ∃ x y wz, k.loaded d v =
      { ((k.withHl (d.next k.hl)).withDe (d.next k.de)).withBc (k.bc - 1) with
        pc := if again then k.pc else k.pc + 2
        f := { k.f with half := false, parity := again, subtract := false, x, y }
        wz
        r := refreshedBy 2 k.r } :=
  finished_block _ k.pc rfl ..

@[simp] theorem sp_loaded (d : Direction) (v : Byte) : (k.loaded d v).sp = k.sp := by
  obtain ⟨x, y, wz, h⟩ := k.loaded_eq d v
  rw [h]
  rfl

@[simp] theorem halted_loaded (d : Direction) (v : Byte) : (k.loaded d v).halted = k.halted := by
  obtain ⟨x, y, wz, h⟩ := k.loaded_eq d v
  rw [h]
  rfl

end Registers

section Execution

variable (b : Block) (s : Execution) (bus : FlatBus)

@[simp] theorem registers_finishBlock (again : Bool) (shown last : Flags) :
    (on (finishBlock again shown last) s bus).value.2.registers = s.registers.finished again shown last := by
  cases again <;> rfl

@[simp] theorem memory_finishBlock (again : Bool) (shown last : Flags) :
    (on (finishBlock again shown last) s bus).bus.memory = bus.memory := by
  cases again <;> rfl

theorem Block.registers_load :
    (on b.load s bus).value.2.registers =
      let k := s.registers
      let moved := ((k.withHl (b.direction.next k.hl)).withDe (b.direction.next k.de)).withBc (k.bc - 1)
      let f := { k.f with half := false, parity := k.bc - 1 != 0, subtract := false }
      moved.finished (b.repeating && k.bc - 1 != 0) f (f.withBlockXY (bus.memory.get k.hl + k.a)) := by
  simp only [load, on_bind, on_registers, on_readByte, on_writeByte, on_pause, on_update, Outcome.value_after,
    registers_finishBlock, Registers.bc_withBc]
  rfl

theorem Block.memory_load :
    (on b.load s bus).bus.memory = bus.memory.set s.registers.de (bus.memory.get s.registers.hl) := by
  simp only [load, on_bind, on_registers, on_readByte, on_writeByte, on_pause, on_update, Outcome.bus_after,
    memory_finishBlock]
  rfl

theorem Block.registers_compare :
    (on b.compare s bus).value.2.registers =
      let k := s.registers
      let v := bus.memory.get k.hl
      let moved := { (k.withHl (b.direction.next k.hl)).withBc (k.bc - 1) with wz := b.direction.next k.wz }
      let r := subtract k.a v false
      let f := { r.flags with parity := k.bc - 1 != 0, carry := k.f.carry }
      moved.finished (b.repeating && k.bc - 1 != 0 && k.a != v) f
        (f.withBlockXY (r.value - (BitVec.ofBool r.flags.half).setWidth 8)) := by
  simp only [compare, on_bind, on_registers, on_readByte, on_pause, on_update, Outcome.value_after,
    registers_finishBlock, Registers.bc_withBc, zero_subtract]
  rfl

theorem Block.memory_compare : (on b.compare s bus).bus.memory = bus.memory := by
  simp only [compare, on_bind, on_registers, on_readByte, on_pause, on_update, Outcome.bus_after, memory_finishBlock]
  rfl

end Execution

namespace Cpu

/-- Between two instructions, with nothing to accept. -/
structure Ready (c : Cpu) : Prop where
  carried : c.carried = none
  running : c.registers.halted = false
  interrupt : c.interruptPending = false
  nmi : c.nmiPending = false

/-- The bytes at the program counter name an instruction of the extended page that the machine has. -/
structure Reaches (c : Cpu) (m : Memory) (i : Instruction) : Prop where
  lead : m.get c.registers.pc = 0xED
  code : extendedPage (m.get (c.registers.pc + 1)) = some i
  present : i.operation.isExtension → c.config.extensions

/-- The bytes at the program counter name a block. -/
structure Faces (c : Cpu) (m : Memory) (b : Block) : Prop where
  lead : m.get c.registers.pc = 0xED
  code : extendedPage (m.get (c.registers.pc + 1)) = some ⟨.block b, 16⟩

/-- A step of `t` T-states that leaves registers and memory as given and makes these accesses besides fetching, after
which no NMI is to be accepted. -/
structure StepsTo (c : Cpu) (bus : FlatBus) (t : Nat) (k : Registers) (m : Memory)
    (accesses : List (Access × Word × Byte)) : Prop where
  result : (c.step bus).result = .ok (BitVec.ofNat 32 t)
  total : (c.step bus).cpu.total = c.total.later t
  registers : (c.step bus).cpu.registers = k
  memory : (c.step bus).bus.memory = m
  accesses : dataAccesses (c.history bus) = accesses
  carried : (c.step bus).cpu.carried = none
  interrupt : (c.step bus).cpu.interruptPending = c.interruptPending
  nmi : (c.step bus).cpu.nmiPending = false

variable {c : Cpu} {bus : FlatBus} {b : Block}

theorem Ready.task (h : c.Ready) : c.task = .instruction c.carried := by
  have hmasked : (c.interruptPending && c.registers.iff1 && !c.eiDelay) = false := by simp [h.interrupt]
  exact task_eq_instruction.2 (.inr ⟨h.nmi, hmasked, h.running⟩)

theorem StepsTo.congr {t t' : Nat} {k k' : Registers} {m m' : Memory} {accesses accesses' : List (Access × Word × Byte)}
    (hs : c.StepsTo bus t k m accesses) (ht : t = t') (hk : k = k') (hm : m = m') (ha : accesses = accesses') :
    c.StepsTo bus t' k' m' accesses' := by
  rwa [← ht, ← hk, ← hm, ← ha]

/-- A step that does not halt the processor leaves it ready for the next one. -/
theorem StepsTo.ready {t : Nat} {k : Registers} {m : Memory} {accesses : List (Access × Word × Byte)}
    (hs : c.StepsTo bus t k m accesses) (hi : c.interruptPending = false) (hk : k.halted = false) :
    (c.step bus).cpu.Ready where
  carried := hs.carried
  running := by rw [hs.registers, hk]
  interrupt := by rw [hs.interrupt, hi]
  nmi := hs.nmi

theorem Faces.reaches {m : Memory} (hb : c.Faces m b) : c.Reaches m ⟨.block b, 16⟩ where
  lead := hb.lead
  code := hb.code
  present := fun h => absurd h Bool.false_ne_true

theorem Reaches.target {m : Memory} {i : Instruction} (hi : c.Reaches m i) (h : c.carried = none) :
    c.target m =
      { base := .hl, page := .extended, byte := m.get (c.registers.pc + 1)
        opcode := [m.get c.registers.pc, m.get (c.registers.pc + 1)] } := by
  have hplain : Index.ofPrefix? (m.get c.registers.pc) = none := by
    rw [hi.lead]
    rfl
  rw [Cpu.target, h, follow_plain _ hplain, followBase_extended _ _ hi.lead]

theorem Reaches.slot {m : Memory} {i : Instruction} (hi : c.Reaches m i) (h : c.carried = none) :
    (c.target m).page.slot (c.target m).byte = .instruction i := by
  rw [hi.target h]
  simp only [Page.slot, hi.code]

/-- The step at an instruction of the extended page is its operation, after two opcode bytes. -/
theorem step_reached {i : Instruction} (h : c.Ready) (hi : c.Reaches bus.memory i) :
    let s : Execution :=
      { registers := { c.registers with pc := c.registers.pc + 2, r := refreshedBy 2 c.registers.r } }
    let m := i.operation.execute c.config c.latch
    c.StepsTo bus (8 + i.operation.time + i.operation.extra c.registers bus.memory)
      (on m s bus).value.2.registers (on m s bus).bus.memory (dataAccesses (Microcode.history m s bus)) := by
  intro s m
  have htarget := hi.target h.carried
  have hslot := hi.slot h.carried
  obtain ⟨hresult, hcpu, hbus, haccesses⟩ := step_slot c bus h.task hslot hi.present
  have hfetched : (c.target bus.memory).fetched c.registers = s.registers := by
    rw [htarget]
    rfl
  have htime : (c.target bus.memory).time = 8 := by
    rw [htarget]
    rfl
  rw [hfetched, htime] at hresult hcpu
  rw [hfetched] at hbus haccesses
  have helapsed : (on m s bus).elapsed = i.operation.time + i.operation.extra c.registers bus.memory :=
    i.operation.elapsed_execute s bus c.config c.latch
  rw [helapsed, ← Nat.add_assoc] at hresult hcpu
  constructor
  · exact hresult
  · rw [hcpu]
  · rw [hcpu]
    rfl
  · exact hbus.memory
  · exact haccesses
  · rw [hcpu]
    rfl
  · rw [interruptPending_step, h.interrupt, Bool.false_and]
  · rw [nmiPending_step, h.nmi, Bool.false_and]

theorem step_block (h : c.Ready) (hb : c.Faces bus.memory b) :
    let s : Execution :=
      { registers := { c.registers with pc := c.registers.pc + 2, r := refreshedBy 2 c.registers.r } }
    (c.step bus).result = .ok (if b.rewinds c.registers bus.memory then 21 else 16) ∧
      (c.step bus).cpu.registers = (on b.execute s bus).value.2.registers ∧
      (c.step bus).bus.memory = (on b.execute s bus).bus.memory ∧
      (c.step bus).cpu.carried = none ∧
      (c.step bus).cpu.interruptPending = false ∧ (c.step bus).cpu.nmiPending = false := by
  intro s
  have hstep := step_reached h hb.reaches
  refine ⟨?_, hstep.registers, hstep.memory, hstep.carried, hstep.interrupt.trans h.interrupt, hstep.nmi⟩
  rw [hstep.result]
  show Except.ok (BitVec.ofNat 32 (8 + 8 + if b.rewinds c.registers bus.memory then 5 else 0)) = _
  split <;> rfl

theorem step_loaded {d : Direction} (h : c.Ready) (hb : c.Faces bus.memory ⟨.load, d, true⟩) :
    let k := c.registers
    let v := bus.memory.get k.hl
    ∃ accesses, c.StepsTo bus (if k.bc - 1 != 0 then 21 else 16) (k.loaded d v) (bus.memory.set k.de v) accesses := by
  intro k v
  refine ⟨_, (step_reached h hb.reaches).congr ?_ (Block.registers_load ..) (Block.memory_load ..) rfl⟩
  show 8 + 8 + (if k.bc - 1 != 0 then 5 else 0) = if k.bc - 1 != 0 then 21 else 16
  split <;> rfl

theorem step_load {d : Direction} (h : c.Ready) (hb : c.Faces bus.memory ⟨.load, d, true⟩) :
    let k := c.registers
    let again := k.bc - 1 != 0
    (c.step bus).result = .ok (if again then 21 else 16) ∧ (c.step bus).cpu.Ready ∧
      (c.step bus).bus.memory = bus.memory.set k.de (bus.memory.get k.hl) ∧
      ∃ x y wz, (c.step bus).cpu.registers =
        { ((k.withHl (d.next k.hl)).withDe (d.next k.de)).withBc (k.bc - 1) with
          pc := if again then k.pc else k.pc + 2
          f := { k.f with half := false, parity := again, subtract := false, x, y }
          wz
          r := refreshedBy 2 k.r } := by
  intro k again
  obtain ⟨accesses, hstep⟩ := step_loaded h hb
  obtain ⟨x, y, wz, hfinished⟩ := k.loaded_eq d (bus.memory.get k.hl)
  have hrunning : (k.loaded d (bus.memory.get k.hl)).halted = false := (k.halted_loaded ..).trans h.running
  refine ⟨?_, hstep.ready h.interrupt hrunning, hstep.memory, x, y, wz, hstep.registers.trans hfinished⟩
  rw [hstep.result]
  split <;> rfl

/-- A round of a search. The flags are those of the accumulator less the byte, but for parity and carry. -/
theorem step_compare {d : Direction} (h : c.Ready) (hb : c.Faces bus.memory ⟨.compare, d, true⟩) :
    let k := c.registers
    let v := bus.memory.get k.hl
    let again := k.bc - 1 != 0 && k.a != v
    (c.step bus).result = .ok (if again then 21 else 16) ∧ (c.step bus).cpu.Ready ∧
      (c.step bus).bus.memory = bus.memory ∧
      ∃ x y wz, (c.step bus).cpu.registers =
        { (k.withHl (d.next k.hl)).withBc (k.bc - 1) with
          pc := if again then k.pc else k.pc + 2
          f := { (subtract k.a v false).flags with parity := k.bc - 1 != 0, carry := k.f.carry, x, y }
          wz
          r := refreshedBy 2 k.r } := by
  intro k v again
  obtain ⟨hresult, hregisters, hmemory, hcarried, hinterrupt, hnmi⟩ := step_block h hb
  let fetched : Registers := { k with pc := k.pc + 2, r := refreshedBy 2 k.r }
  let moved := { (fetched.withHl (d.next k.hl)).withBc (k.bc - 1) with wz := d.next k.wz }
  have hround : (c.step bus).cpu.registers = moved.finished again _ _ := hregisters.trans (Block.registers_compare ..)
  obtain ⟨x, y, wz, hfinished⟩ := moved.finished_block k.pc rfl again _ _
  have hrunning : (c.step bus).cpu.registers.halted = false := by
    rw [hround, hfinished]
    exact h.running
  exact ⟨hresult, ⟨hcarried, hrunning, hinterrupt, hnmi⟩, hmemory.trans (Block.memory_compare ..), x, y, wz,
    hround.trans hfinished⟩

end Cpu

end Z80Machine
