import Z80Machine.Proofs.Rounds

/-!
A repeating masked copy is the loop that copies byte after byte and leaves out those equal to the accumulator. The
destination always moves up; the source moves up, down, or round the eight bytes at HL as the destination says. Before
every round the machine stands at the opcode, and flags, WZ and the accumulator are never touched.
-/
namespace Z80Machine

open Microcode

namespace Memory

/-- Copies a byte unless it is `a`. -/
def copyUnless (m : Memory) (a : Byte) (src dst : Word) : Memory :=
  if m.get src = a then m else m.set dst (m.get src)

/-- Copies `n` bytes one after the other but for those that are `a`. A byte written is read later on where source and
destination meet. -/
def copyMasked (m : Memory) (a : Byte) (src dst : Nat → Word) (n : Nat) : Memory :=
  (List.range n).foldl (fun m i => m.copyUnless a (src i) (dst i)) m

variable (m : Memory) (a : Byte)

theorem get_copyUnless_of_ne (src : Word) {dst q : Word} (h : q ≠ dst) :
    (m.copyUnless a src dst).get q = m.get q := by
  rw [copyUnless]
  split
  · rfl
  · exact get_set_of_ne _ _ h

variable (src dst : Nat → Word)

@[simp] theorem copyMasked_zero : m.copyMasked a src dst 0 = m := rfl

theorem copyMasked_succ (n : Nat) :
    m.copyMasked a src dst (n + 1) = (m.copyMasked a src dst n).copyUnless a (src n) (dst n) := by
  simp only [copyMasked, List.range_succ, List.foldl_append, List.foldl_cons, List.foldl_nil]

/-- A masked copy changes nothing but its destinations. -/
theorem get_copyMasked_of_ne {q : Word} {n : Nat} (h : ∀ i < n, dst i ≠ q) :
    (m.copyMasked a src dst n).get q = m.get q := by
  induction n with
  | zero => rfl
  | succ n ih =>
    have hlast : q ≠ dst n := (h n (by omega)).symm
    rw [copyMasked_succ, get_copyUnless_of_ne _ _ _ hlast]
    exact ih fun i hi => h i (by omega)

end Memory

/-- How the source of a masked copy moves. -/
inductive Walk where
  | along (d : Direction)
  /-- Round the eight bytes at HL, at the place that the low bits of the destination name. -/
  | pattern
  deriving DecidableEq, Repr

namespace Walk

def operation : Walk → Extension
  | .along d => .copy d true
  | .pattern => .copyPattern

def code : Walk → Byte
  | .along .up => 0xB4
  | .along .down => 0xBC
  | .pattern => 0xB7

/-- The source when HL and DE stand as given. -/
def source (w : Walk) (hl de : Word) : Word :=
  match w with
  | .along _ => hl
  | .pattern => hl &&& 0xFFF8 ||| de &&& 7

/-- HL after `n` rounds. -/
def moved (w : Walk) (hl : Word) (n : Nat) : Word :=
  match w with
  | .along d => d.moved hl n
  | .pattern => hl

def next (w : Walk) (hl : Word) : Word :=
  match w with
  | .along d => d.next hl
  | .pattern => hl

variable (w : Walk)

@[simp] theorem moved_zero (hl : Word) : w.moved hl 0 = hl := by
  cases w with
  | along d => exact d.moved_zero hl
  | pattern => rfl

theorem next_moved (hl : Word) (n : Nat) : w.next (w.moved hl n) = w.moved hl (n + 1) := by
  cases w with
  | along d => exact d.next_moved hl n
  | pattern => rfl

theorem source_pattern (k : Registers) :
    pattern.source k.hl k.de = k.hl &&& 0xFFF8 ||| (k.e &&& 7).setWidth 16 := by
  have hhigh : ∀ i (hi : i < 16), ¬ i < 8 → (7#16)[i] = false := by decide
  have hlow : k.de &&& 7 = (k.e &&& 7).setWidth 16 := by
    ext i hi
    by_cases h8 : i < 8
    · simp [Bank.de, Word.ofBytes, h8]
    · simp [Bank.de, Word.ofBytes, h8, hhigh i hi h8]
  rw [source, hlow]

/-- HL, DE, the counter and R after `i` rounds. -/
def passed (k : Registers) (i : Nat) : Registers :=
  { ((k.withHl (w.moved k.hl i)).withDe (k.de + BitVec.ofNat 16 i)).withBc (k.bc - BitVec.ofNat 16 i) with
    r := refreshedBy (2 * i) k.r }

@[simp] theorem hl_passed (k : Registers) (i : Nat) : (w.passed k i).hl = w.moved k.hl i :=
  (k.hl_withHl _)

@[simp] theorem de_passed (k : Registers) (i : Nat) : (w.passed k i).de = k.de + BitVec.ofNat 16 i :=
  (k.withHl (w.moved k.hl i)).de_withDe _

@[simp] theorem bc_passed (k : Registers) (i : Nat) : (w.passed k i).bc = k.bc - BitVec.ofNat 16 i :=
  ((k.withHl (w.moved k.hl i)).withDe _).bc_withBc _

@[simp] theorem passed_zero (k : Registers) : w.passed k 0 = k := by
  simp [passed]

theorem passed_succ (k : Registers) (i : Nat) :
    let k' := w.passed k i
    { ((k'.withHl (w.next k'.hl)).withDe (k'.de + 1)).withBc (k'.bc - 1) with r := refreshedBy 2 k'.r } =
      w.passed k (i + 1) := by
  intro k'
  have hhl : w.next k'.hl = w.moved k.hl (i + 1) := by rw [hl_passed, next_moved]
  have hde : k'.de + 1 = k.de + BitVec.ofNat 16 (i + 1) := by
    rw [de_passed, BitVec.add_assoc, BitVec.ofNat_add]
    rfl
  have hbc : k'.bc - 1 = k.bc - BitVec.ofNat 16 (i + 1) := by
    rw [bc_passed, BitVec.sub_sub, BitVec.ofNat_add]
    rfl
  have hr : refreshedBy 2 k'.r = refreshedBy (2 * (i + 1)) k.r := refreshedBy_refreshedBy 2 (2 * i) k.r
  rw [hhl, hde, hbc, hr]
  rfl

end Walk

section Execution

variable (s : Execution) (bus : FlatBus)

theorem registers_copyMasked (a : Word) :
    (on (copyMasked a) s bus).value.2 =
      { s with registers := (s.registers.withDe (s.registers.de + 1)).withBc (s.registers.bc - 1) } := by
  by_cases h : bus.memory.get a = s.registers.a <;> simp [copyMasked, on_bind, FlatBus.answer, h]

theorem memory_copyMasked (a : Word) :
    (on (copyMasked a) s bus).bus.memory = bus.memory.copyUnless s.registers.a a s.registers.de := by
  by_cases h : bus.memory.get a = s.registers.a <;>
    simp [copyMasked, on_bind, FlatBus.answer, Memory.copyUnless, Cycle.store, h]

theorem registers_againWhileCounting :
    (on againWhileCounting s bus).value.2.registers =
      { s.registers with pc := if s.registers.bc != 0 then s.registers.pc - 2 else s.registers.pc } := by
  by_cases h : s.registers.bc = 0#16 <;> simp [againWhileCounting, on_bind, h]

theorem memory_againWhileCounting : (on againWhileCounting s bus).bus.memory = bus.memory := by
  by_cases h : s.registers.bc = 0#16 <;> simp [againWhileCounting, on_bind, h]

variable (config : Config) (w : Walk)

theorem Walk.registers_execute :
    (on (w.operation.execute config) s bus).value.2.registers =
      let k := s.registers
      { ((k.withHl (w.next k.hl)).withDe (k.de + 1)).withBc (k.bc - 1) with
        pc := if k.bc - 1 != 0 then k.pc - 2 else k.pc } := by
  cases w with
  | along d =>
    simp only [operation, Extension.execute, on_bind, on_registers, on_update, Outcome.value_after,
      registers_copyMasked, registers_againWhileCounting, ↓reduceIte, Registers.bc_withHl, Registers.bc_withBc]
    rfl
  | pattern =>
    simp only [operation, Extension.execute, on_bind, on_registers, Outcome.value_after, registers_copyMasked,
      registers_againWhileCounting, Registers.bc_withBc, next, Registers.withHl_hl]
    rfl

theorem Walk.memory_execute :
    (on (w.operation.execute config) s bus).bus.memory =
      let k := s.registers
      bus.memory.copyUnless k.a (w.source k.hl k.de) k.de := by
  cases w with
  | along d =>
    simp only [operation, Extension.execute, on_bind, on_registers, on_update, Outcome.bus_after, memory_copyMasked,
      memory_againWhileCounting, ↓reduceIte]
    rfl
  | pattern =>
    simp only [operation, Extension.execute, on_bind, on_registers, Outcome.bus_after, memory_copyMasked,
      memory_againWhileCounting, source_pattern]

end Execution

namespace Cpu

theorem step_masked {c : Cpu} {bus : FlatBus} {w : Walk} (h : c.Ready)
    (hw : c.Reaches bus.memory ⟨.extension w.operation, 16⟩) :
    let k := c.registers
    let again := k.bc - 1 != 0
    ∃ accesses, c.StepsTo bus (if again then 21 else 16)
      { ((k.withHl (w.next k.hl)).withDe (k.de + 1)).withBc (k.bc - 1) with
        pc := if again then k.pc else k.pc + 2
        r := refreshedBy 2 k.r }
      (bus.memory.copyUnless k.a (w.source k.hl k.de) k.de) accesses := by
  intro k again
  let s : Execution := { registers := { k with pc := k.pc + 2, r := refreshedBy 2 k.r } }
  have htime : 8 + Operation.time (.extension w.operation) + Operation.extra k bus.memory (.extension w.operation) =
      if again then 21 else 16 := by
    have hextra : Operation.extra k bus.memory (.extension w.operation) = if again then 5 else 0 := by
      cases w <;> simp [Operation.extra, Walk.operation, Extension.extra, again]
    have hown : Operation.time (.extension w.operation) = 8 := by cases w <;> rfl
    rw [hextra, hown]
    split <;> rfl
  have hregisters := w.registers_execute s bus c.config
  have hback : s.registers.pc - 2 = k.pc := BitVec.add_sub_cancel ..
  simp only [hback] at hregisters
  exact ⟨_, (step_reached h hw).congr htime hregisters (w.memory_execute s bus c.config) rfl⟩

end Cpu

/-- A machine that began a masked copy as `m` has gone `i` rounds and stands at `pc`. -/
structure Masking (w : Walk) (m : Machine FlatBus) (i : Nat) (pc : Word) (x : Machine FlatBus) : Prop where
  ready : x.cpu.Ready
  config : x.cpu.config = m.cpu.config
  memory : x.bus.memory =
    let k := m.cpu.registers
    m.bus.memory.copyMasked k.a (fun j => w.source (w.moved k.hl j) (k.de + BitVec.ofNat 16 j))
      (fun j => k.de + BitVec.ofNat 16 j) i
  registers : x.cpu.registers = { w.passed m.cpu.registers i with pc }

namespace Masking

variable {w : Walk} {m x : Machine FlatBus} {i : Nat}

theorem start (h : m.cpu.Ready) : Masking w m 0 m.cpu.registers.pc m where
  ready := h
  config := rfl
  memory := rfl
  registers := by rw [Walk.passed_zero]

theorem reaches (h : Masking w m i m.cpu.registers.pc x) (hextensions : m.cpu.config.extensions)
    (hed : m.bus.memory.get m.cpu.registers.pc = 0xED)
    (hcode : m.bus.memory.get (m.cpu.registers.pc + 1) = w.code)
    (hspare : ∀ j < i, m.cpu.registers.de + BitVec.ofNat 16 j ≠ m.cpu.registers.pc ∧
      m.cpu.registers.de + BitVec.ofNat 16 j ≠ m.cpu.registers.pc + 1) :
    x.cpu.Reaches x.bus.memory ⟨.extension w.operation, 16⟩ := by
  have hpc : x.cpu.registers.pc = m.cpu.registers.pc := by rw [h.registers]
  constructor
  · rw [hpc, h.memory, Memory.get_copyMasked_of_ne _ _ _ _ fun j hj => (hspare j hj).1]
    exact hed
  · rw [hpc, h.memory, Memory.get_copyMasked_of_ne _ _ _ _ fun j hj => (hspare j hj).2, hcode]
    rcases w with (_ | _) | _ <;> rfl
  · intro _
    rw [h.config]
    exact hextensions

theorem round (h : Masking w m i m.cpu.registers.pc x) (hi : i < m.cpu.registers.rounds)
    (hw : x.cpu.Reaches x.bus.memory ⟨.extension w.operation, 16⟩) :
    let k := m.cpu.registers
    let again := i + 1 < k.rounds
    (x.cpu.step x.bus).result = .ok (if again then 21 else 16) ∧
      Masking w m (i + 1) (if again then k.pc else k.pc + 2) (x.after .step) := by
  intro k again
  have hhl : x.cpu.registers.hl = w.moved k.hl i := by
    rw [h.registers]
    exact w.hl_passed k i
  have hde : x.cpu.registers.de = k.de + BitVec.ofNat 16 i := by
    rw [h.registers]
    exact w.de_passed k i
  have hbc : x.cpu.registers.bc = k.bc - BitVec.ofNat 16 i := by
    rw [h.registers]
    exact w.bc_passed k i
  have ha : x.cpu.registers.a = k.a := by
    rw [h.registers]
    rfl
  have hagain : (x.cpu.registers.bc - 1 != 0) = decide again := by rw [hbc, k.counts_on hi]
  obtain ⟨accesses, hstep⟩ := Cpu.step_masked h.ready hw
  rw [hagain] at hstep
  simp only [decide_eq_true_iff] at hstep
  refine ⟨?_, hstep.ready h.ready.interrupt h.ready.running, ?_, ?_, ?_⟩
  · rw [hstep.result]
    split <;> rfl
  · exact (x.cpu.config_step x.bus).trans h.config
  · have hmemory := hstep.memory
    rw [ha, hhl, hde, h.memory] at hmemory
    exact hmemory.trans (Memory.copyMasked_succ ..).symm
  · rw [← w.passed_succ k i]
    refine hstep.registers.trans ?_
    rw [h.registers]
    rfl

end Masking

namespace Machine

/-- A repeating masked copy whose destinations are not its own opcode copies byte after byte as often as BC says, one in
a step, and leaves out those equal to the accumulator. Afterwards BC is zero, DE has moved up and HL along its walk by
as much, and all else but R is as it was, flags and WZ included. -/
theorem steps_masked (m : Machine FlatBus) (w : Walk) (hready : m.cpu.Ready) (hextensions : m.cpu.config.extensions)
    (hed : m.bus.memory.get m.cpu.registers.pc = 0xED)
    (hcode : m.bus.memory.get (m.cpu.registers.pc + 1) = w.code)
    (hspare : ∀ i < m.cpu.registers.rounds, m.cpu.registers.de + BitVec.ofNat 16 i ≠ m.cpu.registers.pc ∧
      m.cpu.registers.de + BitVec.ofNat 16 i ≠ m.cpu.registers.pc + 1) :
    let k := m.cpu.registers
    let n := k.rounds
    let dst i := k.de + BitVec.ofNat 16 i
    let src i := w.source (w.moved k.hl i) (dst i)
    (∀ i < n, ((m.steps i).cpu.step (m.steps i).bus).result = .ok (if i + 1 < n then 21 else 16)) ∧
      (∀ i < n, (m.steps i).cpu.registers.pc = k.pc) ∧
      (m.steps n).cpu.Ready ∧
      (m.steps n).bus.memory = m.bus.memory.copyMasked k.a src dst n ∧
      (m.steps n).cpu.registers =
        { ((k.withHl (w.moved k.hl n)).withDe (dst n)).withBc 0 with
          pc := k.pc + 2
          r := refreshedBy (2 * n) k.r } := by
  intro k n dst src
  have hn : 0 < n := k.rounds_pos
  have hreaches : ∀ i < n, ∀ x, Masking w m i k.pc x → x.cpu.Reaches x.bus.memory ⟨.extension w.operation, 16⟩ := by
    intro i hi x h
    exact h.reaches hextensions hed hcode fun j hj => hspare j (Nat.lt_trans hj hi)
  have hmasking : ∀ i < n, Masking w m i k.pc (m.steps i) := by
    refine m.steps_of_rounds (.start hready) fun i x hi h => ?_
    have hin : i < n := Nat.lt_of_succ_lt hi
    have hnext := (h.round hin (hreaches i hin x h)).2
    rwa [if_pos hi] at hnext
  have hround i (hi : i < n) := (hmasking i hi).round hi (hreaches i hi _ (hmasking i hi))
  -- the last round starts from the invariant too, but leaves the opcode behind
  have hlast := (hround (n - 1) (by omega)).2
  have hsucc : n - 1 + 1 = n := by omega
  rw [← steps_succ, hsucc, if_neg (Nat.lt_irrefl n)] at hlast
  have hzero : k.bc - BitVec.ofNat 16 n = 0 := by
    rw [k.ofNat_rounds, BitVec.sub_self]
    rfl
  have hregisters := hlast.registers
  rw [Walk.passed, hzero] at hregisters
  refine ⟨fun i hi => (hround i hi).1, ?_, hlast.ready, hlast.memory, hregisters⟩
  intro i hi
  rw [(hmasking i hi).registers]

/-- Of two bytes of a pattern the one that equals the accumulator is left out. -/
theorem steps_masked_pattern :
    let m : Machine FlatBus :=
      { cpu := { registers := { a := 5, c := 2, d := 0x40, e := 6, h := 0x50 } }
        bus := { memory := ((((Memory.zero.set 0 0xED).set 1 0xB7).set 0x5006 5).set 0x5007 9).set 0x4006 3 } }
    (m.steps 2).bus.memory.get 0x4006 = 3 ∧ (m.steps 2).bus.memory.get 0x4007 = 9 := by
  intro m
  have hn : m.cpu.registers.rounds = 2 := by decide
  have hde : m.cpu.registers.de = 0x4006 := by decide
  have hhl : m.cpu.registers.hl = 0x5000 := by decide
  have hspare : ∀ i < m.cpu.registers.rounds, m.cpu.registers.de + BitVec.ofNat 16 i ≠ m.cpu.registers.pc ∧
      m.cpu.registers.de + BitVec.ofNat 16 i ≠ m.cpu.registers.pc + 1 := by
    rw [hn, hde]
    decide
  obtain ⟨-, -, -, hmemory, -⟩ := m.steps_masked .pattern ⟨rfl, rfl, rfl, rfl⟩ rfl (by simp [m, Memory.get_set])
    (by simp [m, Memory.get_set, Walk.code]) hspare
  have hleft : m.bus.memory.copyUnless 5 0x5006 0x4006 = m.bus.memory := if_pos (by simp [m, Memory.get_set])
  have hcopied : m.bus.memory.copyUnless 5 0x5007 0x4007 = m.bus.memory.set 0x4007 9 := by
    have hbyte : m.bus.memory.get 0x5007 = 9 := by simp [m, Memory.get_set]
    rw [Memory.copyUnless, hbyte]
    rfl
  rw [hn, hhl, hde] at hmemory
  have hend : (m.steps 2).bus.memory = m.bus.memory.set 0x4007 9 := by
    rw [hmemory, Memory.copyMasked_succ, Memory.copyMasked_succ, Memory.copyMasked_zero]
    show (m.bus.memory.copyUnless 5 0x5006 0x4006).copyUnless 5 0x5007 0x4007 = _
    rw [hleft, hcopied]
  rw [hend]
  simp [m, Memory.get_set]

end Machine

end Z80Machine
