import Z80Machine.Proofs.Rounds

/-!
A repeating block copy is the loop that copies byte after byte. While the loop has not come to its end, the machine
stands at the opcode with the pointers moved, the counter down by as much, and in memory what has been copied so far.
A copy that does not write to its own opcode keeps that up until the counter runs out.
-/
namespace Z80Machine

/-- Copies `n` bytes one after the other, so that a byte written is read later on where the two blocks overlap. -/
def Memory.copy (m : Memory) (d : Direction) (src dst : Word) (n : Nat) : Memory :=
  (List.range n).foldl (fun m i => m.set (d.moved dst i) (m.get (d.moved src i))) m

namespace Memory

variable (m : Memory) (d : Direction) (src dst : Word)

@[simp] theorem copy_zero : m.copy d src dst 0 = m := rfl

theorem copy_succ (n : Nat) :
    m.copy d src dst (n + 1) =
      (m.copy d src dst n).set (d.moved dst n) ((m.copy d src dst n).get (d.moved src n)) := by
  simp only [copy, List.range_succ, List.foldl_append, List.foldl_cons, List.foldl_nil]

theorem get_copy_of_ne {a : Word} {n : Nat} (h : ∀ i < n, d.moved dst i ≠ a) :
    (m.copy d src dst n).get a = m.get a := by
  induction n with
  | zero => rfl
  | succ n ih =>
    have hlast : a ≠ d.moved dst n := (h n (by omega)).symm
    rw [copy_succ, get_set_of_ne _ _ hlast]
    exact ih fun i hi => h i (by omega)

end Memory

/-- A machine that began a copy with registers `k` and memory `m` has gone `i` rounds and stands at the opcode. -/
structure Copying (k : Registers) (m : Memory) (d : Direction) (i : Nat) (x : Machine FlatBus) : Prop where
  ready : x.cpu.Ready
  memory : x.bus.memory = m.copy d k.hl k.de i
  registers : ∃ half parity subtract x' y wz, x.cpu.registers =
    { (k.passed d i).withDe (d.moved k.de i) with f := { k.f with half, parity, subtract, x := x', y }, wz }

namespace Copying

variable {k : Registers} {m : Memory} {d : Direction} {i : Nat} {x : Machine FlatBus}

theorem start (h : x.cpu.Ready) : Copying x.cpu.registers x.bus.memory d 0 x where
  ready := h
  memory := rfl
  registers := by
    rw [Registers.passed_zero, Direction.moved_zero, Registers.withDe_de]
    exact ⟨_, _, _, _, _, _, rfl⟩

theorem bc (h : Copying k m d i x) : x.cpu.registers.bc = k.bc - BitVec.ofNat 16 i := by
  obtain ⟨half, parity, subtract, x', y, wz, hregisters⟩ := h.registers
  rw [hregisters]
  exact k.bc_passed d i

theorem hl (h : Copying k m d i x) : x.cpu.registers.hl = d.moved k.hl i := by
  obtain ⟨half, parity, subtract, x', y, wz, hregisters⟩ := h.registers
  rw [hregisters]
  exact k.hl_passed d i

theorem de (h : Copying k m d i x) : x.cpu.registers.de = d.moved k.de i := by
  obtain ⟨half, parity, subtract, x', y, wz, hregisters⟩ := h.registers
  rw [hregisters]
  exact (k.passed d i).de_withDe _

theorem pc (h : Copying k m d i x) : x.cpu.registers.pc = k.pc := by
  obtain ⟨half, parity, subtract, x', y, wz, hregisters⟩ := h.registers
  rw [hregisters]
  rfl

theorem faces (h : Copying k m d i x) (hed : m.get k.pc = 0xED)
    (hcode : m.get (k.pc + 1) = if d = .up then 0xB0 else 0xB8)
    (hspare : ∀ j < i, d.moved k.de j ≠ k.pc ∧ d.moved k.de j ≠ k.pc + 1) :
    x.cpu.Faces x.bus.memory ⟨.load, d, true⟩ := by
  constructor
  · rw [h.pc, h.memory, Memory.get_copy_of_ne _ _ _ _ fun j hj => (hspare j hj).1]
    exact hed
  · rw [h.pc, h.memory, Memory.get_copy_of_ne _ _ _ _ fun j hj => (hspare j hj).2, hcode]
    cases d <;> rfl

theorem round (h : Copying k m d i x) (hi : i < k.rounds) (hb : x.cpu.Faces x.bus.memory ⟨.load, d, true⟩) :
    (x.cpu.step x.bus).result = .ok (if i + 1 < k.rounds then 21 else 16) ∧ (x.after .step).cpu.Ready ∧
      (x.after .step).bus.memory = m.copy d k.hl k.de (i + 1) ∧
      ∃ x' y wz, (x.after .step).cpu.registers =
        { (k.passed d (i + 1)).withDe (d.moved k.de (i + 1)) with
          pc := if i + 1 < k.rounds then k.pc else k.pc + 2
          f := { k.f with half := false, parity := decide (i + 1 < k.rounds), subtract := false, x := x', y }
          wz } := by
  obtain ⟨half, parity, subtract, x', y, wz, hregisters⟩ := h.registers
  have hagain : (x.cpu.registers.bc - 1 != 0) = decide (i + 1 < k.rounds) := by rw [h.bc, k.counts_on hi]
  obtain ⟨hresult, hready, hmemory, x'', y', wz', hround⟩ := Cpu.step_load h.ready hb
  rw [hagain] at hresult hround
  simp only [decide_eq_true_iff] at hresult hround
  refine ⟨hresult, hready, ?_, x'', y', wz', ?_⟩
  · rw [Memory.copy_succ, ← h.memory, ← h.hl, ← h.de]
    exact hmemory
  · rw [h.de, Direction.next_moved] at hround
    rw [← k.passed_succ d i]
    refine hround.trans ?_
    rw [hregisters]
    rfl

theorem next (h : Copying k m d i x) (hi : i + 1 < k.rounds)
    (hb : x.cpu.Faces x.bus.memory ⟨.load, d, true⟩) : Copying k m d (i + 1) (x.after .step) := by
  obtain ⟨-, hready, hmemory, x', y, wz, hregisters⟩ := h.round (by omega) hb
  rw [if_pos hi] at hregisters
  exact ⟨hready, hmemory, _, _, _, _, _, _, hregisters⟩

end Copying

namespace Machine

theorem copying_steps (m : Machine FlatBus) (d : Direction) (hready : m.cpu.Ready)
    (hed : m.bus.memory.get m.cpu.registers.pc = 0xED)
    (hcode : m.bus.memory.get (m.cpu.registers.pc + 1) = if d = .up then 0xB0 else 0xB8)
    (hspare : ∀ i < m.cpu.registers.rounds,
      d.moved m.cpu.registers.de i ≠ m.cpu.registers.pc ∧ d.moved m.cpu.registers.de i ≠ m.cpu.registers.pc + 1) :
    ∀ i < m.cpu.registers.rounds, Copying m.cpu.registers m.bus.memory d i (m.steps i) ∧
      (m.steps i).cpu.Faces (m.steps i).bus.memory ⟨.load, d, true⟩ := by
  let k := m.cpu.registers
  have hfaces i (hi : i < k.rounds) x (h : Copying k m.bus.memory d i x) :
      x.cpu.Faces x.bus.memory ⟨.load, d, true⟩ :=
    h.faces hed hcode fun j hj => hspare j (Nat.lt_trans hj hi)
  have hcopying : ∀ i < k.rounds, Copying k m.bus.memory d i (m.steps i) := by
    refine m.steps_of_rounds (.start hready) fun i x hi h => ?_
    exact h.next hi (hfaces i (Nat.lt_of_succ_lt hi) x h)
  exact fun i hi => ⟨hcopying i hi, hfaces i hi _ (hcopying i hi)⟩

/-- After `i` rounds so many bytes have been copied. SP is as it was, and the program counter has moved only if none is
left. -/
theorem copied_steps (m : Machine FlatBus) (d : Direction) (hready : m.cpu.Ready)
    (hed : m.bus.memory.get m.cpu.registers.pc = 0xED)
    (hcode : m.bus.memory.get (m.cpu.registers.pc + 1) = if d = .up then 0xB0 else 0xB8)
    (hspare : ∀ i < m.cpu.registers.rounds,
      d.moved m.cpu.registers.de i ≠ m.cpu.registers.pc ∧ d.moved m.cpu.registers.de i ≠ m.cpu.registers.pc + 1)
    {i : Nat} (hi : i ≤ m.cpu.registers.rounds) :
    let k := m.cpu.registers
    (m.steps i).cpu.Ready ∧ (m.steps i).bus.memory = m.bus.memory.copy d k.hl k.de i ∧
      (m.steps i).cpu.registers.sp = k.sp ∧
      (m.steps i).cpu.registers.pc = if i < k.rounds then k.pc else k.pc + 2 := by
  intro k
  cases i with
  | zero => exact ⟨hready, rfl, rfl, (if_pos k.rounds_pos).symm⟩
  | succ i =>
    obtain ⟨hcopying, hfaces⟩ := m.copying_steps d hready hed hcode hspare i hi
    obtain ⟨-, hready, hmemory, x, y, wz, hregisters⟩ := hcopying.round hi hfaces
    refine ⟨hready, hmemory, ?_, ?_⟩
    · rw [steps_succ, hregisters]
      rfl
    · rw [steps_succ, hregisters]

/-- A repeating copy whose destinations are not its own opcode copies byte after byte as often as the counter says, one
byte in a step. Pointers and counter have moved on by as much, half carry, parity and subtract are clear, and all else
but X, Y, WZ and R is as it was. -/
theorem steps_copy (m : Machine FlatBus) (d : Direction) (hready : m.cpu.Ready)
    (hed : m.bus.memory.get m.cpu.registers.pc = 0xED)
    (hcode : m.bus.memory.get (m.cpu.registers.pc + 1) = if d = .up then 0xB0 else 0xB8)
    (hspare : ∀ i < m.cpu.registers.rounds,
      d.moved m.cpu.registers.de i ≠ m.cpu.registers.pc ∧ d.moved m.cpu.registers.de i ≠ m.cpu.registers.pc + 1) :
    let k := m.cpu.registers
    let n := k.rounds
    (∀ i < n, ((m.steps i).cpu.step (m.steps i).bus).result = .ok (if i + 1 < n then 21 else 16)) ∧
      (∀ i < n, (m.steps i).cpu.registers.pc = k.pc) ∧
      (m.steps n).cpu.Ready ∧
      (m.steps n).bus.memory = m.bus.memory.copy d k.hl k.de n ∧
      ∃ x y wz, (m.steps n).cpu.registers =
        { ((k.withHl (d.moved k.hl n)).withDe (d.moved k.de n)).withBc 0 with
          pc := k.pc + 2
          f := { k.f with half := false, parity := false, subtract := false, x, y }
          wz
          r := refreshedBy (2 * n) k.r } := by
  intro k n
  have hn : 0 < n := k.rounds_pos
  have hcopying : ∀ i < n, Copying k m.bus.memory d i (m.steps i) ∧
      (m.steps i).cpu.Faces (m.steps i).bus.memory ⟨.load, d, true⟩ := m.copying_steps d hready hed hcode hspare
  have hround i (hi : i < n) := (hcopying i hi).1.round hi (hcopying i hi).2
  -- the last round starts from the invariant too, but leaves the opcode behind
  have hlast := hround (n - 1) (by omega)
  have hsucc : n - 1 + 1 = n := by omega
  have hover : ¬ n < k.rounds := Nat.lt_irrefl n
  have hzero : k.bc - BitVec.ofNat 16 n = 0 := by rw [k.ofNat_rounds, BitVec.sub_self]; rfl
  rw [← steps_succ, hsucc, Registers.passed, hzero] at hlast
  simp only [hover, ↓reduceIte, decide_false] at hlast
  obtain ⟨-, hend, hmemory, hregisters⟩ := hlast
  exact ⟨fun i hi => (hround i hi).1, fun i hi => (hcopying i hi).1.pc, hend, hmemory, hregisters⟩

/-- Copied upwards by one, a byte spreads. -/
theorem steps_copy_spread :
    let m : Machine FlatBus :=
      { cpu := { registers := { c := 2, h := 0x40, d := 0x40, e := 1 } }
        bus := { memory := ((Memory.zero.set 0 0xED).set 1 0xB0).set 0x4000 7 } }
    (m.steps 2).bus.memory.get 0x4002 = 7 := by
  intro m
  have hn : m.cpu.registers.rounds = 2 := by decide
  have hhl : m.cpu.registers.hl = 0x4000 := by decide
  have hde : m.cpu.registers.de = 0x4001 := by decide
  have hspare : ∀ i < m.cpu.registers.rounds,
      Direction.up.moved m.cpu.registers.de i ≠ m.cpu.registers.pc ∧
        Direction.up.moved m.cpu.registers.de i ≠ m.cpu.registers.pc + 1 := by
    rw [hn, hde]
    decide
  obtain ⟨-, -, -, hmemory, -⟩ := m.steps_copy .up ⟨rfl, rfl, rfl, rfl⟩ (by simp [m, Memory.get_set])
    (by simp [m, Memory.get_set]) hspare
  rw [hn, hhl, hde] at hmemory
  rw [hmemory]
  simp [m, Memory.copy_succ, Direction.moved]

end Machine

end Z80Machine
