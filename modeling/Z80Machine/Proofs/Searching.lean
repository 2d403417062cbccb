import Z80Machine.Proofs.Rounds

/-!
A repeating block comparison is a search for the first byte that equals the accumulator. It makes attempts until one
succeeds or the counter runs out; before its last attempt none has succeeded, memory is as it was, and the machine
stands at the opcode with HL moved and the counter down by the attempts made.
-/
namespace Z80Machine

/-- How many of `n` attempts are made when the first success ends them. -/
def attempts (p : Nat → Bool) (n : Nat) : Nat :=
  match (List.range n).find? p with
  | some i => i + 1
  | none => n

section Attempts

variable {p : Nat → Bool} {n : Nat}

theorem attempts_le (p : Nat → Bool) (n : Nat) : attempts p n ≤ n := by
  cases h : (List.range n).find? p with
  | none => simp only [attempts, h, Nat.le_refl]
  | some i =>
    obtain ⟨-, hi, -⟩ := List.find?_range_eq_some.1 h
    simp only [attempts, h]
    exact List.mem_range.1 hi

theorem attempts_pos (p : Nat → Bool) (hn : 0 < n) : 0 < attempts p n := by
  cases h : (List.range n).find? p with
  | none => simpa only [attempts, h] using hn
  | some i => simp only [attempts, h, Nat.succ_pos]

theorem succ_lt_attempts {i : Nat} (hi : i < attempts p n) :
    i + 1 < attempts p n ↔ i + 1 < n ∧ p i = false := by
  cases h : (List.range n).find? p with
  | none =>
    have hfail := List.find?_range_eq_none.1 h
    simp only [attempts, h] at hi ⊢
    have hp : p i = false := by simpa using hfail i hi
    exact ⟨fun hlt => ⟨hlt, hp⟩, fun hlt => hlt.1⟩
  | some j =>
    obtain ⟨hsuccess, hj, hfail⟩ := List.find?_range_eq_some.1 h
    have hjn := List.mem_range.1 hj
    simp only [attempts, h] at hi ⊢
    constructor
    · intro hlt
      have hp : p i = false := by simpa using hfail i (by omega)
      exact ⟨by omega, hp⟩
    · rintro ⟨-, hp⟩
      have hne : i ≠ j := by
        rintro rfl
        rw [hsuccess] at hp
        contradiction
      omega

theorem any_range_eq (hn : 0 < n) : (List.range n).any p = p (attempts p n - 1) := by
  cases h : (List.range n).find? p with
  | none =>
    have hfail := List.find?_range_eq_none.1 h
    have hlast : p (n - 1) = false := by simpa using hfail (n - 1) (by omega)
    simp only [attempts, h, hlast, List.any_eq_false, List.mem_range]
    intro i hi
    simpa using hfail i hi
  | some j =>
    obtain ⟨hsuccess, hj, -⟩ := List.find?_range_eq_some.1 h
    simp only [attempts, h, Nat.add_sub_cancel, hsuccess, List.any_eq_true]
    exact ⟨j, hj, hsuccess⟩

end Attempts

/-- A machine that began a search with registers `k` and memory `m` has made `i` attempts and stands at the opcode. -/
structure Searching (k : Registers) (m : Memory) (d : Direction) (i : Nat) (x : Machine FlatBus) : Prop where
  ready : x.cpu.Ready
  memory : x.bus.memory = m
  registers : ∃ f wz, x.cpu.registers = { k.passed d i with f, wz } ∧ f.carry = k.f.carry

namespace Searching

variable {k : Registers} {m : Memory} {d : Direction} {i : Nat} {x : Machine FlatBus}

theorem start (h : x.cpu.Ready) : Searching x.cpu.registers x.bus.memory d 0 x where
  ready := h
  memory := rfl
  registers := by
    rw [Registers.passed_zero]
    exact ⟨_, _, rfl, rfl⟩

theorem faces (h : Searching k m d i x) (hed : m.get k.pc = 0xED)
    (hcode : m.get (k.pc + 1) = if d = .up then 0xB1 else 0xB9) :
    x.cpu.Faces x.bus.memory ⟨.compare, d, true⟩ := by
  obtain ⟨f, wz, hregisters, hf⟩ := h.registers
  have hpc : x.cpu.registers.pc = k.pc := by
    rw [hregisters]
    rfl
  constructor
  · rw [hpc, h.memory]
    exact hed
  · rw [hpc, h.memory, hcode]
    cases d <;> rfl

theorem round (h : Searching k m d i x) (hi : i < k.rounds) (hb : x.cpu.Faces x.bus.memory ⟨.compare, d, true⟩) :
    (x.cpu.step x.bus).result = .ok (if i + 1 < k.rounds ∧ m.get (d.moved k.hl i) ≠ k.a then 21 else 16) ∧
      (x.after .step).cpu.Ready ∧ (x.after .step).bus.memory = m ∧
      ∃ x' y wz, (x.after .step).cpu.registers =
        { k.passed d (i + 1) with
          pc := if i + 1 < k.rounds ∧ m.get (d.moved k.hl i) ≠ k.a then k.pc else k.pc + 2
          f :=
            { (subtract k.a (m.get (d.moved k.hl i)) false).flags with
              parity := k.bc - BitVec.ofNat 16 (i + 1) != 0, carry := k.f.carry, x := x', y }
          wz } := by
  obtain ⟨f, wz, hregisters, hf⟩ := h.registers
  have hbc : x.cpu.registers.bc = k.bc - BitVec.ofNat 16 i := by
    rw [hregisters]
    exact k.bc_passed d i
  have hhl : x.cpu.registers.hl = d.moved k.hl i := by
    rw [hregisters]
    exact k.hl_passed d i
  have ha : x.cpu.registers.a = k.a := by rw [hregisters]; rfl
  have hcarry : x.cpu.registers.f.carry = k.f.carry := by rw [hregisters, hf]
  have hv : x.bus.memory.get x.cpu.registers.hl = m.get (d.moved k.hl i) := by rw [h.memory, hhl]
  have hagain : (x.cpu.registers.bc - 1 != 0 && x.cpu.registers.a != x.bus.memory.get x.cpu.registers.hl) =
      decide (i + 1 < k.rounds ∧ m.get (d.moved k.hl i) ≠ k.a) := by
    rw [hbc, ha, hv, k.counts_on hi, bne_comm, Bool.decide_and, decide_not]
    rfl
  have hparity : (x.cpu.registers.bc - 1 != 0) = (k.bc - BitVec.ofNat 16 (i + 1) != 0) := by
    rw [hbc, BitVec.sub_sub, BitVec.ofNat_add]
    rfl
  obtain ⟨hresult, hready, hmemory, x', y, wz', hround⟩ := Cpu.step_compare h.ready hb
  rw [hagain] at hresult hround
  rw [ha, hv, hcarry, hparity] at hround
  simp only [decide_eq_true_iff] at hresult hround
  refine ⟨hresult, hready, hmemory.trans h.memory, x', y, wz', ?_⟩
  rw [← k.passed_succ d i]
  refine hround.trans ?_
  rw [hregisters]
  rfl

theorem next (h : Searching k m d i x) (hi : i + 1 < k.rounds ∧ m.get (d.moved k.hl i) ≠ k.a)
    (hb : x.cpu.Faces x.bus.memory ⟨.compare, d, true⟩) : Searching k m d (i + 1) (x.after .step) := by
  obtain ⟨-, hready, hmemory, x', y, wz, hregisters⟩ := h.round (by omega) hb
  rw [if_pos hi] at hregisters
  exact ⟨hready, hmemory, _, _, hregisters, rfl⟩

end Searching

namespace Machine

/-- A repeating comparison looks from HL on for the byte in the accumulator, one byte in a step, up to the first match
or until the counter runs out. The zero flag tells whether there is a match and parity whether the counter has not run
out; sign and half carry are those of the accumulator less the last byte. -/
theorem steps_search (m : Machine FlatBus) (d : Direction) (hready : m.cpu.Ready)
    (hed : m.bus.memory.get m.cpu.registers.pc = 0xED)
    (hcode : m.bus.memory.get (m.cpu.registers.pc + 1) = if d = .up then 0xB1 else 0xB9) :
    let k := m.cpu.registers
    let found i := m.bus.memory.get (d.moved k.hl i) == k.a
    let t := attempts found k.rounds
    let last := m.bus.memory.get (d.moved k.hl (t - 1))
    (∀ i < t, ((m.steps i).cpu.step (m.steps i).bus).result = .ok (if i + 1 < t then 21 else 16)) ∧
      (∀ i < t, (m.steps i).cpu.registers.pc = k.pc) ∧
      (m.steps t).cpu.Ready ∧
      (m.steps t).bus.memory = m.bus.memory ∧
      ∃ x y wz, (m.steps t).cpu.registers =
        { (k.withHl (d.moved k.hl t)).withBc (k.bc - BitVec.ofNat 16 t) with
          pc := k.pc + 2
          f :=
            { sign := (k.a - last).msb
              zero := (List.range k.rounds).any found
              half := decide (k.a.toNat % 16 < last.toNat % 16)
              parity := k.bc - BitVec.ofNat 16 t != 0
              subtract := true
              carry := k.f.carry
              x, y }
          wz
          r := refreshedBy (2 * t) k.r } := by
  intro k found t last
  have ht : 0 < t := attempts_pos found k.rounds_pos
  have hle : t ≤ k.rounds := attempts_le found k.rounds
  -- the machine goes on after an attempt exactly when another one is made
  have hmore : ∀ i < t, (i + 1 < k.rounds ∧ m.bus.memory.get (d.moved k.hl i) ≠ k.a ↔ i + 1 < t) := by
    intro i hi
    rw [succ_lt_attempts hi, beq_eq_false_iff_ne]
  have hsearching : ∀ i < t, Searching k m.bus.memory d i (m.steps i) := by
    intro i hi
    induction i with
    | zero => exact .start hready
    | succ i ih =>
      have hbefore := ih (by omega)
      exact hbefore.next ((hmore i (by omega)).2 hi) (hbefore.faces hed hcode)
  have hround i (hi : i < t) :=
    (hsearching i hi).round (Nat.lt_of_lt_of_le hi hle) ((hsearching i hi).faces hed hcode)
  have hlast := hround (t - 1) (by omega)
  have hsucc : t - 1 + 1 = t := by omega
  have hzero : (k.a == last) = (List.range k.rounds).any found := by
    rw [any_range_eq k.rounds_pos]
    exact BEq.comm
  simp only [hmore (t - 1) (by omega)] at hlast
  rw [← steps_succ, hsucc] at hlast
  simp only [Nat.lt_irrefl, ↓reduceIte] at hlast
  rw [sign_subtract, half_subtract, zero_subtract, hzero, Registers.passed] at hlast
  obtain ⟨-, hdone, hmemory, hregisters⟩ := hlast
  refine ⟨?_, ?_, hdone, hmemory, hregisters⟩
  · intro i hi
    rw [(hround i hi).1]
    simp only [hmore i hi]
  · intro i hi
    obtain ⟨f, wz, hbefore, -⟩ := (hsearching i hi).registers
    rw [hbefore]
    rfl

/-- The second of three bytes is the one. -/
theorem steps_search_second :
    let m : Machine FlatBus :=
      { cpu := { registers := { a := 7, c := 3, l := 0x10 } }
        bus := { memory := ((Memory.zero.set 0 0xED).set 1 0xB1).set 0x11 7 } }
    (m.steps 2).cpu.registers.hl = 0x12 ∧ (m.steps 2).cpu.registers.f.zero = true := by
  intro m
  have ht : attempts (fun i => m.bus.memory.get (Direction.up.moved m.cpu.registers.hl i) == m.cpu.registers.a)
      m.cpu.registers.rounds = 2 := by decide +kernel
  have hany : (List.range m.cpu.registers.rounds).any
      (fun i => m.bus.memory.get (Direction.up.moved m.cpu.registers.hl i) == m.cpu.registers.a) = true := by
    decide +kernel
  obtain ⟨-, -, -, -, x, y, wz, hregisters⟩ := m.steps_search .up ⟨rfl, rfl, rfl, rfl⟩ (by simp [m, Memory.get_set])
    (by simp [m, Memory.get_set])
  rw [ht, hany] at hregisters
  rw [hregisters]
  have hhl : Direction.up.moved m.cpu.registers.hl 2 = 0x12 := by decide
  exact ⟨(m.cpu.registers.hl_withHl _).trans hhl, rfl⟩

end Machine

end Z80Machine
