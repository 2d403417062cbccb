import Z80Machine.Machine
import Z80Machine.Proofs.Bounds
import Z80Machine.Proofs.Opcodes

/-!
The refresh counter. A step has one M1 cycle for each opcode byte that it fetches, and one if it fetches no instruction.
Bit 7 of R stays and its low seven bits count the M1 cycles of every step, whether it fails or not, unless the step
executes LD R,A; so they do over any course without one.
-/
namespace Z80Machine

open Microcode

theorem msb_refreshedBy (n : Nat) (r : Byte) : (refreshedBy n r).msb = r.msb := by
  rw [BitVec.msb_eq_decide, BitVec.msb_eq_decide, toNat_refreshedBy]
  have hr := r.isLt
  congr 1
  rw [eq_iff_iff]
  omega

theorem toNat_refreshedBy_mod (n : Nat) (r : Byte) : (refreshedBy n r).toNat % 128 = (r.toNat + n) % 128 := by
  rw [toNat_refreshedBy]
  omega

theorem Operation.r_controlled {op : Operation} (h : op ≠ .transfer .loadToR) (a : Byte) (k : Registers × Bool) :
    (op.controlled a k).1.r = k.1.r := by
  cases op with
  | transfer t =>
    cases t with
    | loadToR => exact absurd rfl h
    | _ => rfl
  | jump j => cases j <;> rfl
  | control o => cases o <;> rfl
  | _ => rfl

namespace Cpu

variable {β : Type} [Bus β] (c : Cpu) (bus : β)

/-- The M1 cycles of a step: that of a halted processor, that of a response which fetches nothing, or one for each
opcode byte, from memory or from the device. -/
def refreshes : Nat :=
  match c.task with
  | .instruction _ => (opcodeBytes (c.history bus)).length
  | .interrupt => if c.registers.im = 0 then (opcodeBytes (c.history bus)).length else 1
  | .nmi | .idle => 1

variable {bus}

theorem refreshes_of_resolution {o : Resolution} (h : c.resolution? bus = some o) :
    c.refreshes bus = (opcodeBytes (c.history bus)).length := by
  rw [refreshes]
  cases ht : c.task with
  | instruction carried => rfl
  | interrupt =>
    by_cases hm : c.registers.im = 0
    · exact if_pos hm
    · simp only [resolution?, ht, hm, ↓reduceIte] at h
      contradiction
  | nmi | idle =>
    rw [resolution?, ht] at h
    contradiction

theorem refreshes_of_resolution_none (h : c.resolution? bus = none) : c.refreshes bus = 1 := by
  rw [refreshes]
  cases ht : c.task with
  | instruction carried =>
    rw [resolution?, ht] at h
    contradiction
  | interrupt => exact if_neg (im_ne_zero ht h)
  | nmi | idle => rfl

/-- Where the bytes of an instruction lead to a slot, the M1 cycles are those of its opcode bytes. -/
theorem refreshes_of_decoded {bus : FlatBus} {t : Target} (h : c.decoded bus.memory = some t) :
    c.refreshes bus = t.opcode.length := by
  rw [← c.opcodes_history h, refreshes]
  rcases decoded_eq_some.1 h with ⟨ht, -⟩ | ⟨ht, hm, -⟩
  · rw [ht]
    rfl
  · simp only [ht, hm, ↓reduceIte]
    rfl

theorem r_sourced {o : Resolution} (h : c.resolution? bus = some o) :
    (c.sourced bus).value.2.registers.r = refreshedBy (c.refreshes bus) c.registers.r := by
  rw [(c.opened_sourced h).refresh, c.refreshes_of_resolution h]

variable (bus)

theorem r_step (h : c.operation? bus ≠ some (.transfer .loadToR)) :
    (c.step bus).cpu.registers.r = refreshedBy (c.refreshes bus) c.registers.r := by
  rw [registers_step]
  cases ho : c.resolution? bus with
  | none =>
    obtain ⟨sp, pc, wz, iff1, iff2, halted, hregisters⟩ := c.registers_unfetched ho
    rw [hregisters, c.refreshes_of_resolution_none ho]
  | some o =>
    rw [operation?_of_resolution c ho] at h
    rw [c.value_sourced ho, ← c.r_sourced ho]
    cases hq : o.operation? with
    | none => rfl
    | some op =>
      have hne : op ≠ .transfer .loadToR := fun he => h (by rw [hq, he])
      have hcontrol := op.control_execute (c.sourced bus).value.2 (c.sourced bus).bus c.config c.latch
      exact (congrArg (·.1.r) hcontrol).trans (Operation.r_controlled hne _ _)

theorem r_step_loadToR (h : c.operation? bus = some (.transfer .loadToR)) :
    (c.step bus).cpu.registers.r = c.registers.a ∧ (c.step bus).cpu.registers.a = c.registers.a := by
  rw [registers_step, c.value_executed h, ← c.bank_sourced bus]
  exact ⟨rfl, rfl⟩

/-- LD A,R loads R as its own fetch has left it. -/
theorem a_step_loadFromR (h : c.operation? bus = some (.transfer .loadFromR)) :
    (c.step bus).cpu.registers.a = refreshedBy (c.refreshes bus) c.registers.r := by
  obtain ⟨o, ho, -⟩ := Option.bind_eq_some_iff.1 h
  rw [registers_step, c.value_executed h, ← c.r_sourced ho]
  rfl

end Cpu

namespace Machine

variable {β : Type} [Bus β] (m : Machine β) (deeds : Nat → Deed)

/-- A deed leaves R to the law: no reset, no writing of R, and no step that executes LD R,A. -/
def KeepsCount : Deed → Prop
  | .step => m.cpu.operation? m.bus ≠ some (.transfer .loadToR)
  | .write f => ∀ k, (f k).r = k.r
  | .reset => False
  | .request _ | .withdraw | .supply _ => True

/-- The M1 cycles of the first `n` deeds of a course. -/
def refreshes : Nat → Nat
  | 0 => 0
  | n + 1 =>
    refreshes n + match deeds n with
      | .step => (m.stage deeds n).cpu.refreshes (m.stage deeds n).bus
      | _ => 0

theorem r_stage (n : Nat) (h : ∀ i < n, (m.stage deeds i).KeepsCount (deeds i)) :
    (m.stage deeds n).cpu.registers.r = refreshedBy (m.refreshes deeds n) m.cpu.registers.r := by
  induction n with
  | zero => exact (refreshedBy_zero _).symm
  | succ n ih =>
    have hlast := h n (Nat.lt_succ_self n)
    rw [stage_succ, refreshes, ← refreshedBy_refreshedBy, ← ih fun i hi => h i (Nat.lt_succ_of_lt hi)]
    cases hd : deeds n with
    | step =>
      rw [hd] at hlast
      exact Cpu.r_step _ _ hlast
    | write f =>
      rw [hd] at hlast
      exact (hlast _).trans (refreshedBy_zero _).symm
    | reset =>
      rw [hd] at hlast
      contradiction
    | request maskable => cases maskable <;> exact (refreshedBy_zero _).symm
    | withdraw | supply data => exact (refreshedBy_zero _).symm

/-- Whether it fails or not, a step without LD R,A leaves bit 7 of R and moves its low seven bits by the M1 cycles. On a
plain bus these are the opcode bytes that lead to the slot, neither displacement nor operand nor a prefix carried into
the step among them. LD R,A leaves R equal to A, and LD A,R loads R as it stands after the fetch. So over a course
without LD R,A the number of M1 cycles says what becomes of R. -/
theorem refresh_law (m : Machine β) (deeds : Nat → Deed) (n : Nat) :
    let c := m.cpu
    let k := c.registers
    let k' := (c.step m.bus).cpu.registers
    let o := c.operation? m.bus
    (o ≠ some (.transfer .loadToR) →
        k'.r.msb = k.r.msb ∧ k'.r.toNat % 128 = (k.r.toNat + c.refreshes m.bus) % 128) ∧
      (∀ (bus : FlatBus) (t : Target), c.decoded bus.memory = some t → c.refreshes bus = t.opcode.length) ∧
      (o = some (.transfer .loadToR) → k'.r = k.a ∧ k'.a = k.a) ∧
      (o = some (.transfer .loadFromR) → k'.a = k'.r ∧ k'.a = refreshedBy (c.refreshes m.bus) k.r) ∧
      ((∀ i < n, (m.stage deeds i).KeepsCount (deeds i)) →
        let r := (m.stage deeds n).cpu.registers.r
        r.msb = k.r.msb ∧ r.toNat % 128 = (k.r.toNat + m.refreshes deeds n) % 128) := by
  intro c k k' o
  refine ⟨fun ho => ?_, fun bus t ht => ?_, c.r_step_loadToR m.bus, fun ho => ?_, fun h => ?_⟩
  · have hr : k'.r = refreshedBy (c.refreshes m.bus) k.r := c.r_step m.bus ho
    rw [hr]
    exact ⟨msb_refreshedBy .., toNat_refreshedBy_mod ..⟩
  · exact c.refreshes_of_decoded ht
  · have hne : o ≠ some (.transfer .loadToR) := by simp [ho]
    have hr : k'.r = refreshedBy (c.refreshes m.bus) k.r := c.r_step m.bus hne
    have ha := c.a_step_loadFromR m.bus ho
    exact ⟨ha.trans hr.symm, ha⟩
  · intro r
    have hr : r = refreshedBy (m.refreshes deeds n) k.r := m.r_stage deeds n h
    rw [hr]
    exact ⟨msb_refreshedBy .., toNat_refreshedBy_mod ..⟩

/-- RLC (IX+0) has two M1 cycles and a NOP after it has one, which takes R from FF round to 82. -/
theorem refresh_law_indexedBits :
    let cpu : Cpu := { registers := { Registers.powerOn with r := 0xFF } }
    let bus : FlatBus := { memory := ((Memory.zero.set 0 0xDD).set 1 0xCB).set 3 0x06 }
    let r := (({ cpu, bus } : Machine FlatBus).stage (fun _ => .step) 2).cpu.registers.r
    r.msb = true ∧ r.toNat % 128 = 2 := by
  intro cpu bus r
  let m : Machine FlatBus := { cpu, bus }
  have hcount : m.refreshes (fun _ => .step) 2 = 3 := by decide +kernel
  have hfirst : m.cpu.operation? m.bus ≠ some (.transfer .loadToR) := by decide +kernel
  have hsecond : (m.cpu.step m.bus).cpu.operation? (m.cpu.step m.bus).bus ≠ some (.transfer .loadToR) := by
    decide +kernel
  have hkeeps : ∀ i < 2, (m.stage (fun _ => .step) i).KeepsCount .step
    | 0, _ => hfirst
    | 1, _ => hsecond
  obtain ⟨hmsb, hlow⟩ := (m.refresh_law (fun _ => .step) 2).2.2.2.2 hkeeps
  have hr : m.cpu.registers.r = 0xFF := rfl
  rw [hr] at hmsb hlow
  rw [hcount] at hlow
  exact ⟨hmsb, hlow⟩

end Machine

end Z80Machine
