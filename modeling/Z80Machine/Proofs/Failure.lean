import Z80Machine.Proofs.Step

/-!
When a step fails and what it leaves behind. Only an extended opcode that the machine lacks makes a step fail, and
only under the policy to fault; the step has then fetched the opcode and done nothing else.
-/
namespace Z80Machine

open Microcode

/-- A machine lacks byte `x` of the extended page: nothing is there, or an extension that was not built in. -/
def Config.Lacks (config : Config) (x : Byte) : Prop :=
  Page.extended.slot x = .undefined ∨
    ∃ i, Page.extended.slot x = .instruction i ∧ i.operation.isExtension ∧ config.extensions = false

theorem Config.lacks_iff (config : Config) (x : Byte) :
    config.Lacks x ↔ extendedSlot config.extensions x = none := by
  unfold Lacks extendedSlot
  cases hx : extendedPage x with
  | none => simp [Page.slot, hx]
  | some i => cases he : config.extensions <;> simp [Page.slot, hx]

theorem followBase_undefined (config : Config) (m : Memory) (b : Base) (a : Word) (seen w : Window) :
    (followBase m b a).resolution config.extensions seen = .undefined w ↔
      m.get a = 0xED ∧ config.Lacks (m.get (a + 1)) ∧ w = (seen.push 0xED).push (m.get (a + 1)) := by
  by_cases he : m.get a = 0xED
  · rw [followBase_extended _ b he, config.lacks_iff]
    generalize m.get (a + 1) = x
    cases hx : extendedPage x with
    | none => simp [Target.resolution, Page.slot, extendedSlot, hx, he, @eq_comm _ w]
    | some i =>
      cases ha : config.extensions || !i.operation.isExtension <;>
        simp [Target.resolution, Page.slot, extendedSlot, Option.filter, hx, he, ha, @eq_comm _ w]
  refine iff_of_false (fun h => ?_) fun h => he h.1
  by_cases hb : m.get a = 0xCB
  · rcases b with _ | i
    · simp [followBase_bits _ hb, Target.resolution, Page.slot, bitsPage, Operation.isExtension] at h
    · simp [followBase_indexedBits _ i hb, Target.resolution, Page.slot, indexedBitsPage,
        Operation.isExtension] at h
  rw [followBase_opening _ b he hb] at h
  cases hp : Index.ofPrefix? (m.get a) with
  | some i =>
    simp [Target.resolution, Page.slot, b.opening_prefixed (Index.ofPrefix?_eq_some.1 hp)] at h
  | none =>
    obtain ⟨i, hi, hx⟩ := b.opening_plain hb he hp
    simp [Target.resolution, Page.slot, hi, hx] at h

namespace Cpu

section Complete

variable (c : Cpu) (a : Word) (s : Execution) {β : Type} [Bus β] (bus : β)

theorem complete_error (o : Resolution) (f : Fault) :
    (on (c.complete a o) s bus).value.1 = .error f ↔
      c.config.undefined = .fault ∧ ∃ w, o = .undefined w ∧ f = .undefinedOpcode a w.toList := by
  cases o with
  | instruction i => simp [complete, on_map]
  | carry i => simp [complete]
  | undefined w => cases hu : c.config.undefined <;> simp [complete, hu, eq_comm]

end Complete

section Tasks

variable (c : Cpu) {β : Type} [Bus β] (bus : β)

theorem acceptNmi_ok (s : Execution) : (on acceptNmi s bus).value.1 = .ok none := by
  simp [acceptNmi, on_bind, on_map]

theorem idle_ok (s : Execution) : (on idle s bus).value.1 = .ok none := by
  simp [idle, on_bind, on_map]

theorem acceptInterrupt_ok (s : Execution) (h : s.registers.im ≠ 0) :
    (on c.acceptInterrupt s bus).value.1 = .ok none := by
  by_cases hm : s.registers.im = 1
  · simp [acceptInterrupt, on_bind, on_map, hm]
  · simp only [acceptInterrupt, on_bind, on_update, on_registers, on_pure, Outcome.value_after, h, hm, ↓reduceIte]

end Tasks

section Opcode

variable (c : Cpu) (m : Memory)

/-- The opcode of the instruction at hand is ED and a byte that the machine lacks, after `before`: nothing or an
index prefix. The step fetches `n` bytes of it, all but a carried prefix. -/
structure MeetsUndefined (before : List Byte) (x : Byte) (n : Nat) : Prop where
  opcode : (c.carried.map Index.prefixByte).toList ++ m.slice c.registers.pc n = before ++ [0xED, x]
  before_le : before = [] ∨ ∃ i : Index, before = [i.prefixByte]
  lacks : c.config.Lacks x

theorem prefixByte_ne (i : Index) : i.prefixByte ≠ 0xED := by
  cases i <;> decide

/-- Fetching ends in an undefined opcode only where one stands, and has then fetched just that. -/
theorem meetsUndefined_of_target {w : Window}
    (h : (c.target m).resolution c.config.extensions (seenBefore c.carried) = .undefined w) :
    ∃ before x n, c.MeetsUndefined m before x n ∧ w.toList = before ++ [0xED, x] ∧
      (c.target m).opcode = m.slice c.registers.pc n ∧ (c.target m).operands = [] ∧
      c.start + BitVec.ofNat 16 (before.length + 2) = c.registers.pc + BitVec.ofNat 16 n := by
  cases hc : c.carried with
  | some i =>
    rw [target, hc, follow_carried, followBase_undefined] at h
    obtain ⟨he, hx, rfl⟩ := h
    refine ⟨[i.prefixByte], m.get (c.registers.pc + 1), 2, ⟨?_, .inr ⟨i, rfl⟩, hx⟩, rfl, ?_, ?_, ?_⟩
    · simp [hc, Memory.slice, he]
    · simp [target, hc, follow_carried, followBase_extended _ _ he, Memory.slice]
    · simp [target, hc, follow_carried, followBase_extended _ _ he]
    · simp only [start, hc, List.length_singleton]
      bv_omega
  | none =>
    cases hp : Index.ofPrefix? (m.get c.registers.pc) with
    | some i =>
      have hv := Index.ofPrefix?_eq_some.1 hp
      simp only [target, hc, follow_indexed _ hv] at h ⊢
      obtain ⟨he, hx, rfl⟩ :=
        (followBase_undefined _ _ _ _ (Window.empty.push (m.get c.registers.pc)) _).1 h
      refine ⟨[i.prefixByte], m.get (c.registers.pc + 1 + 1), 3, ⟨?_, .inr ⟨i, rfl⟩, hx⟩, ?_, ?_, ?_, ?_⟩
      · simp only [hc, Memory.slice, hv, he, Option.map_none, Option.toList_none, List.nil_append,
          List.singleton_append]
      · rw [hv]
        rfl
      · rw [followBase_extended _ _ he]
        rfl
      · rw [followBase_extended _ _ he]
      · simp [start, hc]
    | none =>
      simp only [target, hc, follow_plain _ hp] at h ⊢
      obtain ⟨he, hx, rfl⟩ := (followBase_undefined _ _ _ _ _ _).1 h
      refine ⟨[], m.get (c.registers.pc + 1), 2, ⟨?_, .inl rfl, hx⟩, rfl, ?_, ?_, ?_⟩
      · simp [hc, Memory.slice, he]
      · simp [followBase_extended _ _ he, Memory.slice]
      · simp [followBase_extended _ _ he]
      · simp [start, hc]

theorem target_of_meetsUndefined {before : List Byte} {x : Byte} {n : Nat} (h : c.MeetsUndefined m before x n) :
    ∃ w, (c.target m).resolution c.config.extensions (seenBefore c.carried) = .undefined w := by
  obtain ⟨ho, hb, hx⟩ := h
  cases hc : c.carried with
  | some i =>
    rcases hb with rfl | ⟨j, rfl⟩
    · exact absurd (List.cons.inj (by simpa [hc] using ho)).1 (prefixByte_ne i)
    · simp only [hc, Option.map_some, Option.toList_some, List.singleton_append, List.cons.injEq,
        Memory.slice_eq_cons] at ho
      obtain ⟨-, _, -, he, _, -, rfl, -⟩ := ho
      exact ⟨_, by rw [target, hc, follow_carried, followBase_undefined]; exact ⟨he, hx, rfl⟩⟩
  | none =>
    rcases hb with rfl | ⟨j, rfl⟩
    · simp only [hc, Option.map_none, Option.toList_none, List.nil_append, Memory.slice_eq_cons] at ho
      obtain ⟨_, -, he, _, -, rfl, -⟩ := ho
      have hp : Index.ofPrefix? (m.get c.registers.pc) = none := by
        rw [he]
        rfl
      exact ⟨_, by rw [target, hc, follow_plain _ hp, followBase_undefined]; exact ⟨he, hx, rfl⟩⟩
    · simp only [hc, Option.map_none, Option.toList_none, List.nil_append, List.singleton_append,
        Memory.slice_eq_cons] at ho
      obtain ⟨_, -, hv, _, -, he, _, -, rfl, -⟩ := ho
      refine ⟨((Window.empty.push (m.get c.registers.pc)).push 0xED).push (m.get (c.registers.pc + 1 + 1)), ?_⟩
      simp only [target, hc, follow_indexed _ hv]
      exact (followBase_undefined _ _ _ _ (Window.empty.push (m.get c.registers.pc)) _).2 ⟨he, hx, rfl⟩

end Opcode

section Law

variable (c : Cpu) (bus : FlatBus)

theorem result_error (f : Fault) :
    (c.step bus).result = .error f ↔ (c.performed bus).value.1 = .error f := by
  rw [result_step]
  cases (c.performed bus).value.1 <;> simp [Except.map]

theorem performed_error (ht : c.task = .instruction c.carried) (f : Fault) :
    (c.performed bus).value.1 = .error f ↔
      c.config.undefined = .fault ∧
        ∃ w, (c.target bus.memory).resolution c.config.extensions (seenBefore c.carried) = .undefined w ∧
          f = .undefinedOpcode c.start w.toList := by
  rw [performed_instruction c bus ht, value_fetching, Outcome.value_after, complete_error]

/-- Only an instruction fails, the program's own or one that a device supplies, and only under the policy to
fault. -/
theorem fault_of_error {f : Fault} (h : (c.performed bus).value.1 = .error f) :
    c.config.undefined = .fault ∧
      (c.task = .instruction c.carried ∨ c.task = .interrupt ∧ c.registers.im = 0) := by
  cases ht : c.task with
  | instruction carried =>
    obtain rfl := eq_carried_of_task ht
    exact ⟨((performed_error c bus ht f).1 h).1, .inl rfl⟩
  | nmi =>
    rw [performed, ht, perform, acceptNmi_ok] at h
    contradiction
  | interrupt =>
    rw [performed, ht, perform] at h
    by_cases hm : c.registers.im = 0
    · refine ⟨?_, .inr ⟨rfl, hm⟩⟩
      have hstart : c.starting.registers.im = 0 := hm
      simp only [acceptInterrupt, on_bind, on_update, on_registers, Outcome.value_after, hstart, ↓reduceIte,
        complete_error] at h
      exact h.1
    · rw [acceptInterrupt_ok c bus _ hm] at h
      contradiction
  | idle =>
    rw [performed, ht, perform, idle_ok] at h
    contradiction

theorem step_of_undefined (ht : c.task = .instruction c.carried) {w : Window} {n : Nat}
    (hw : (c.target bus.memory).resolution c.config.extensions (seenBefore c.carried) = .undefined w)
    (hf : c.config.undefined = .fault)
    (hn : (c.target bus.memory).opcode = bus.memory.slice c.registers.pc n)
    (ho : (c.target bus.memory).operands = []) :
    (c.step bus).cpu =
        { c with
          registers := { c.registers with
            pc := c.registers.pc + BitVec.ofNat 16 n, r := refreshedBy n c.registers.r }
          latch := .clear, eiDelay := false, carried := none, total := c.total.later (4 * n) } ∧
      (c.step bus).bus.memory = bus.memory ∧
      (c.step bus).bus.clock = bus.clock + 4 * n ∧
      c.history bus = Target.opcodeCycles c.registers.pc (bus.memory.slice c.registers.pc n) := by
  have hending : c.complete c.start (.undefined w) = pure (.error (.undefinedOpcode c.start w.toList)) := by
    rw [complete, hf]
  obtain ⟨-, hcpu, hbus, hcycles⟩ := step_fetched c bus ht hw hending ho
  rw [hn] at hcycles
  refine ⟨?_, hbus.memory, ?_, hcycles⟩
  · rw [hcpu, ht, hn, Memory.length_slice]
    simp [afterStep]
  · rw [clock_step, elapsed_performed, hcycles, Target.duration_opcodeCycles, Memory.length_slice]

/-- The law of failure. Under the policy to pass no step fails. A step that does not take an instruction from a
device fails exactly if an undefined opcode stands at hand and the policy is to fault. The fault then names the
opcode and its address; the step has fetched the opcode and nothing else has happened. -/
theorem step_error :
    (c.config.undefined = .nop → ∃ T, (c.step bus).result = .ok T) ∧
    (¬(c.task = .interrupt ∧ c.registers.im = 0) →
      ((∃ f, (c.step bus).result = .error f) ↔
        c.task = .instruction c.carried ∧ c.config.undefined = .fault ∧
          ∃ before x n, c.MeetsUndefined bus.memory before x n) ∧
      ∀ f, (c.step bus).result = .error f →
        ∃ before x n a, c.MeetsUndefined bus.memory before x n ∧
          f = .undefinedOpcode a (before ++ [0xED, x]) ∧
          a + BitVec.ofNat 16 (before ++ [0xED, x]).length = (c.step bus).cpu.registers.pc ∧
          (c.step bus).cpu =
            { c with
              registers := { c.registers with
                pc := c.registers.pc + BitVec.ofNat 16 n, r := refreshedBy n c.registers.r }
              latch := .clear, eiDelay := false, carried := none, total := c.total.later (4 * n) } ∧
          (c.step bus).bus.memory = bus.memory ∧
          (c.step bus).bus.clock = bus.clock + 4 * n ∧
          c.history bus = Target.opcodeCycles c.registers.pc (bus.memory.slice c.registers.pc n)) := by
  refine ⟨fun hn => ?_, fun hd => ⟨⟨?_, ?_⟩, ?_⟩⟩
  · cases h : (c.performed bus).value.1 with
    | ok carried => exact ⟨_, by rw [result_step, h]; rfl⟩
    | error f =>
      have hf := (fault_of_error c bus h).1
      rw [hn] at hf
      contradiction
  · rintro ⟨f, h⟩
    rw [result_error] at h
    obtain ⟨hf, ht⟩ := fault_of_error c bus h
    have ht := ht.resolve_right hd
    obtain ⟨-, w, hw, -⟩ := (performed_error c bus ht f).1 h
    obtain ⟨before, x, n, hm, -⟩ := meetsUndefined_of_target c bus.memory hw
    exact ⟨ht, hf, before, x, n, hm⟩
  · rintro ⟨ht, hf, before, x, n, hm⟩
    obtain ⟨w, hw⟩ := target_of_meetsUndefined c bus.memory hm
    exact ⟨_, (result_error c bus _).2 ((performed_error c bus ht _).2 ⟨hf, w, hw, rfl⟩)⟩
  · intro f h
    rw [result_error] at h
    obtain ⟨hf, ht⟩ := fault_of_error c bus h
    have ht := ht.resolve_right hd
    obtain ⟨-, w, hw, rfl⟩ := (performed_error c bus ht f).1 h
    obtain ⟨before, x, n, hm, hlist, hopcode, hoperands, hstart⟩ := meetsUndefined_of_target c bus.memory hw
    have hstep := step_of_undefined c bus ht hw hf hopcode hoperands
    refine ⟨before, x, n, c.start, hm, by rw [hlist], ?_, hstep⟩
    rw [hstep.1, List.length_append]
    exact hstart

/-- ED 00 after a prefix that the last step has carried over: the fault counts the prefix, which stood below. -/
theorem step_error_carried :
    (Cpu.step { carried := some .ix } { memory := Memory.zero.set 0 0xED : FlatBus }).result =
      .error (.undefinedOpcode 0xFFFF [0xDD, 0xED, 0x00]) := by
  obtain ⟨-, h⟩ := step_error { carried := some .ix } { memory := Memory.zero.set 0 0xED }
  obtain ⟨hiff, hall⟩ := h (by decide)
  have hmeets : MeetsUndefined { carried := some .ix } (Memory.zero.set 0 0xED) [0xDD] 0x00 2 :=
    ⟨by simp [Memory.slice, Memory.get_set, Registers.powerOn, Index.prefixByte], .inr ⟨.ix, rfl⟩, .inl rfl⟩
  obtain ⟨f, hf⟩ := hiff.2 ⟨rfl, rfl, _, _, _, hmeets⟩
  obtain ⟨before, x, n, a, ⟨hopcode, hbefore, -⟩, rfl, ha, hcpu, -⟩ := hall f hf
  rw [hf]
  rcases hbefore with rfl | ⟨i, rfl⟩
  · simp [Index.prefixByte] at hopcode
  simp only [Option.map_some, Option.toList_some, List.singleton_append, List.cons.injEq,
    Memory.slice_eq_cons] at hopcode
  obtain ⟨hi, k, rfl, -, k', rfl, hx, hk⟩ := hopcode
  rw [hcpu] at ha
  cases k' with
  | succ k => simp [Memory.slice] at hk
  | zero =>
    have hx0 : x = 0 := by
      rw [← hx]
      simp [Memory.get_set, Registers.powerOn]
    have ha0 : a = 0xFFFF := by
      have h3 : a + 3 = 2 := ha
      bv_omega
    rw [← hi, hx0, ha0]
    rfl

end Law

end Cpu

end Z80Machine
