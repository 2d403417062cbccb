import Z80Machine.Proofs.Interrupts

/-!
Where the bytes lead that a device supplies. `followSupplied` says it of the bytes, without taking them: each index
prefix replaces the one before it, and what then comes leads on as it would in memory. `value_fetchSupplied` and
`history_fetchSupplied` say that taking the bytes ends in that slot, and that nothing is read on the bus.
-/
namespace Z80Machine

open Microcode

/-- A memory that reads from address 0 on like a supply, of which all bytes past its end are FF. -/
def Memory.supplying (vs : List Byte) : Memory := .ofFn fun a => vs.getD a.toNat 0xFF

/-- Takes an instruction from supplied bytes with a base. -/
def followSupplied (b : Base) : List Byte → Target
  | [] => followBase (.supplying []) b 0
  | v :: vs => match Index.ofPrefix? v with
    | some i =>
      let t := followSupplied (.index i) vs
      { t with opcode := v :: t.opcode }
    | none => followBase (.supplying (v :: vs)) b 0

/-- The cycles of taking the bytes from a device. -/
def Target.suppliedCycles (t : Target) : List Cycle :=
  t.opcode.map (fun v => .paused (.opcode v)) ++ match t.operands with
    | [d, o] => [.paused (.operand d), .paused (.operand o), .paused (.internal 2)]
    | _ => []

theorem Target.duration_suppliedCycles (t : Target) : Cycle.duration t.suppliedCycles = t.time := by
  have hopcode (vs : List Byte) : Cycle.duration (vs.map fun v => .paused (.opcode v)) = 4 * vs.length := by
    induction vs with
    | nil => rfl
    | cons v vs ih =>
      simp only [List.map_cons, Cycle.duration, List.length_cons, ih, Cycle.time, Pause.time]
      omega
  rw [suppliedCycles, Cycle.duration_append, hopcode, time]
  split <;> simp_all [Cycle.duration, Cycle.time, Pause.time]

theorem Target.forall_mem_suppliedCycles {P : Cycle → Prop} (t : Target) (hopcode : ∀ v, P (.paused (.opcode v)))
    (hoperand : ∀ v, P (.paused (.operand v))) (hpause : P (.paused (.internal 2))) :
    ∀ x ∈ t.suppliedCycles, P x := by
  rw [suppliedCycles, List.forall_mem_append, List.forall_mem_map]
  refine ⟨fun v _ => hopcode v, ?_⟩
  split
  · exact List.forall_mem_cons.2 ⟨hoperand _, List.forall_mem_cons.2 ⟨hoperand _, List.forall_mem_singleton.2 hpause⟩⟩
  · exact List.forall_mem_nil _

theorem length_followBase (m : Memory) (b : Base) (a : Word) :
    1 ≤ (followBase m b a).opcode.length ∧ (followBase m b a).opcode.length ≤ 2 := by
  simp only [followBase]
  split
  · simp
  split
  · cases b <;> simp
  · simp

section Supplying

variable (vs : List Byte)

theorem Memory.get_supplying (a : Word) : (Memory.supplying vs).get a = vs.getD a.toNat 0xFF := get_ofFn _ a

/-- The first three bytes, which are as many as lead from a base to a slot. -/
theorem Memory.supplying_first :
    (supplying vs).get 0 = (supplied vs).1 ∧ (supplying vs).get (0 + 1) = (supplied (supplied vs).2).1 ∧
      (supplying vs).get (0 + 2) = (supplied (supplied (supplied vs).2).2).1 := by
  simp only [get_supplying, supplied_fst, getD_supplied]
  exact ⟨rfl, rfl, rfl⟩

theorem drop_supplied :
    vs.tail = (supplied vs).2 ∧ vs.drop 2 = (supplied (supplied vs).2).2 ∧
      vs.drop 3 = (supplied (supplied (supplied vs).2).2).2 := by
  rcases vs with _ | ⟨_, _ | ⟨_, _ | ⟨_, _⟩⟩⟩ <;> exact ⟨rfl, rfl, rfl⟩

theorem followSupplied_plain (b : Base) (h : Index.ofPrefix? (supplied vs).1 = none) :
    followSupplied b vs = followBase (.supplying vs) b 0 := by
  cases vs with
  | nil => rfl
  | cons v vs =>
    simp only [supplied] at h
    simp only [followSupplied, h]

theorem followSupplied_indexed (b : Base) {v : Byte} {i : Index} (h : v = i.prefixByte) :
    followSupplied b (v :: vs) =
      { followSupplied (.index i) vs with opcode := v :: (followSupplied (.index i) vs).opcode } := by
  simp only [followSupplied, Index.ofPrefix?_eq_some.2 h]

theorem followSupplied_nil (b : Base) :
    followSupplied b [] = { base := b, page := .opening b, byte := 0xFF, opcode := [0xFF] } := by
  have h0 : (Memory.supplying []).get 0 = 0xFF := (Memory.supplying_first []).1
  have hopening := followBase_opening (.supplying []) b (by rw [h0]; decide) (by rw [h0]; decide)
  rw [h0] at hopening
  exact hopening

theorem length_followSupplied_pos (b : Base) : 1 ≤ (followSupplied b vs).opcode.length := by
  cases vs with
  | nil =>
    rw [followSupplied_nil]
    exact Nat.le_refl 1
  | cons v vs =>
    cases hp : Index.ofPrefix? v with
    | some i =>
      rw [followSupplied_indexed vs b (Index.ofPrefix?_eq_some.1 hp)]
      exact Nat.succ_pos _
    | none =>
      rw [followSupplied_plain (v :: vs) b hp]
      exact (length_followBase _ b 0).1

end Supplying

section Fetch

variable {β : Type} [Bus β] (extensions : Bool) (seen : Window) (b : Base) (vs : List Byte) (k : Registers) (l : Flags)
  (d : Bool) (bus : β)

@[simp] theorem on_opcode_supplied :
    on opcode ⟨k, l, d, some vs⟩ bus =
      ⟨((supplied vs).1, ⟨{ k with r := refreshedBy 1 k.r }, l, d, some (supplied vs).2⟩), Bus.tick bus 4, 4⟩ := rfl

@[simp] theorem history_opcode_supplied :
    history opcode ⟨k, l, d, some vs⟩ bus = [.paused (.opcode (supplied vs).1)] := rfl

@[simp] theorem on_operand_supplied :
    on operand ⟨k, l, d, some vs⟩ bus =
      ⟨((supplied vs).1, ⟨k, l, d, some (supplied vs).2⟩), Bus.tick bus 3, 3⟩ := rfl

@[simp] theorem history_operand_supplied :
    history operand ⟨k, l, d, some vs⟩ bus = [.paused (.operand (supplied vs).1)] := rfl

/-- Without an index prefix at the front the bytes lead from the base as they would in memory. -/
theorem value_fetchBase_supplied :
    let t := followBase (.supplying vs) b 0
    (on (fetchBase extensions seen b) ⟨k, l, d, some vs⟩ bus).value =
      (t.resolution extensions seen, ⟨{ t.fetched k with pc := k.pc }, l, d, some (vs.drop t.bytes)⟩) := by
  intro t
  obtain ⟨h0, h1, h2⟩ := Memory.supplying_first vs
  obtain ⟨hd, hd', hd''⟩ := drop_supplied vs
  by_cases he : (supplied vs).1 = 0xED
  · have ht : t = _ := followBase_extended _ b (h0.trans he)
    rw [ht, h0, h1]
    have hl := b.opening_extended he
    cases hx : extendedPage (supplied (supplied vs).2).1 with
    | none =>
      simp [fetchBase, on_bind, hl, Opening.resolve, extendedSlot, Page.slot, hx, Target.resolution, Target.fetched,
        Target.bytes, hd']
    | some i =>
      by_cases ha : extensions = true ∨ i.operation.isExtension = false <;>
      simp [fetchBase, on_bind, hl, Opening.resolve, extendedSlot, Page.slot, hx, ha, Option.filter,
        Target.resolution, Target.fetched, Target.bytes, hd']
  by_cases hb : (supplied vs).1 = 0xCB
  · have hl := b.opening_bits hb
    rcases b with _ | i
    · have ht : t = _ := followBase_bits _ (h0.trans hb)
      rw [ht, h0, h1]
      have hx (v : Byte) : (bitsPage v).operation.isExtension = false := rfl
      simp [fetchBase, on_bind, on_map, hl, Opening.resolve, Page.slot, hx, Target.resolution, Target.fetched,
        Target.bytes, hd']
    · have ht : t = _ := followBase_indexedBits _ i (h0.trans hb)
      rw [ht, h0, h1, h2]
      have hx (v : Byte) : (indexedBitsPage i v).operation.isExtension = false := rfl
      have hi : Registers.index { k with r := refreshedBy 1 k.r } i = k.index i := by cases i <;> rfl
      simp [fetchBase, on_bind, on_map, hl, Opening.resolve, Page.slot, hx, hi, Target.resolution, Target.fetched,
        Target.bytes, hd'']
  have ht : t = _ := followBase_opening _ b (fun h => he (h0.symm.trans h)) fun h => hb (h0.symm.trans h)
  rw [ht, h0]
  cases hp : Index.ofPrefix? (supplied vs).1 with
  | some i =>
    have hi := b.opening_prefixed (Index.ofPrefix?_eq_some.1 hp)
    simp [fetchBase, on_bind, hi, Opening.resolve, Target.resolution, Target.fetched, Target.bytes, hd, Page.slot]
  | none =>
    obtain ⟨i, hi, hx⟩ := b.opening_plain hb he hp
    simp [fetchBase, on_bind, hi, hx, Opening.resolve, Target.resolution, Target.fetched, Target.bytes, hd, Page.slot]

theorem history_fetchBase_supplied :
    history (fetchBase extensions seen b) ⟨k, l, d, some vs⟩ bus =
      (followBase (.supplying vs) b 0).suppliedCycles := by
  obtain ⟨h0, h1, h2⟩ := Memory.supplying_first vs
  by_cases he : (supplied vs).1 = 0xED
  · rw [followBase_extended _ b (h0.trans he), h0, h1]
    have hl := b.opening_extended he
    cases hx : extendedSlot extensions (supplied (supplied vs).2).1 <;>
    simp [fetchBase, history_bind, hl, Opening.resolve, hx, Target.suppliedCycles]
  by_cases hb : (supplied vs).1 = 0xCB
  · have hl := b.opening_bits hb
    rcases b with _ | i
    · rw [followBase_bits _ (h0.trans hb), h0, h1]
      simp [fetchBase, history_bind, history_map, hl, Opening.resolve, Target.suppliedCycles]
    · rw [followBase_indexedBits _ i (h0.trans hb), h0, h1, h2]
      simp [fetchBase, history_bind, history_map, hl, Opening.resolve, Target.suppliedCycles]
  rw [followBase_opening _ b (fun h => he (h0.symm.trans h)) (fun h => hb (h0.symm.trans h)), h0]
  cases hp : Index.ofPrefix? (supplied vs).1 with
  | some i =>
    have hi := b.opening_prefixed (Index.ofPrefix?_eq_some.1 hp)
    simp [fetchBase, history_bind, hi, Opening.resolve, Target.suppliedCycles]
  | none =>
    obtain ⟨i, hi, -⟩ := b.opening_plain hb he hp
    simp [fetchBase, history_bind, hi, Opening.resolve, Target.suppliedCycles]

theorem fetchSupplied_indexed {v : Byte} {i : Index} (h : v = i.prefixByte) :
    fetchSupplied extensions seen b (v :: vs) ⟨k, l, d, some []⟩ =
      .pause (.opcode v) (fetchSupplied extensions (seen.push v) (.index i) vs
        ⟨{ k with r := refreshedBy 1 k.r }, l, d, some []⟩) := by
  simp only [fetchSupplied, b.opening_prefixed h]
  rfl

/-- Taking the bytes ends in the slot to which they lead. -/
theorem value_fetchSupplied :
    let t := followSupplied b vs
    (on (fetchSupplied extensions seen b vs) ⟨k, l, d, some []⟩ bus).value =
      (t.resolution extensions seen, ⟨{ t.fetched k with pc := k.pc }, l, d, some (vs.drop t.bytes)⟩) := by
  induction vs generalizing seen b k bus with
  | nil => exact value_fetchBase_supplied extensions seen b [] k l d bus
  | cons v vs ih =>
    cases hp : Index.ofPrefix? v with
    | some i =>
      have hv := Index.ofPrefix?_eq_some.1 hp
      have hrest := ih (seen.push v) (.index i) { k with r := refreshedBy 1 k.r } (Bus.tick bus 4)
      have hbytes (t : Target) : Target.bytes { t with opcode := v :: t.opcode } = t.bytes + 1 :=
        Nat.add_right_comm ..
      rw [on, fetchSupplied_indexed extensions seen b vs k l d hv, followSupplied_indexed vs b hv]
      dsimp only
      rw [Target.fetched_cons, hbytes, List.drop_succ_cons]
      exact hrest
    | none =>
      rw [on, fetchSupplied_base extensions b seen (v :: vs) k l d hp, followSupplied_plain (v :: vs) b hp]
      exact value_fetchBase_supplied extensions seen b (v :: vs) k l d bus

theorem history_fetchSupplied :
    history (fetchSupplied extensions seen b vs) ⟨k, l, d, some []⟩ bus = (followSupplied b vs).suppliedCycles := by
  induction vs generalizing seen b k bus with
  | nil => exact history_fetchBase_supplied extensions seen b [] k l d bus
  | cons v vs ih =>
    cases hp : Index.ofPrefix? v with
    | some i =>
      have hv := Index.ofPrefix?_eq_some.1 hp
      rw [history, fetchSupplied_indexed extensions seen b vs k l d hv, followSupplied_indexed vs b hv]
      exact congrArg (Cycle.paused (.opcode v) :: ·)
        (ih (seen.push v) (.index i) { k with r := refreshedBy 1 k.r } (Bus.tick bus 4))
    | none =>
      rw [history, fetchSupplied_base extensions b seen (v :: vs) k l d hp, followSupplied_plain (v :: vs) b hp]
      exact history_fetchBase_supplied extensions seen b (v :: vs) k l d bus

end Fetch

namespace Cpu

variable {β : Type} [Bus β] {c : Cpu} (bus : β) (ht : c.task = .interrupt) (hm : c.registers.im = 0)

include ht hm

theorem resolution?_supplied :
    c.resolution? bus = some ((followSupplied .hl c.interruptData).resolution c.config.extensions .empty) := by
  have hvalue := value_fetchSupplied c.config.extensions .empty .hl c.interruptData c.accepted .clear false
    (Bus.tick bus 2)
  rw [resolution?, ht]
  simp only [hm, ↓reduceIte, hvalue]

/-- An interrupt in mode 0 runs what the device's bytes lead to, two T-states and the time of taking them after the
acknowledgement begins. -/
theorem performed_followSupplied :
    let t := followSupplied .hl c.interruptData
    let taken := on (fetchSupplied c.config.extensions .empty .hl c.interruptData)
      ⟨c.accepted, .clear, false, some []⟩ (Bus.tick bus 2)
    let o := c.complete c.registers.pc (t.resolution c.config.extensions .empty)
    let s : Execution :=
      ⟨{ t.fetched c.accepted with pc := c.registers.pc }, .clear, false, some (c.interruptData.drop t.bytes)⟩
    c.performed bus = (on o s taken.bus).after (2 + t.time) ∧
      c.history bus = .paused (.internal 2) :: (t.suppliedCycles ++ Microcode.history o s taken.bus) := by
  intro t taken o s
  let fetch := fetchSupplied c.config.extensions .empty .hl c.interruptData
  let start : Execution := ⟨c.accepted, .clear, false, some []⟩
  have hvalue : taken.value = (t.resolution c.config.extensions .empty, s) := value_fetchSupplied ..
  have hhistory : Microcode.history fetch start (Bus.tick bus 2) = t.suppliedCycles := history_fetchSupplied ..
  have helapsed : taken.elapsed = t.time := by
    rw [elapsed_eq_history, hhistory, Target.duration_suppliedCycles]
  have hbind : on (fetch >>= c.complete c.registers.pc) start (Bus.tick bus 2) =
      (on o s taken.bus).after t.time := by
    rw [← helapsed]
    exact (on_bind ..).trans (by rw [hvalue])
  have hcycles : Microcode.history (fetch >>= c.complete c.registers.pc) start (Bus.tick bus 2) =
      t.suppliedCycles ++ Microcode.history o s taken.bus := by
    rw [← hhistory]
    exact (history_bind ..).trans (by rw [hvalue])
  rw [performed, history_eq, ht, perform, on, Microcode.history, c.acceptInterrupt_eq hm]
  exact ⟨(congrArg (Outcome.after 2) hbind).trans (Outcome.after_after ..),
    congrArg (Cycle.paused (.internal 2) :: ·) hcycles⟩

end Cpu

end Z80Machine
