import Z80Machine.Proofs.Plain
import Z80Machine.Proofs.Step

/-!
Runs of index prefixes. Each prefix of a run but the last ends a step of its own and is carried into the next, where
it gives way to its successor. At the end the instruction runs as it does after the last prefix alone, with R moved
on by the others.
-/
namespace Z80Machine

open Microcode

section Later

variable (config : Config)

/-- What an operation leaves when R has moved on by `n` before it, given the registers `one` that it leaves
otherwise. A load from R brings in the other R, and setting or complementing the carry can show in Y and X that the
flags were latched by another step. -/
def Operation.LeavesLater (n : Nat) (one last : Registers) : Operation → Prop
  | .transfer .loadToR => last = one
  | .transfer .loadFromR =>
    let r := refreshedBy n one.r
    last = { one with a := r, r := r, f := Registers.interruptFlags { one with a := r } }
  | .arithmetic .setCarry | .arithmetic .complementCarry =>
    ∃ y x, last = { one with r := refreshedBy n one.r, f := { one.f with y := y, x := x } }
  | _ => last = { one with r := refreshedBy n one.r }

theorem Operation.LeavesLater.of_eq {op : Operation} {n : Nat} {one last : Registers}
    (hfrom : op ≠ .transfer .loadFromR) (hto : op ≠ .transfer .loadToR) (hset : op ≠ .arithmetic .setCarry)
    (hcomplement : op ≠ .arithmetic .complementCarry) (h : last = { one with r := refreshedBy n one.r }) :
    op.LeavesLater n one last := by
  cases op with
  | transfer t =>
    cases t with
    | loadFromR => exact absurd rfl hfrom
    | loadToR => exact absurd rfl hto
    | _ => exact h
  | arithmetic a =>
    cases a with
    | setCarry => exact absurd rfl hset
    | complementCarry => exact absurd rfl hcomplement
    | _ => exact h
  | _ => exact h

theorem Operation.on_execute_withR (op : Operation) (n : Nat) (p q : Flags) (s : Execution) (bus : FlatBus) :
    let one := on (op.execute config p) s bus
    let last := on (op.execute config q) (s.withR (refreshedBy n s.registers.r)) bus
    op.LeavesLater n one.value.2.registers last.value.2.registers ∧
      last.value.2.eiDelay = one.value.2.eiDelay ∧ last.bus = one.bus ∧ last.elapsed = one.elapsed ∧
      history (op.execute config q) (s.withR (refreshedBy n s.registers.r)) bus =
        history (op.execute config p) s bus := by
  by_cases hfrom : op = .transfer .loadFromR
  · subst hfrom
    exact ⟨rfl, rfl, rfl, rfl, rfl⟩
  by_cases hto : op = .transfer .loadToR
  · subst hto
    exact ⟨rfl, rfl, rfl, rfl, rfl⟩
  by_cases hset : op = .arithmetic .setCarry
  · subst hset
    exact ⟨⟨_, _, rfl⟩, rfl, rfl, rfl, rfl⟩
  by_cases hcomplement : op = .arithmetic .complementCarry
  · subst hcomplement
    exact ⟨⟨_, _, rfl⟩, rfl, rfl, rfl, rfl⟩
  rw [op.execute_previous config hset hcomplement q p]
  have hrun (x : Byte) := op.execute_withR config p hfrom hto s x
  have hr : (on (op.execute config p) s bus).value.2.registers.r = s.registers.r := by
    have hself := congrArg (fun m => (m.run bus).value.2.registers.r) (hrun s.registers.r)
    rw [Activity.run_bind] at hself
    exact hself
  simp only [on, history, hrun, Activity.run_bind, Activity.history_bind, Activity.run_done,
    Activity.history_done, Outcome.value_after, Outcome.bus_after, Outcome.elapsed_after, List.append_nil,
    Nat.add_zero]
  refine ⟨.of_eq hfrom hto hset hcomplement ?_, rfl, trivial, trivial, trivial⟩
  rw [← hr]
  rfl

def Resolution.LeavesLater (n : Nat) (one last : Registers) : Resolution → Prop
  | .instruction i => i.operation.LeavesLater n one last
  | .carry _ | .undefined _ => last = { one with r := refreshedBy n one.r }

def Slot.LeavesLater (n : Nat) (one last : Registers) : Slot → Prop
  | .instruction i => i.operation.LeavesLater n one last
  | .lead _ | .undefined => last = { one with r := refreshedBy n one.r }

/-- A machine that lacks an extension leaves what the extension would leave of R. -/
theorem Target.leavesLater_slot {t : Target} {extensions : Bool} {seen : Window} {n : Nat} {one last : Registers}
    (h : (t.resolution extensions seen).LeavesLater n one last) :
    (t.page.slot t.byte).LeavesLater n one last := by
  rw [resolution] at h
  cases hs : t.page.slot t.byte with
  | instruction i =>
    rw [hs] at h
    cases hx : i.operation.isExtension with
    | false => simpa [hx, Resolution.LeavesLater, Slot.LeavesLater] using h
    | true =>
      obtain ⟨e, he⟩ : ∃ e, i.operation = .extension e := by
        cases ho : i.operation <;> simp [ho, Operation.isExtension] at hx
        exact ⟨_, rfl⟩
      have hlast : last = { one with r := refreshedBy n one.r } := by
        cases extensions <;> simpa [he, Operation.isExtension, Resolution.LeavesLater, Operation.LeavesLater] using h
      rw [Slot.LeavesLater, he]
      exact hlast
  | lead l =>
    rw [hs] at h
    cases l <;> exact h
  | undefined =>
    rw [hs] at h
    exact h

theorem Cpu.on_complete_withR (c c' : Cpu) (hconfig : c'.config = c.config) (a : Word) (o : Resolution) (n : Nat)
    (s : Execution) {bus bus' : FlatBus} (hbus : bus'.Alike bus) :
    let one := on (c.complete a o) s bus
    let last := on (c'.complete a o) (s.withR (refreshedBy n s.registers.r)) bus'
    last.value.1 = one.value.1 ∧ o.LeavesLater n one.value.2.registers last.value.2.registers ∧
      last.value.2.eiDelay = one.value.2.eiDelay ∧ last.bus.Alike one.bus ∧
      Microcode.history (c'.complete a o) (s.withR (refreshedBy n s.registers.r)) bus' =
        Microcode.history (c.complete a o) s bus := by
  -- on one bus first: buses that are alike go through the same run
  have hsame :
      let last := on (c'.complete a o) (s.withR (refreshedBy n s.registers.r)) bus
      let one := on (c.complete a o) s bus
      last.value.1 = one.value.1 ∧ o.LeavesLater n one.value.2.registers last.value.2.registers ∧
        last.value.2.eiDelay = one.value.2.eiDelay ∧ last.bus = one.bus ∧
        Microcode.history (c'.complete a o) (s.withR (refreshedBy n s.registers.r)) bus =
          Microcode.history (c.complete a o) s bus := by
    cases o with
    | instruction i =>
      obtain ⟨hleaves, hdelay, hb, -, hh⟩ := i.operation.on_execute_withR c.config n c.latch c'.latch s bus
      simp only [complete, hconfig, on_bind, Microcode.history_bind, on_pure, history_pure, Outcome.value_after,
        Outcome.bus_after, List.append_nil]
      exact ⟨trivial, hleaves, hdelay, hb, hh⟩
    | carry i => exact ⟨rfl, rfl, rfl, rfl, rfl⟩
    | undefined w =>
      cases hu : c.config.undefined <;> simp only [complete, hconfig, hu] <;> exact ⟨rfl, rfl, rfl, rfl, rfl⟩
  intro one last
  obtain ⟨hvalue, hhistory, hb⟩ :=
    Activity.run_alike (c'.complete a o (s.withR (refreshedBy n s.registers.r))) hbus
  obtain ⟨hending, hleaves, hdelay, hbus', hh⟩ := hsame
  have hlast : last.value = (on (c'.complete a o) (s.withR (refreshedBy n s.registers.r)) bus).value := hvalue
  rw [hlast]
  exact ⟨hending, hleaves, hdelay, hbus' ▸ hb, hhistory.trans hh⟩

end Later

namespace Cpu

def asked (c : Cpu) (asks : List Bool) : Cpu := asks.foldl request c

theorem asked_eq (c : Cpu) (asks : List Bool) :
    c.asked asks =
      { c with
        interruptPending := c.interruptPending || asks.any id
        nmiPending := c.nmiPending || asks.any (!·) } := by
  induction asks generalizing c with
  | nil => simp [asked]
  | cons maskable asks ih =>
    have hcons : c.asked (maskable :: asks) = (c.request maskable).asked asks := rfl
    rw [hcons, ih]
    cases maskable <;> simp [request]

/-- The processor and the bus before step `n` of a run, when requests `asks j` are raised after step `j`. -/
def stage (asks : Nat → List Bool) (c : Cpu) (bus : FlatBus) : Nat → Cpu × FlatBus
  | 0 => (c, bus)
  | n + 1 =>
    let before := stage asks c bus n
    let s := before.1.step before.2
    (s.cpu.asked (asks n), s.bus)

section Carry

variable (c : Cpu) (bus : FlatBus)

theorem step_carry {i : Index} (ht : c.task = .instruction c.carried)
    (hi : (c.target bus.memory).resolution c.config.extensions (seenBefore c.carried) = .carry i)
    (ho : (c.target bus.memory).operands = []) :
    (c.step bus).result = .ok (BitVec.ofNat 32 (4 * (c.target bus.memory).opcode.length)) ∧
      (c.step bus).cpu =
        { c with
          registers := { c.registers with
            pc := c.registers.pc + BitVec.ofNat 16 (c.target bus.memory).opcode.length
            r := refreshedBy (c.target bus.memory).opcode.length c.registers.r }
          latch := .clear, eiDelay := false, carried := some i
          total := c.total.later (4 * (c.target bus.memory).opcode.length) } ∧
      (c.step bus).bus.Alike bus ∧
      c.history bus = Target.opcodeCycles c.registers.pc (c.target bus.memory).opcode := by
  obtain ⟨hresult, hcpu, hbus, hhistory⟩ := step_fetched c bus ht hi rfl ho
  refine ⟨hresult, ?_, hbus, hhistory⟩
  rw [hcpu, ht]
  simp [afterStep]

end Carry

section Against

variable {one last : Cpu} {bus bus' : FlatBus} {i : Index} {n : Nat}

/-- The step after a carried prefix against the step that begins with the prefix, `n` opcode bytes earlier in R. -/
theorem step_carried (hone : one.carried = none) (ht : one.task = .instruction none) (hlast : last.carried = some i)
    (hconfig : last.config = one.config)
    (hregisters : last.registers =
      { one.registers with pc := one.registers.pc + 1, r := refreshedBy (n + 1) one.registers.r })
    (hv : bus.memory.get one.registers.pc = i.prefixByte) (hbus : bus'.Alike bus) :
    (last.performed bus').value.1 = (one.performed bus).value.1 ∧
      (one.performed bus).elapsed = (last.performed bus').elapsed + 4 ∧
      ((one.target bus.memory).page.slot (one.target bus.memory).byte).LeavesLater n
        (one.step bus).cpu.registers (last.step bus').cpu.registers ∧
      (last.step bus').cpu.eiDelay = (one.step bus).cpu.eiDelay ∧
      (last.step bus').bus.Alike (one.step bus).bus ∧
      one.history bus = .received (.opcode one.registers.pc) i.prefixByte :: last.history bus' := by
  have htlast : last.task = .instruction last.carried := by rw [task, hlast]
  have htone : one.task = .instruction one.carried := by rw [ht, hone]
  -- both ways lead to the same slot
  have hway : last.target bus'.memory = followBase bus.memory (.index i) (one.registers.pc + 1) := by
    rw [target, hlast, follow_carried, hregisters, hbus.memory]
  have hwayOne : one.target bus.memory =
      { last.target bus'.memory with opcode := i.prefixByte :: (last.target bus'.memory).opcode } := by
    rw [target, hone, follow_indexed _ hv, hway, hv]
  have hresolution : (last.target bus'.memory).resolution last.config.extensions (seenBefore last.carried) =
      (one.target bus.memory).resolution one.config.extensions (seenBefore one.carried) := by
    rw [hwayOne, hone, hlast, hconfig]
    rfl
  -- and the registers on arrival differ in R alone
  have hfetched : (last.target bus'.memory).fetched last.registers =
      let k := (one.target bus.memory).fetched one.registers
      { k with r := refreshedBy n k.r } := by
    have hr : n + 1 + (last.target bus'.memory).opcode.length =
        1 + (last.target bus'.memory).opcode.length + n := by omega
    rw [hwayOne, Target.fetched_cons, hregisters]
    simp only [Target.fetched, refreshedBy_refreshedBy, hr]
    rfl
  have hstart : last.start = one.start := by
    simp only [start, hlast, hone, hregisters]
    bv_omega
  obtain ⟨hending, hleaves, hdelay, hb, hh⟩ := on_complete_withR one last hconfig one.start
    ((one.target bus.memory).resolution one.config.extensions (seenBefore one.carried)) n
    { registers := (one.target bus.memory).fetched one.registers }
    ((alike_fetching last bus').trans (hbus.trans (alike_fetching one bus).symm))
  have hperformed := performed_instruction one bus htone
  have hperformed' := performed_instruction last bus' htlast
  rw [value_fetching] at hperformed hperformed'
  rw [hresolution, hfetched, hstart] at hperformed'
  have hhistory : one.history bus = .received (.opcode one.registers.pc) i.prefixByte :: last.history bus' := by
    have hpc : last.registers.pc = one.registers.pc + 1 := by rw [hregisters]
    have hcycles : (one.target bus.memory).cycles one.registers.pc =
        .received (.opcode one.registers.pc) i.prefixByte ::
          (last.target bus'.memory).cycles (one.registers.pc + 1) := by
      rw [hwayOne, Target.cycles_cons]
    have hhistory' := history_instruction last bus' htlast
    rw [value_fetching, hresolution, hfetched, hstart, hpc] at hhistory'
    rw [history_instruction one bus htone, value_fetching, hcycles, hhistory', List.cons_append]
    exact congrArg (fun cs => _ :: (_ ++ cs)) hh.symm
  refine ⟨?_, ?_, ?_, ?_, ?_, hhistory⟩
  · rw [hperformed, hperformed']
    exact hending
  · rw [elapsed_performed, elapsed_performed, hhistory, Cycle.duration, Nat.add_comm]
    rfl
  · rw [registers_step, registers_step, hperformed, hperformed']
    exact Target.leavesLater_slot hleaves
  · rw [cpu_step, cpu_step, hperformed, hperformed']
    exact hdelay
  · rw [bus_step, bus_step, hperformed, hperformed']
    exact hb

end Against

section Chain

variable (c : Cpu) (bus : FlatBus)

/-- The processor after `n` steps of a run of prefixes, with prefix `i` carried, when requests `rs` were raised. -/
def chained (rs : List Bool) (n : Nat) (i : Index) : Cpu :=
  { c with
    registers := { c.registers with
      pc := c.registers.pc + BitVec.ofNat 16 (n + 1), r := refreshedBy (n + 1) c.registers.r }
    latch := .clear, eiDelay := false, carried := some i, total := c.total.later (4 * (n + 1))
    interruptPending := rs.any id, nmiPending := rs.any (!·) }

theorem asked_chained (rs asks : List Bool) (n : Nat) (i : Index) :
    (c.chained rs n i).asked asks = c.chained (rs ++ asks) n i := by
  rw [asked_eq]
  simp [chained]

variable {c bus}

theorem step_first {i j : Index} (hc : c.carried = none) (ht : c.task = .instruction none)
    (hint : c.interruptPending = false) (hnmi : c.nmiPending = false)
    (hi : bus.memory.get c.registers.pc = i.prefixByte)
    (hj : bus.memory.get (c.registers.pc + 1) = j.prefixByte) :
    (c.step bus).result = .ok 8 ∧ (c.step bus).cpu = c.chained [] 1 j ∧ (c.step bus).bus.Alike bus ∧
      c.history bus = Target.opcodeCycles c.registers.pc [i.prefixByte, j.prefixByte] := by
  have hway : c.target bus.memory =
      { base := .index i, page := .opening (.index i), byte := j.prefixByte
        opcode := [i.prefixByte, j.prefixByte] } := by
    rw [target, hc, follow_prefixes _ hi hj]
  have hcarry : (c.target bus.memory).resolution c.config.extensions (seenBefore c.carried) = .carry j := by
    rw [hway, Target.resolution_prefixed]
  have hstep := step_carry c bus (by rw [ht, hc]) hcarry (by rw [hway])
  simp only [hway] at hstep
  refine ⟨hstep.1, ?_, hstep.2.2⟩
  rw [hstep.2.1]
  simp [chained, hint, hnmi]

theorem step_next (rs : List Bool) {n : Nat} {i j : Index}
    (hj : bus.memory.get (c.registers.pc + BitVec.ofNat 16 (n + 1)) = j.prefixByte) :
    ((c.chained rs n i).step bus).result = .ok 4 ∧ ((c.chained rs n i).step bus).cpu = c.chained rs (n + 1) j ∧
      ((c.chained rs n i).step bus).bus.Alike bus ∧
      (c.chained rs n i).history bus =
        Target.opcodeCycles (c.registers.pc + BitVec.ofNat 16 (n + 1)) [j.prefixByte] := by
  have hway : (c.chained rs n i).target bus.memory =
      { base := .index i, page := .opening (.index i), byte := j.prefixByte, opcode := [j.prefixByte] } :=
    followBase_prefixed bus.memory (.index i) hj
  have hcarry : ((c.chained rs n i).target bus.memory).resolution (c.chained rs n i).config.extensions
      (seenBefore (c.chained rs n i).carried) = .carry j := by
    rw [hway, Target.resolution_prefixed]
  have hstep := step_carry (c.chained rs n i) bus rfl hcarry (by rw [hway])
  simp only [hway] at hstep
  refine ⟨hstep.1, ?_, hstep.2.2⟩
  rw [hstep.2.1]
  have hpc : BitVec.ofNat 16 (n + 1 + 1) = BitVec.ofNat 16 (n + 1) + BitVec.ofNat 16 [j.prefixByte].length :=
    BitVec.ofNat_add (n + 1) 1
  simp only [chained, hpc, refreshedBy_refreshedBy, Ticks.later_later, BitVec.add_assoc]
  rfl

/-- The run of prefixes up to the last: each step ends in the next prefix, whatever is asked in between. -/
theorem stage_chain (asks : Nat → List Bool) (hc : c.carried = none) (ht : c.task = .instruction none)
    (hint : c.interruptPending = false) (hnmi : c.nmiPending = false) (n : Nat)
    (hchain : ∀ j ≤ n + 1, ∃ i : Index, bus.memory.get (c.registers.pc + BitVec.ofNat 16 j) = i.prefixByte) :
    ∃ i : Index, bus.memory.get (c.registers.pc + BitVec.ofNat 16 (n + 1)) = i.prefixByte ∧
      (stage asks c bus (n + 1)).1 = c.chained ((List.range (n + 1)).flatMap asks) (n + 1) i ∧
      (stage asks c bus (n + 1)).2.Alike bus := by
  induction n with
  | zero =>
    obtain ⟨i, hi⟩ := hchain 0 (by omega)
    obtain ⟨j, hj⟩ := hchain 1 (by omega)
    obtain ⟨-, hcpu, hbus, -⟩ := step_first hc ht hint hnmi (by simpa using hi) hj
    refine ⟨j, hj, ?_, hbus⟩
    have hasks : (List.range (0 + 1)).flatMap asks = [] ++ asks 0 := by simp
    rw [stage, stage, hcpu, asked_chained, hasks]
  | succ n ih =>
    obtain ⟨i, -, hcpu, hbus⟩ := ih fun j hj => hchain j (by omega)
    obtain ⟨j, hj⟩ := hchain (n + 1 + 1) (by omega)
    have hj' := hj
    rw [← hbus.memory] at hj'
    obtain ⟨-, hcpu', hbus', -⟩ := step_next ((List.range (n + 1)).flatMap asks) (i := i) hj'
    refine ⟨j, hj, ?_, ?_⟩
    · rw [stage, hcpu, hcpu', asked_chained, List.range_succ (n := n + 1), List.flatMap_append]
      simp
    · rw [stage, hcpu]
      exact hbus'.trans hbus

theorem step_stage (asks : Nat → List Bool) (hc : c.carried = none) (ht : c.task = .instruction none)
    (hint : c.interruptPending = false) (hnmi : c.nmiPending = false) (j : Nat)
    (hchain : ∀ x ≤ j + 1, ∃ i : Index, bus.memory.get (c.registers.pc + BitVec.ofNat 16 x) = i.prefixByte) :
    let x := stage asks c bus j
    let s := x.1.step x.2
    s.result = .ok (if j = 0 then 8 else 4) ∧ s.bus.memory = bus.memory ∧ dataAccesses (x.1.history x.2) = [] ∧
      s.cpu.registers = { c.registers with
        pc := c.registers.pc + BitVec.ofNat 16 (j + 2), r := refreshedBy (j + 2) c.registers.r } := by
  cases j with
  | zero =>
    obtain ⟨i, hi⟩ := hchain 0 (by omega)
    obtain ⟨j, hj⟩ := hchain 1 (by omega)
    obtain ⟨hresult, hcpu, hbus, hhistory⟩ := step_first hc ht hint hnmi (by simpa using hi) hj
    refine ⟨hresult, hbus.memory, ?_, ?_⟩
    · rw [stage, hhistory, Target.dataAccesses_opcodeCycles]
    · rw [stage, hcpu]
      rfl
  | succ n =>
    obtain ⟨i, -, hcpu, hbus⟩ := stage_chain asks hc ht hint hnmi n fun j hj => hchain j (by omega)
    obtain ⟨j, hj⟩ := hchain (n + 1 + 1) (by omega)
    rw [← hbus.memory] at hj
    obtain ⟨hresult, hcpu', hbus', hhistory⟩ :=
      step_next ((List.range (n + 1)).flatMap asks) (i := i) hj
    refine ⟨?_, ?_, ?_, ?_⟩
    · rw [hcpu, hresult]
      rfl
    · rw [hcpu]
      exact hbus'.memory.trans hbus.memory
    · rw [hcpu, hhistory, Target.dataAccesses_opcodeCycles]
    · rw [hcpu, hcpu']
      rfl

/-- A run of `k` index prefixes ends as its last prefix does. All steps but the last take opcode bytes only. The last
step gives what a step from the last prefix alone gives, with R moved on by the prefixes before, after `4 * (k - 1)`
more T-states; nothing that was asked in between has been accepted. -/
theorem step_chain (c : Cpu) (bus : FlatBus) (asks : Nat → List Bool) (k : Nat) (hk : 2 ≤ k)
    (hc : c.carried = none) (hhalted : c.registers.halted = false) (hint : c.interruptPending = false)
    (hnmi : c.nmiPending = false)
    (hchain : ∀ j < k, ∃ i : Index, bus.memory.get (c.registers.pc + BitVec.ofNat 16 j) = i.prefixByte) :
    (∀ j < k - 1,
      let x := stage asks c bus j
      let s := x.1.step x.2
      s.result = .ok (if j = 0 then 8 else 4) ∧ s.bus.memory = bus.memory ∧ dataAccesses (x.1.history x.2) = [] ∧
        s.cpu.registers = { c.registers with
          pc := c.registers.pc + BitVec.ofNat 16 (j + 2), r := refreshedBy (j + 2) c.registers.r }) ∧
    let one := { c with
      registers := { c.registers with pc := c.registers.pc + BitVec.ofNat 16 (k - 1) } }
    let x := stage asks c bus (k - 1)
    let last := x.1.step x.2
    (one.step bus).result = last.result.map (· + 4) ∧
      ((one.target bus.memory).page.slot (one.target bus.memory).byte).LeavesLater (k - 1)
        (one.step bus).cpu.registers last.cpu.registers ∧
      last.cpu.eiDelay = (one.step bus).cpu.eiDelay ∧
      last.cpu.carried = (one.step bus).cpu.carried ∧
      last.bus.memory = (one.step bus).bus.memory ∧
      dataAccesses (x.1.history x.2) = dataAccesses (one.history bus) ∧
      last.cpu.total = (one.step bus).cpu.total.later (4 * (k - 1)) ∧
      last.cpu.interruptPending = ((List.range (k - 1)).flatMap asks).any id ∧
      last.cpu.nmiPending = ((List.range (k - 1)).flatMap asks).any (!·) := by
  have ht : c.task = .instruction none := by
    simp [task, hc, hhalted, hint, hnmi]
  constructor
  · intro j hj
    exact step_stage asks hc ht hint hnmi j fun x hx => hchain x (by omega)
  · obtain ⟨n, rfl⟩ : ∃ n, k = n + 2 := ⟨k - 2, by omega⟩
    obtain ⟨i, hi, hcpu, hbus⟩ := stage_chain asks hc ht hint hnmi n fun j hj => hchain j (by omega)
    intro one x last
    have hpc : c.registers.pc + BitVec.ofNat 16 (n + 1 + 1) = one.registers.pc + 1 :=
      (congrArg (c.registers.pc + ·) (BitVec.ofNat_add (n + 1) 1)).trans (BitVec.add_assoc ..).symm
    have hone : one.task = .instruction none := by
      simp [one, task, hc, hhalted, hint, hnmi]
    have hx : x.1 = c.chained ((List.range (n + 1)).flatMap asks) (n + 1) i := hcpu
    have hregisters : x.1.registers =
        { one.registers with pc := one.registers.pc + 1, r := refreshedBy (n + 1 + 1) one.registers.r } := by
      rw [hx, ← hpc]
      rfl
    have hcarriedOne : one.carried = none := hc
    have hcarried : x.1.carried = some i := by rw [hx]; rfl
    have hconfig : x.1.config = one.config := by rw [hx]; rfl
    have hbus' : x.2.Alike bus := hbus
    obtain ⟨hending, helapsed, hleaves, hdelay, hb, hhistory⟩ :=
      step_carried (n := n + 1) hcarriedOne hone hcarried hconfig hregisters hi hbus'
    have htask : x.1.task = .instruction (some i) := by rw [task, hcarried]
    refine ⟨?_, hleaves, hdelay, ?_, hb.memory, ?_, ?_, ?_, ?_⟩
    · rw [result_step, result_step, hending, helapsed, BitVec.ofNat_add]
      cases (one.performed bus).value.1 <;> rfl
    · rw [carried_step, carried_step, hending]
    · rw [hhistory]
      rfl
    · have htotal : x.1.total = c.total.later (4 * (n + 1 + 1)) := by
        rw [hx]
        rfl
      rw [total_step, total_step, ← elapsed_performed, ← elapsed_performed, helapsed, htotal, Ticks.later_later,
        Ticks.later_later]
      refine congrArg c.total.later ?_
      omega
    · rw [interruptPending_step, htask, hx]
      exact Bool.and_true _
    · rw [nmiPending_step, htask, hx]
      exact Bool.and_true _

/-- DD FD and a NOP, with an interrupt and an NMI asked for after the first step: both still wait after the NOP. -/
theorem step_chain_asked :
    let x := stage (fun _ => [true, false]) {} { memory := (Memory.zero.set 0 0xDD).set 1 0xFD } 1
    (x.1.step x.2).cpu.interruptPending = true ∧ (x.1.step x.2).cpu.nmiPending = true := by
  have hchain : ∀ j < 2, ∃ i : Index,
      ((Memory.zero.set 0 0xDD).set 1 0xFD).get (Registers.powerOn.pc + BitVec.ofNat 16 j) = i.prefixByte := by
    intro j hj
    match j, hj with
    | 0, _ => exact ⟨.ix, by simp [Memory.get_set, Registers.powerOn, Index.prefixByte]⟩
    | 1, _ => exact ⟨.iy, by simp [Registers.powerOn, Index.prefixByte]⟩
  obtain ⟨-, -, -, -, -, -, -, -, hint, hnmi⟩ :=
    step_chain {} { memory := (Memory.zero.set 0 0xDD).set 1 0xFD } (fun _ => [true, false]) 2 (by decide) rfl rfl
      rfl rfl hchain
  exact ⟨hint, hnmi⟩

end Chain

end Cpu

end Z80Machine
