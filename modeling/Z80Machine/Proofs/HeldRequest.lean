import Z80Machine.Proofs.Interruption

/-!
A request that is held. It is made anew before every step, and in mode 1 it is accepted as soon as interrupts are
enabled. Where the routine is EI and RETI, the wait after EI lets RETI take the return address off the stack before the
next acceptance. So three steps lead back to where the machine was, with the same word below the same stack.
-/
namespace Z80Machine

open Microcode

theorem Memory.pushed_pushed (m : Memory) (sp w : Word) : (m.pushed sp w).pushed sp w = m.pushed sp w := by
  apply ext_get
  intro a
  by_cases hlow : a = sp - 2
  · rw [hlow, get_pushed_low, get_pushed_low]
  by_cases hhigh : a = sp - 1
  · rw [hhigh, get_pushed_high, get_pushed_high]
  · rw [get_pushed_of_spared _ _ _ ⟨hhigh, hlow⟩]

namespace Cpu

/-- A step of `t` T-states that leads to these registers, this memory and this wait of interrupts, with no prefix
carried and no NMI to be accepted. -/
structure Leads (c : Cpu) (bus : FlatBus) (t : Nat) (k : Registers) (memory : Memory) (delay : Bool) : Prop where
  result : (c.step bus).result = .ok (BitVec.ofNat 32 t)
  total : (c.step bus).cpu.total = c.total.later t
  registers : (c.step bus).cpu.registers = k
  memory : (c.step bus).bus.memory = memory
  delay : (c.step bus).cpu.eiDelay = delay
  carried : (c.step bus).cpu.carried = none
  nmi : (c.step bus).cpu.nmiPending = false

variable {c : Cpu} {bus : FlatBus}

theorem Leads.congr {t t' : Nat} {k k' : Registers} {m m' : Memory} {delay delay' : Bool}
    (h : c.Leads bus t k m delay) (ht : t = t') (hk : k = k') (hm : m = m') (hd : delay = delay') :
    c.Leads bus t' k' m' delay' := by
  rwa [← ht, ← hk, ← hm, ← hd]

theorem leads_acceptance (ht : c.task = .interrupt) (hm : c.registers.im = 1) :
    let k := c.registers
    c.Leads bus 13 { k with
        halted := false, iff1 := false, iff2 := false, sp := k.sp - 2, pc := 0x38, wz := 0x38, r := refreshedBy 1 k.r }
      (bus.memory.pushed k.sp k.pc) false := by
  intro k
  obtain ⟨hcarried, hnmi, -⟩ := task_eq_interrupt.1 ht
  have hcalls : c.Calls bus true 13 0x38 _ := calls_fixed ht hm
  constructor
  · exact hcalls.result
  · rw [hcalls.cpu]
  · rw [hcalls.cpu]
    rfl
  · rw [hcalls.bus]
    rfl
  · rw [hcalls.cpu]
  · rw [hcalls.cpu]
    exact hcarried
  · rw [hcalls.cpu]
    exact hnmi

theorem leads_slot {i : Instruction} (ht : c.task = .instruction c.carried) (hn : c.nmiPending = false)
    (hi : (c.target bus.memory).page.slot (c.target bus.memory).byte = .instruction i)
    (hx : i.operation.isExtension → c.config.extensions) :
    let o := on (i.operation.execute c.config c.latch) { registers := (c.target bus.memory).fetched c.registers } bus
    c.Leads bus ((c.target bus.memory).time + o.elapsed) o.value.2.registers o.bus.memory o.value.2.eiDelay ∧
      c.operation? bus = some i.operation := by
  intro o
  obtain ⟨hresult, hcpu, hbus, -⟩ := step_slot c bus ht hi hx
  have hoperation : c.operation? bus = some i.operation := by
    rw [operation?_instruction c bus ht, resolution_target c bus.memory hi hx]
    rfl
  refine ⟨?_, hoperation⟩
  constructor
  · exact hresult
  · rw [hcpu]
  · rw [hcpu]
    rfl
  · exact hbus.memory
  · rw [hcpu]
    rfl
  · rw [hcpu]
    rfl
  · rw [nmiPending_step, hn, Bool.false_and]

theorem target_enableInterrupts (hc : c.carried = none) (h : bus.memory.get c.registers.pc = 0xFB) :
    c.target bus.memory = { base := .hl, page := .opening .hl, byte := 0xFB, opcode := [0xFB] } := by
  have hplain : Index.ofPrefix? (bus.memory.get c.registers.pc) = none := by
    rw [h]
    rfl
  have hopening := followBase_opening bus.memory (a := c.registers.pc) .hl (by rw [h]; decide) (by rw [h]; decide)
  rw [target, hc, follow_plain _ hplain, hopening, h]

theorem leads_enableInterrupts (ht : c.task = .instruction none) (hn : c.nmiPending = false)
    (h : bus.memory.get c.registers.pc = 0xFB) :
    let k := c.registers
    c.Leads bus 4 { k with iff1 := true, iff2 := true, pc := k.pc + 1, r := refreshedBy 1 k.r } bus.memory true ∧
      c.operation? bus = some (.control .enableInterrupts) := by
  intro k
  have hcarried : c.carried = none := (eq_carried_of_task ht).symm
  rw [← hcarried] at ht
  have htarget := target_enableInterrupts hcarried h
  have hslot : (c.target bus.memory).page.slot (c.target bus.memory).byte =
      .instruction ⟨.control .enableInterrupts, 4⟩ := by
    rw [htarget]
    rfl
  obtain ⟨hstep, hoperation⟩ := leads_slot ht hn hslot nofun
  rw [htarget] at hstep
  exact ⟨hstep.congr rfl rfl rfl rfl, hoperation⟩

theorem leads_returnInterrupt (ht : c.task = .instruction none) (hn : c.nmiPending = false)
    (hr : c.Reaches bus.memory ⟨.jump .returnInterrupt, 14⟩) :
    let k := c.registers
    let a := Word.ofBytes (bus.memory.get (k.sp + 1)) (bus.memory.get k.sp)
    c.Leads bus 14 { k with pc := a, wz := a, sp := k.sp + 2, r := refreshedBy 2 k.r } bus.memory false ∧
      c.operation? bus = some (.jump .returnInterrupt) := by
  intro k a
  have hcarried : c.carried = none := (eq_carried_of_task ht).symm
  rw [← hcarried] at ht
  have htarget := hr.target hcarried
  have hslot := hr.slot hcarried
  obtain ⟨hstep, hoperation⟩ := leads_slot ht hn hslot nofun
  rw [htarget] at hstep
  exact ⟨hstep.congr rfl rfl rfl rfl, hoperation⟩

end Cpu

namespace Machine

section Held

variable {β : Type} [Bus β]

def asked (x : Machine β) : Machine β := x.after (.request true)

/-- The machine after `n` steps, an interrupt asked for before each of them. -/
def held (m : Machine β) : Nat → Machine β
  | 0 => m
  | n + 1 => (held m n).asked.after .step

theorem held_add (m : Machine β) (i j : Nat) : m.held (i + j) = (m.held i).held j := by
  induction j with
  | zero => rfl
  | succ j ih => exact congrArg (fun x : Machine β => x.asked.after .step) ih

end Held

/-- A machine in mode 1 with interrupts enabled, whose routine enables them again and returns, while a push leaves the
routine alone. -/
structure Serving (x : Machine FlatBus) : Prop where
  mode : x.cpu.registers.im = 1
  enabled : x.cpu.registers.iff1 = true
  delay : x.cpu.eiDelay = false
  carried : x.cpu.carried = none
  nmi : x.cpu.nmiPending = false
  enable : x.bus.memory.get 0x38 = 0xFB
  lead : x.bus.memory.get 0x39 = 0xED
  code : x.bus.memory.get 0x3A = 0x4D
  spared : ∀ a ∈ [0x38, 0x39, 0x3A], Spared x.cpu.registers.sp a

/-- A round from `x`: the interrupt is accepted, and then come EI and RETI, at which nothing is accepted. -/
structure Round (x : Machine FlatBus) : Prop where
  accepted : x.asked.cpu.task = .interrupt
  acceptance : (x.asked.cpu.step x.bus).result = .ok 13
  enabling : (x.held 1).asked.cpu.task = .instruction none
  enable : (x.held 1).asked.cpu.operation? (x.held 1).bus = some (.control .enableInterrupts)
  enabled : ((x.held 1).asked.cpu.step (x.held 1).bus).result = .ok 4
  returning : (x.held 2).asked.cpu.task = .instruction none
  back : (x.held 2).asked.cpu.operation? (x.held 2).bus = some (.jump .returnInterrupt)
  returned : ((x.held 2).asked.cpu.step (x.held 2).bus).result = .ok 14

/-- An interrupt is not accepted while interrupts are disabled or wait. -/
theorem task_asked {x : Machine FlatBus} (hc : x.cpu.carried = none) (hn : x.cpu.nmiPending = false)
    (hr : x.cpu.registers.halted = false) (hi : x.cpu.registers.iff1 = false ∨ x.cpu.eiDelay = true) :
    x.asked.cpu.task = .instruction none := by
  have hmasked : (x.asked.cpu.interruptPending && x.asked.cpu.registers.iff1 && !x.asked.cpu.eiDelay) = false := by
    show (true && x.cpu.registers.iff1 && !x.cpu.eiDelay) = false
    rcases hi with hdisabled | hwait
    · rw [hdisabled]
      rfl
    · rw [hwait]
      exact Bool.and_false _
  have htask : x.asked.cpu.task = .instruction x.asked.cpu.carried :=
    Cpu.task_eq_instruction.2 (.inr ⟨hn, hmasked, hr⟩)
  exact htask.trans (congrArg Task.instruction hc)

namespace Serving

variable {x : Machine FlatBus}

theorem accepts (h : x.Serving) :
    let k := x.cpu.registers
    x.asked.cpu.task = .interrupt ∧ x.asked.cpu.Leads x.bus 13 { k with
        halted := false, iff1 := false, iff2 := false, sp := k.sp - 2, pc := 0x38, wz := 0x38, r := refreshedBy 1 k.r }
      (x.bus.memory.pushed k.sp k.pc) false := by
  intro k
  have hasked : (x.asked.cpu.interruptPending && x.asked.cpu.registers.iff1 && !x.asked.cpu.eiDelay) = true := by
    show (true && x.cpu.registers.iff1 && !x.cpu.eiDelay) = true
    rw [h.enabled, h.delay]
    rfl
  have htask : x.asked.cpu.task = .interrupt := Cpu.task_eq_interrupt.2 ⟨h.carried, h.nmi, hasked⟩
  exact ⟨htask, Cpu.leads_acceptance htask h.mode⟩

theorem get_pushed (h : x.Serving) (w : Word) :
    let m := x.bus.memory.pushed x.cpu.registers.sp w
    m.get 0x38 = 0xFB ∧ m.get 0x39 = 0xED ∧ m.get 0x3A = 0x4D := by
  have hkept a (ha : a ∈ [0x38, 0x39, 0x3A]) :
      (x.bus.memory.pushed x.cpu.registers.sp w).get a = x.bus.memory.get a :=
    Memory.get_pushed_of_spared _ _ _ (h.spared a ha)
  exact ⟨(hkept 0x38 (by decide)).trans h.enable, (hkept 0x39 (by decide)).trans h.lead,
    (hkept 0x3A (by decide)).trans h.code⟩

theorem enables (h : x.Serving) :
    let k := x.cpu.registers
    let y := x.held 1
    y.asked.cpu.task = .instruction none ∧ y.asked.cpu.operation? y.bus = some (.control .enableInterrupts) ∧
      y.asked.cpu.Leads y.bus 4 { k with
          halted := false, iff1 := true, iff2 := true, sp := k.sp - 2, pc := 0x39, wz := 0x38, r := refreshedBy 2 k.r }
        (x.bus.memory.pushed k.sp k.pc) true := by
  intro k y
  obtain ⟨-, hfirst⟩ := h.accepts
  have hregisters : y.cpu.registers = { k with
      halted := false, iff1 := false, iff2 := false, sp := k.sp - 2, pc := 0x38, wz := 0x38, r := refreshedBy 1 k.r } :=
    hfirst.registers
  have hmemory : y.bus.memory = x.bus.memory.pushed k.sp k.pc := hfirst.memory
  have htask : y.asked.cpu.task = .instruction none :=
    task_asked hfirst.carried hfirst.nmi (by rw [hregisters]) (.inl (by rw [hregisters]))
  have hbyte : y.bus.memory.get y.asked.cpu.registers.pc = 0xFB := by
    show y.bus.memory.get y.cpu.registers.pc = 0xFB
    rw [hregisters, hmemory]
    exact (h.get_pushed k.pc).1
  obtain ⟨hstep, hoperation⟩ := Cpu.leads_enableInterrupts htask hfirst.nmi hbyte
  refine ⟨htask, hoperation, hstep.congr rfl ?_ hmemory rfl⟩
  show ({ y.cpu.registers with
    iff1 := true, iff2 := true, pc := y.cpu.registers.pc + 1, r := refreshedBy 1 y.cpu.registers.r } : Registers) = _
  rw [hregisters, refreshedBy_refreshedBy]
  rfl

theorem returns (h : x.Serving) :
    let k := x.cpu.registers
    let y := x.held 2
    y.asked.cpu.task = .instruction none ∧ y.asked.cpu.operation? y.bus = some (.jump .returnInterrupt) ∧
      y.asked.cpu.Leads y.bus 14
        { k with r := refreshedBy 4 k.r, wz := k.pc, iff1 := true, iff2 := true, halted := false }
        (x.bus.memory.pushed k.sp k.pc) false := by
  intro k y
  obtain ⟨-, -, hfirst⟩ := h.enables
  have hregisters : y.cpu.registers = { k with
      halted := false, iff1 := true, iff2 := true, sp := k.sp - 2, pc := 0x39, wz := 0x38, r := refreshedBy 2 k.r } :=
    hfirst.registers
  have hmemory : y.bus.memory = x.bus.memory.pushed k.sp k.pc := hfirst.memory
  -- interrupts are enabled again here, and only the wait after EI holds the request off
  have htask : y.asked.cpu.task = .instruction none :=
    task_asked hfirst.carried hfirst.nmi (by rw [hregisters]) (.inr hfirst.delay)
  obtain ⟨-, hlead, hcode⟩ := h.get_pushed k.pc
  have hreaches : y.asked.cpu.Reaches y.bus.memory ⟨.jump .returnInterrupt, 14⟩ := by
    have hpc : y.asked.cpu.registers.pc = 0x39 := congrArg Registers.pc hregisters
    constructor
    · rw [hpc, hmemory, hlead]
    · rw [hpc, hmemory]
      exact congrArg extendedPage hcode
    · exact nofun
  obtain ⟨hstep, hoperation⟩ := Cpu.leads_returnInterrupt htask hfirst.nmi hreaches
  have hsp : y.asked.cpu.registers.sp = k.sp - 2 := congrArg Registers.sp hregisters
  have hnext : k.sp - 2 + 1 = k.sp - 1 := by bv_omega
  have hword : Word.ofBytes (y.bus.memory.get (y.asked.cpu.registers.sp + 1))
      (y.bus.memory.get y.asked.cpu.registers.sp) = k.pc := by
    rw [hsp, hnext, hmemory, Memory.get_pushed_low, Memory.get_pushed_high, Word.ofBytes_high_low]
  rw [hword] at hstep
  refine ⟨htask, hoperation, hstep.congr rfl ?_ hmemory rfl⟩
  show ({ y.cpu.registers with
    pc := k.pc, wz := k.pc, sp := y.cpu.registers.sp + 2, r := refreshedBy 2 y.cpu.registers.r } : Registers) = _
  rw [hregisters, refreshedBy_refreshedBy]
  exact congrArg (fun sp => ({ k with
    r := refreshedBy 4 k.r, wz := k.pc, sp, iff1 := true, iff2 := true, halted := false } : Registers))
    (BitVec.sub_add_cancel ..)

theorem round (h : x.Serving) : x.Round where
  accepted := h.accepts.1
  acceptance := h.accepts.2.result
  enabling := h.enables.1
  enable := h.enables.2.1
  enabled := h.enables.2.2.result
  returning := h.returns.1
  back := h.returns.2.1
  returned := h.returns.2.2.result

end Serving

/-- Three steps lead back to where the machine can serve another interrupt. -/
theorem Serving.next {x : Machine FlatBus} (h : x.Serving) : (x.held 3).Serving := by
  obtain ⟨-, -, hlast⟩ := h.returns
  obtain ⟨henable, hlead, hcode⟩ := h.get_pushed x.cpu.registers.pc
  have hregisters : (x.held 3).cpu.registers = _ := hlast.registers
  have hmemory : (x.held 3).bus.memory = _ := hlast.memory
  constructor
  · rw [hregisters, h.mode]
  · rw [hregisters]
  · exact hlast.delay
  · exact hlast.carried
  · exact hlast.nmi
  · rw [hmemory, henable]
  · rw [hmemory, hlead]
  · rw [hmemory, hcode]
  · rw [hregisters]
    exact h.spared

theorem Serving.total {x : Machine FlatBus} (h : x.Serving) : (x.held 3).cpu.total = x.cpu.total.later 31 := by
  have hfirst : (x.held 1).cpu.total = x.cpu.total.later 13 := h.accepts.2.total
  have hsecond : (x.held 2).cpu.total = (x.held 1).cpu.total.later 4 := h.enables.2.2.total
  have hthird : (x.held 3).cpu.total = (x.held 2).cpu.total.later 14 := h.returns.2.2.total
  rw [hthird, hsecond, hfirst, Ticks.later_later, Ticks.later_later]

end Machine

def Registers.served (k : Registers) (j : Nat) : Registers :=
  if j = 0 then k
  else { k with r := refreshedBy (4 * j) k.r, wz := k.pc, iff1 := true, iff2 := true, halted := false }

theorem Registers.served_succ (k : Registers) (j : Nat) :
    let k' := k.served j
    { k' with r := refreshedBy 4 k'.r, wz := k'.pc, iff1 := true, iff2 := true, halted := false } =
      k.served (j + 1) := by
  intro k'
  have hr : refreshedBy 4 k'.r = refreshedBy (4 * (j + 1)) k.r := by
    by_cases hj : j = 0
    · simp [k', served, hj]
    · simp only [k', served, if_neg hj]
      exact refreshedBy_refreshedBy 4 (4 * j) k.r
  rw [hr]
  simp only [k', served, Nat.add_eq_zero_iff, Nat.succ_ne_self, and_false, if_false]
  split <;> rfl

namespace Machine

/-- After `j` rounds from `m` the machine stands at `x` as it did, but for R, WZ, the interrupt enables, a halt, and the
word below the stack. -/
structure Served (m x : Machine FlatBus) (j : Nat) : Prop where
  serving : x.Serving
  total : x.cpu.total = m.cpu.total.later (31 * j)
  registers : x.cpu.registers = m.cpu.registers.served j
  memory : x.bus.memory = if j = 0 then m.bus.memory else m.bus.memory.pushed m.cpu.registers.sp m.cpu.registers.pc

theorem Served.next {m x : Machine FlatBus} {j : Nat} (h : Served m x j) : Served m (x.held 3) (j + 1) := by
  obtain ⟨-, -, hlast⟩ := h.serving.returns
  have hregisters : (x.held 3).cpu.registers = _ := hlast.registers
  have hmemory : (x.held 3).bus.memory = _ := hlast.memory
  have hplace : x.cpu.registers.pc = m.cpu.registers.pc ∧ x.cpu.registers.sp = m.cpu.registers.sp := by
    rw [h.registers, Registers.served]
    split <;> exact ⟨rfl, rfl⟩
  refine ⟨h.serving.next, ?_, ?_, ?_⟩
  · rw [h.serving.total, h.total, Ticks.later_later, Nat.mul_succ]
  · rw [hregisters, h.registers, Registers.served_succ]
  · rw [hmemory, hplace.1, hplace.2, h.memory, if_neg (Nat.succ_ne_zero j)]
    split
    · rfl
    · exact Memory.pushed_pushed ..

theorem served_held {m : Machine FlatBus} (h : m.Serving) (j : Nat) : Served m (m.held (3 * j)) j := by
  induction j with
  | zero => exact ⟨h, (Ticks.later_zero _).symm, rfl, rfl⟩
  | succ j ih =>
    rw [Nat.mul_succ, held_add]
    exact ih.next

/-- A request that is held does not let the stack grow. Every three steps are a round of 13, 4 and 14 T-states in which
the interrupt is accepted at the first step only. After any number of rounds the registers are as they were, but for R,
WZ, the interrupt enables and a halt, and memory is, but for the program counter on the stack. -/
theorem held_rounds (m : Machine FlatBus) (h : m.Serving) (j : Nat) :
    let k := m.cpu.registers
    let x := m.held (3 * j)
    x.Round ∧ x.cpu.total = m.cpu.total.later (31 * j) ∧
      x.cpu.registers = (if j = 0 then k
        else { k with r := refreshedBy (4 * j) k.r, wz := k.pc, iff1 := true, iff2 := true, halted := false }) ∧
      (∀ a, Spared k.sp a → x.bus.memory.get a = m.bus.memory.get a) ∧
      (j = 0 → x.bus.memory = m.bus.memory) ∧
      (j ≠ 0 → x.bus.memory.get (k.sp - 1) = k.pc.high ∧ x.bus.memory.get (k.sp - 2) = k.pc.low) := by
  intro k x
  have hserved : Served m x j := served_held h j
  have hmemory := hserved.memory
  refine ⟨hserved.serving.round, hserved.total, hserved.registers, fun a ha => ?_, fun hj => ?_, fun hj => ?_⟩
  · rw [hmemory]
    split
    · rfl
    · exact Memory.get_pushed_of_spared _ _ _ ha
  · rw [hmemory, if_pos hj]
  · rw [hmemory, if_neg hj]
    exact ⟨Memory.get_pushed_high .., Memory.get_pushed_low ..⟩

/-- A machine halted at 1234 with its stack at the bottom of memory, so that a push wraps. -/
theorem held_rounds_wrapping :
    let m : Machine FlatBus :=
      { cpu := { registers := { pc := 0x1234, sp := 0, im := 1, iff1 := true, halted := true } }
        bus := { memory := ((Memory.zero.set 0x38 0xFB).set 0x39 0xED).set 0x3A 0x4D } }
    (m.held 300).cpu.registers.sp = 0 ∧ (m.held 300).cpu.registers.pc = 0x1234 ∧
      (m.held 300).bus.memory.get 0xFFFF = 0x12 ∧ (m.held 300).bus.memory.get 0xFFFE = 0x34 ∧
      (m.held 300).bus.memory.get 0xFFFD = 0 := by
  intro m
  have hm : m.Serving :=
    ⟨rfl, rfl, rfl, rfl, rfl, by simp [m, Memory.get_set], by simp [m, Memory.get_set], by simp [m],
      by simp [m, Spared]⟩
  obtain ⟨-, -, hregisters, hother, -, hstacked⟩ := m.held_rounds hm 100
  have hpc : m.cpu.registers.pc.high = 0x12 ∧ m.cpu.registers.pc.low = 0x34 := by decide
  have hstack : m.cpu.registers.sp - 1 = 0xFFFF ∧ m.cpu.registers.sp - 2 = 0xFFFE := ⟨rfl, rfl⟩
  obtain ⟨hhigh, hlow⟩ := hstacked (by decide)
  rw [hpc.1, hstack.1] at hhigh
  rw [hpc.2, hstack.2] at hlow
  have hbelow : (m.held 300).bus.memory.get 0xFFFD = m.bus.memory.get 0xFFFD := hother 0xFFFD ⟨by decide, by decide⟩
  refine ⟨congrArg Registers.sp hregisters, congrArg Registers.pc hregisters, hhigh, hlow, ?_⟩
  rw [hbelow]
  simp [m, Memory.get_set]

end Machine

end Z80Machine
