import Z80Machine.Proofs.Acceptance
import Z80Machine.Proofs.Copying

/-!
A block copy that is interrupted. Where RETN stands at 0066, an NMI and the return from it take two steps, after which
the machine is where it was: only R, IFF1 and WZ differ, and the two bytes below the stack, which hold the return
address. A round of a copy reads none of these, so an interrupted copy and one that is not go on alike.
-/
namespace Z80Machine

open Microcode

/-- A push on a stack at `sp` does not write to `a`. -/
def Spared (sp a : Word) : Prop := a ≠ sp - 1 ∧ a ≠ sp - 2

namespace Memory

def pushed (m : Memory) (sp w : Word) : Memory := (m.set (sp - 1) w.high).set (sp - 2) w.low

variable (m : Memory) (sp w : Word)

theorem get_pushed_high : (m.pushed sp w).get (sp - 1) = w.high := by
  have hapart : sp - 1 ≠ sp - 2 := by bv_omega
  rw [pushed, get_set_of_ne _ _ hapart, get_set_self]

theorem get_pushed_low : (m.pushed sp w).get (sp - 2) = w.low := get_set_self ..

theorem get_pushed_of_spared {a : Word} (h : Spared sp a) : (m.pushed sp w).get a = m.get a := by
  rw [pushed, get_set_of_ne _ _ h.2, get_set_of_ne _ _ h.1]

end Memory

/-- What interrupts by NMI and returns from them leave, `j` times. -/
def Registers.detoured (k : Registers) (j : Nat) (wz : Word) : Registers :=
  { k with r := refreshedBy (3 * j) k.r, iff1 := if j = 0 then k.iff1 else k.iff2, wz }

namespace Registers

variable (k : Registers)

@[simp] theorem detoured_zero : k.detoured 0 k.wz = k := by
  simp [detoured]

@[simp] theorem sp_detoured (j : Nat) (wz : Word) : (k.detoured j wz).sp = k.sp := rfl
@[simp] theorem pc_detoured (j : Nat) (wz : Word) : (k.detoured j wz).pc = k.pc := rfl
@[simp] theorem bc_detoured (j : Nat) (wz : Word) : (k.detoured j wz).bc = k.bc := rfl
@[simp] theorem de_detoured (j : Nat) (wz : Word) : (k.detoured j wz).de = k.de := rfl
@[simp] theorem hl_detoured (j : Nat) (wz : Word) : (k.detoured j wz).hl = k.hl := rfl

theorem detoured_succ (j : Nat) (wz wz' : Word) :
    let k' := k.detoured j wz
    { k' with r := refreshedBy 3 k'.r, iff1 := k'.iff2, wz := wz' } = k.detoured (j + 1) wz' := by
  intro k'
  have hr : refreshedBy 3 k'.r = refreshedBy (3 * (j + 1)) k.r := refreshedBy_refreshedBy 3 (3 * j) k.r
  rw [hr]
  rfl

theorem finished_detoured (again : Bool) (shown last : Flags) (j : Nat) (wz : Word) :
    ∃ wz', (k.detoured j wz).finished again shown last = (k.finished again shown last).detoured j wz' := by
  cases again with
  | false => exact ⟨wz, rfl⟩
  | true => exact ⟨k.pc - 1, rfl⟩

/-- A round of a copy uses and changes nothing that an NMI and its return change, but for WZ. -/
theorem loaded_detoured (d : Direction) (v : Byte) (j : Nat) (wz : Word) :
    ∃ wz', (k.detoured j wz).loaded d v = (k.loaded d v).detoured j wz' := by
  let again := k.bc - 1 != 0
  let moved := ((k.withHl (d.next k.hl)).withDe (d.next k.de)).withBc (k.bc - 1)
  let f := { k.f with half := false, parity := again, subtract := false }
  let last := f.withBlockXY (v + k.a)
  have hr : refreshedBy 2 (refreshedBy (3 * j) k.r) = refreshedBy (3 * j) (refreshedBy 2 k.r) := by
    rw [refreshedBy_refreshedBy, refreshedBy_refreshedBy, Nat.add_comm]
  have hloaded : (k.detoured j wz).loaded d v =
      (detoured { moved with pc := k.pc + 2, r := refreshedBy 2 k.r } j wz).finished again f last :=
    congrArg (fun r => finished { moved.detoured j wz with pc := k.pc + 2, r } again f last) hr
  rw [hloaded]
  exact finished_detoured ..

end Registers

namespace Cpu

variable {c : Cpu} {bus : FlatBus}

theorem step_nmi (hc : c.carried = none) (hn : c.nmiPending = true) :
    let k := c.registers
    c.StepsTo bus 11
      { k with halted := false, iff1 := false, sp := k.sp - 2, pc := 0x66, wz := 0x66, r := refreshedBy 1 k.r }
      (bus.memory.pushed k.sp k.pc) [(.memoryWrite, k.sp - 1, k.pc.high), (.memoryWrite, k.sp - 2, k.pc.low)] := by
  intro k
  have htask : c.task = .nmi := task_eq_nmi.2 ⟨hc, hn⟩
  have hcalls : c.Calls bus false 11 0x66 _ := calls_nmi htask
  have hhistory : c.history bus = Microcode.history acceptNmi c.starting bus := by
    rw [history_eq, htask]
    rfl
  constructor
  · exact hcalls.result
  · rw [hcalls.cpu]
  · rw [hcalls.cpu]
    rfl
  · rw [hcalls.bus]
    rfl
  · rw [hhistory]
    rfl
  · rw [hcalls.cpu]
    exact hc
  · rw [hcalls.cpu]
    rfl
  · rw [hcalls.cpu]
    rfl

theorem step_returnNmi (h : c.Ready) (hr : c.Reaches bus.memory ⟨.jump .returnNmi, 14⟩) :
    let k := c.registers
    let low := bus.memory.get k.sp
    let high := bus.memory.get (k.sp + 1)
    let a := Word.ofBytes high low
    c.StepsTo bus 14 { k with pc := a, wz := a, sp := k.sp + 2, iff1 := k.iff2, r := refreshedBy 2 k.r } bus.memory
      [(.memoryRead, k.sp, low), (.memoryRead, k.sp + 1, high)] :=
  (step_reached h hr).congr rfl rfl rfl rfl

theorem operation?_reached {i : Instruction} (h : c.Ready) (hi : c.Reaches bus.memory i) :
    c.operation? bus = some i.operation := by
  rw [operation?_instruction c bus h.task, resolution_target c bus.memory (hi.slot h.carried) hi.present]
  rfl

end Cpu

/-- The routine of the NMI is a mere return, which a push on a stack at `sp` leaves alone. -/
structure Returns (m : Memory) (sp : Word) : Prop where
  lead : m.get 0x66 = 0xED
  code : m.get 0x67 = 0x45
  spared : ∀ a ∈ [0x66, 0x67], Spared sp a

namespace Machine

section Excursion

variable (x : Machine FlatBus)

def entered : Machine FlatBus := (x.after (.request false)).after .step

def excursion : Machine FlatBus := x.entered.after .step

def excursions (x : Machine FlatBus) : Nat → Machine FlatBus
  | 0 => x
  | j + 1 => (x.excursions j).excursion

/-- An NMI at `x` is accepted at once. It stacks `address`, and the next step returns. -/
structure Answered (address : Word) : Prop where
  accepted : (x.after (.request false)).cpu.task = .nmi
  acceptance : ((x.after (.request false)).cpu.step x.bus).result = .ok 11
  high : x.entered.bus.memory.get (x.cpu.registers.sp - 1) = address.high
  low : x.entered.bus.memory.get (x.cpu.registers.sp - 2) = address.low
  routine : x.entered.cpu.operation? x.entered.bus = some (.jump .returnNmi)
  returned : (x.entered.cpu.step x.entered.bus).result = .ok 14

variable {x}

theorem step_entered (h : x.cpu.Ready) :
    let k := x.cpu.registers
    ((x.after (.request false)).cpu.step x.bus).result = .ok 11 ∧ x.entered.cpu.Ready ∧
      x.entered.cpu.total = x.cpu.total.later 11 ∧ x.entered.bus.memory = x.bus.memory.pushed k.sp k.pc ∧
      x.entered.cpu.registers = { k with
        halted := false, iff1 := false, sp := k.sp - 2, pc := 0x66, wz := 0x66, r := refreshedBy 1 k.r } := by
  intro k
  have hstep : (x.after (.request false)).cpu.StepsTo x.bus 11 _ _ _ := Cpu.step_nmi h.carried rfl
  exact ⟨hstep.result, hstep.ready h.interrupt rfl, hstep.total, hstep.memory, hstep.registers⟩

/-- An NMI whose routine is a return takes the machine back to where it was. -/
theorem excursion_returns (h : x.cpu.Ready) (hr : Returns x.bus.memory x.cpu.registers.sp) :
    let k := x.cpu.registers
    x.Answered k.pc ∧ x.excursion.cpu.Ready ∧ x.excursion.cpu.total = x.cpu.total.later 25 ∧
      x.excursion.bus.memory = x.bus.memory.pushed k.sp k.pc ∧
      x.excursion.cpu.registers = { k with r := refreshedBy 3 k.r, iff1 := k.iff2, wz := k.pc } := by
  intro k
  obtain ⟨hresult, hready, htotal, hmemory, hregisters⟩ := step_entered h
  have hhigh : x.entered.bus.memory.get (k.sp - 1) = k.pc.high := by rw [hmemory, Memory.get_pushed_high]
  have hlow : x.entered.bus.memory.get (k.sp - 2) = k.pc.low := by rw [hmemory, Memory.get_pushed_low]
  have hkept a (ha : a ∈ [0x66, 0x67]) : x.entered.bus.memory.get a = x.bus.memory.get a := by
    rw [hmemory, Memory.get_pushed_of_spared _ _ _ (hr.spared a ha)]
  have hreaches : x.entered.cpu.Reaches x.entered.bus.memory ⟨.jump .returnNmi, 14⟩ := by
    have hpc : x.entered.cpu.registers.pc = 0x66 := by rw [hregisters]
    constructor
    · rw [hpc, hkept 0x66 (by decide), hr.lead]
    · rw [hpc]
      show extendedPage (x.entered.bus.memory.get 0x67) = _
      rw [hkept 0x67 (by decide), hr.code]
      rfl
    · exact fun hx => absurd hx Bool.false_ne_true
  have hreturn := Cpu.step_returnNmi hready hreaches
  have hfinal : x.excursion.cpu.registers = { k with r := refreshedBy 3 k.r, iff1 := k.iff2, wz := k.pc } := by
    have hsp : x.entered.cpu.registers.sp = k.sp - 2 := by rw [hregisters]
    have hnext : k.sp - 2 + 1 = k.sp - 1 := by bv_omega
    have hword : Word.ofBytes (x.entered.bus.memory.get (x.entered.cpu.registers.sp + 1))
        (x.entered.bus.memory.get x.entered.cpu.registers.sp) = k.pc := by
      rw [hsp, hnext, hlow, hhigh, Word.ofBytes_high_low]
    have hback : k.sp - 2 + 2 = k.sp := BitVec.sub_add_cancel ..
    have hr3 : refreshedBy 2 (refreshedBy 1 k.r) = refreshedBy 3 k.r := refreshedBy_refreshedBy ..
    refine hreturn.registers.trans ?_
    simp only [hword]
    rw [hregisters, hback, hr3, ← h.running]
  refine ⟨⟨?_, hresult, hhigh, hlow, Cpu.operation?_reached hready hreaches, hreturn.result⟩, ?_, ?_, ?_, hfinal⟩
  · exact Cpu.task_eq_nmi.2 ⟨h.carried, rfl⟩
  · refine hreturn.ready hready.interrupt ?_
    rw [hregisters]
  · show (x.entered.cpu.step x.entered.bus).cpu.total = _
    rw [hreturn.total, htotal, Ticks.later_later]
  · exact hreturn.memory.trans hmemory

end Excursion

end Machine

/-- `x` has been interrupted `j` times on its way where `y` has not. -/
structure Detoured (j : Nat) (x y : Machine FlatBus) : Prop where
  ready : x.cpu.Ready
  total : x.cpu.total = y.cpu.total.later (25 * j)
  memory : ∀ a, Spared y.cpu.registers.sp a → x.bus.memory.get a = y.bus.memory.get a
  registers : ∃ wz, x.cpu.registers = y.cpu.registers.detoured j wz

namespace Detoured

variable {j : Nat} {x y : Machine FlatBus}

theorem start (h : x.cpu.Ready) : Detoured 0 x x where
  ready := h
  total := (Ticks.later_zero _).symm
  memory := fun _ _ => rfl
  registers := ⟨_, (Registers.detoured_zero _).symm⟩

theorem returns (h : Detoured j x y) (hr : Returns y.bus.memory y.cpu.registers.sp) :
    Returns x.bus.memory x.cpu.registers.sp := by
  obtain ⟨wz, hregisters⟩ := h.registers
  have hsp : x.cpu.registers.sp = y.cpu.registers.sp := by simp [hregisters]
  constructor
  · rw [h.memory _ (hr.spared 0x66 (by decide)), hr.lead]
  · rw [h.memory _ (hr.spared 0x67 (by decide)), hr.code]
  · rw [hsp]
    exact hr.spared

theorem excursion (h : Detoured j x y) (hr : Returns y.bus.memory y.cpu.registers.sp) :
    x.Answered y.cpu.registers.pc ∧ Detoured (j + 1) x.excursion y := by
  obtain ⟨wz, hregisters⟩ := h.registers
  have hsp : x.cpu.registers.sp = y.cpu.registers.sp := by simp [hregisters]
  have hpc : x.cpu.registers.pc = y.cpu.registers.pc := by simp [hregisters]
  obtain ⟨hanswered, hready, htotal, hmemory, hback⟩ := Machine.excursion_returns h.ready (h.returns hr)
  rw [hpc] at hanswered
  refine ⟨hanswered, hready, ?_, ?_, x.cpu.registers.pc, ?_⟩
  · rw [htotal, h.total, Ticks.later_later, Nat.mul_succ]
  · intro a ha
    rw [hmemory, hsp, Memory.get_pushed_of_spared _ _ _ ha]
    exact h.memory a ha
  · rw [hback, hregisters, Registers.detoured_succ]

theorem excursions (h : Detoured j x y) (hr : Returns y.bus.memory y.cpu.registers.sp) (n : Nat) :
    Detoured (j + n) (x.excursions n) y := by
  induction n with
  | zero => exact h
  | succ n ih => exact (ih.excursion hr).2

theorem round {d : Direction} (h : Detoured j x y) (hy : y.cpu.Ready)
    (hb : y.cpu.Faces y.bus.memory ⟨.load, d, true⟩)
    (hspared : ∀ a ∈ [y.cpu.registers.pc, y.cpu.registers.pc + 1, y.cpu.registers.hl], Spared y.cpu.registers.sp a) :
    (x.cpu.step x.bus).result = (y.cpu.step y.bus).result ∧ Detoured j (x.after .step) (y.after .step) := by
  obtain ⟨wz, hregisters⟩ := h.registers
  have hread a (ha : a ∈ [y.cpu.registers.pc, y.cpu.registers.pc + 1, y.cpu.registers.hl]) :
      x.bus.memory.get a = y.bus.memory.get a := h.memory a (hspared a ha)
  have hfaces : x.cpu.Faces x.bus.memory ⟨.load, d, true⟩ := by
    have hpc : x.cpu.registers.pc = y.cpu.registers.pc := by simp [hregisters]
    constructor
    · rw [hpc, hread _ (by simp), hb.lead]
    · rw [hpc, hread _ (by simp), hb.code]
  have hbc : x.cpu.registers.bc = y.cpu.registers.bc := by simp [hregisters]
  have hhl : x.cpu.registers.hl = y.cpu.registers.hl := by simp [hregisters]
  have hde : x.cpu.registers.de = y.cpu.registers.de := by simp [hregisters]
  obtain ⟨_, hxs⟩ := Cpu.step_loaded h.ready hfaces
  obtain ⟨_, hys⟩ := Cpu.step_loaded hy hb
  rw [hbc, hhl, hde, hread _ (by simp)] at hxs
  obtain ⟨wz', hloaded⟩ := y.cpu.registers.loaded_detoured d (y.bus.memory.get y.cpu.registers.hl) j wz
  have hsp : (y.after .step).cpu.registers.sp = y.cpu.registers.sp :=
    (congrArg Registers.sp hys.registers).trans (Registers.sp_loaded ..)
  refine ⟨hxs.result.trans hys.result.symm, hxs.ready h.ready.interrupt ?_, ?_, ?_, wz', ?_⟩
  · rw [Registers.halted_loaded, h.ready.running]
  · show (x.cpu.step x.bus).cpu.total = (y.cpu.step y.bus).cpu.total.later (25 * j)
    rw [hxs.total, hys.total, h.total, Ticks.later_later, Ticks.later_later, Nat.add_comm]
  · intro a ha
    rw [hsp] at ha
    show (x.cpu.step x.bus).bus.memory.get a = (y.cpu.step y.bus).bus.memory.get a
    rw [hxs.memory, hys.memory, Memory.get_set, Memory.get_set, h.memory a ha]
  · show (x.cpu.step x.bus).cpu.registers = (y.cpu.step y.bus).cpu.registers.detoured j wz'
    rw [hxs.registers, hys.registers, hregisters, hloaded]

end Detoured

namespace Machine

section Interrupted

variable (m : Machine FlatBus) (asked : Nat → Nat)

/-- The machine `i` rounds on its way, if so many NMIs as `asked` says came before each round. -/
def arrival : Nat → Machine FlatBus
  | 0 => m
  | i + 1 => ((arrival i).excursions (asked i)).after .step

def interrupted (i : Nat) : Machine FlatBus := (m.arrival asked i).excursions (asked i)

end Interrupted

def nmisBefore (asked : Nat → Nat) : Nat → Nat
  | 0 => 0
  | i + 1 => nmisBefore asked i + asked i

end Machine

/-- At its start a copy that does not write to its own opcode or to the routine of the NMI, which returns, while a push
writes to neither, nor to a byte that is to be copied. -/
structure Interruptible (d : Direction) (m : Machine FlatBus) : Prop where
  ready : m.cpu.Ready
  lead : m.bus.memory.get m.cpu.registers.pc = 0xED
  code : m.bus.memory.get (m.cpu.registers.pc + 1) = if d = .up then 0xB0 else 0xB8
  returns : Returns m.bus.memory m.cpu.registers.sp
  opcode : ∀ a ∈ [m.cpu.registers.pc, m.cpu.registers.pc + 1], Spared m.cpu.registers.sp a
  sources : ∀ i < m.cpu.registers.rounds, Spared m.cpu.registers.sp (d.moved m.cpu.registers.hl i)
  destinations : ∀ i < m.cpu.registers.rounds,
    ∀ a ∈ [m.cpu.registers.pc, m.cpu.registers.pc + 1, 0x66, 0x67], d.moved m.cpu.registers.de i ≠ a

namespace Interruptible

variable {d : Direction} {m : Machine FlatBus} {i : Nat}

theorem spare (h : Interruptible d m) (i : Nat) (hi : i < m.cpu.registers.rounds) :
    d.moved m.cpu.registers.de i ≠ m.cpu.registers.pc ∧ d.moved m.cpu.registers.de i ≠ m.cpu.registers.pc + 1 :=
  ⟨h.destinations i hi _ (by simp), h.destinations i hi _ (by simp)⟩

theorem returns_steps (h : Interruptible d m) (hi : i ≤ m.cpu.registers.rounds) :
    Returns (m.steps i).bus.memory (m.steps i).cpu.registers.sp := by
  obtain ⟨-, hmemory, hsp, -⟩ := m.copied_steps d h.ready h.lead h.code h.spare hi
  have hkept a (ha : a ∈ [m.cpu.registers.pc, m.cpu.registers.pc + 1, 0x66, 0x67]) :
      (m.steps i).bus.memory.get a = m.bus.memory.get a := by
    rw [hmemory]
    exact Memory.get_copy_of_ne _ _ _ _ fun j hj => h.destinations j (Nat.lt_of_lt_of_le hj hi) a ha
  constructor
  · rw [hkept 0x66 (by simp), h.returns.lead]
  · rw [hkept 0x67 (by simp), h.returns.code]
  · rw [hsp]
    exact h.returns.spared

/-- A round does not tell whether there have been excursions. -/
theorem round (h : Interruptible d m) (hi : i < m.cpu.registers.rounds) {j : Nat} {x : Machine FlatBus}
    (hx : Detoured j x (m.steps i)) :
    (x.cpu.step x.bus).result = ((m.steps i).cpu.step (m.steps i).bus).result ∧
      Detoured j (x.after .step) (m.steps (i + 1)) := by
  obtain ⟨hcopying, hfaces⟩ := m.copying_steps d h.ready h.lead h.code h.spare i hi
  obtain ⟨-, -, hsp, -⟩ := m.copied_steps d h.ready h.lead h.code h.spare (Nat.le_of_lt hi)
  have hspared : ∀ a ∈ [m.cpu.registers.pc, m.cpu.registers.pc + 1, d.moved m.cpu.registers.hl i],
      Spared m.cpu.registers.sp a :=
    List.forall_mem_append.2 ⟨h.opcode, List.forall_mem_singleton.2 (h.sources i hi)⟩
  rw [← hsp, ← hcopying.pc, ← hcopying.hl] at hspared
  exact hx.round hcopying.ready hfaces hspared

/-- Before each round the machine has been interrupted as often as asked and is otherwise on its way. -/
theorem arrival (h : Interruptible d m) (asked : Nat → Nat) (hi : i ≤ m.cpu.registers.rounds) :
    Detoured (Machine.nmisBefore asked i) (m.arrival asked i) (m.steps i) := by
  induction i with
  | zero => exact .start h.ready
  | succ i ih =>
    have hexcursions := (ih (Nat.le_of_lt hi)).excursions (h.returns_steps (Nat.le_of_lt hi)) (asked i)
    exact (h.round hi hexcursions).2

end Interruptible

namespace Machine

/-- A block copy that is interrupted by any number of NMIs before its rounds and after the last ends as one that is not.
An NMI takes two steps and 25 T-states, and while rounds are left it stacks the address of the copy. Memory then differs
in the two bytes below the stack at most, and of the registers R, IFF1 and WZ. -/
theorem steps_interrupted (m : Machine FlatBus) (d : Direction) (asked : Nat → Nat) (h : Interruptible d m) :
    let k := m.cpu.registers
    let n := k.rounds
    let x := m.interrupted asked
    let nmis := nmisBefore asked (n + 1)
    (∀ i < n, ((x i).cpu.step (x i).bus).result = ((m.steps i).cpu.step (m.steps i).bus).result) ∧
      (∀ i ≤ n, ∀ j < asked i,
        ((m.arrival asked i).excursions j).Answered (if i < n then k.pc else k.pc + 2)) ∧
      (∀ i ≤ n, (x i).cpu.registers.pc = if i < n then k.pc else k.pc + 2) ∧
      (x n).cpu.Ready ∧
      (x n).cpu.total = (m.steps n).cpu.total.later (25 * nmis) ∧
      (∀ a, Spared k.sp a → (x n).bus.memory.get a = (m.steps n).bus.memory.get a) ∧
      ∃ wz, (x n).cpu.registers =
        let u := (m.steps n).cpu.registers
        { u with r := refreshedBy (3 * nmis) u.r, iff1 := if nmis = 0 then u.iff1 else u.iff2, wz } := by
  intro k n x nmis
  have hx : ∀ i ≤ n, Detoured (nmisBefore asked (i + 1)) (x i) (m.steps i) := by
    intro i hi
    exact (h.arrival asked hi).excursions (h.returns_steps hi) (asked i)
  have hend := hx n (Nat.le_refl n)
  have hstanding : ∀ i ≤ n, (m.steps i).cpu.registers.sp = k.sp ∧
      (m.steps i).cpu.registers.pc = if i < n then k.pc else k.pc + 2 := by
    intro i hi
    exact (m.copied_steps d h.ready h.lead h.code h.spare hi).2.2
  refine ⟨fun i hi => (h.round hi (hx i (Nat.le_of_lt hi))).1, ?_, ?_, hend.ready, hend.total, ?_, hend.registers⟩
  · intro i hi j hj
    have hbefore := (h.arrival asked hi).excursions (h.returns_steps hi) j
    rw [← (hstanding i hi).2]
    exact (hbefore.excursion (h.returns_steps hi)).1
  · intro i hi
    obtain ⟨wz, hregisters⟩ := (hx i hi).registers
    rw [hregisters, Registers.pc_detoured]
    exact (hstanding i hi).2
  · rw [← (hstanding n (Nat.le_refl n)).1]
    exact hend.memory

/-- Two bytes are copied, with an NMI before the first, between them and after the second. -/
theorem steps_interrupted_thrice :
    let m : Machine FlatBus :=
      { cpu := { registers := { c := 2, h := 0x40, d := 0x50, sp := 0x8000 } }
        bus := { memory := (((Memory.zero.set 0 0xED).set 1 0xB0).set 0x66 0xED).set 0x67 0x45 } }
    let asked (_ : Nat) : Nat := 1
    ((m.arrival asked 1).excursions 0).Answered 0 ∧
      (m.interrupted asked 2).cpu.total = (m.steps 2).cpu.total.later 75 := by
  intro m asked
  have hn : m.cpu.registers.rounds = 2 := by decide
  have hhl : m.cpu.registers.hl = 0x4000 := by decide
  have hde : m.cpu.registers.de = 0x5000 := by decide
  have hpc : m.cpu.registers.pc = 0 := rfl
  have hsp : m.cpu.registers.sp = 0x8000 := rfl
  have hreturns : Returns m.bus.memory m.cpu.registers.sp :=
    ⟨by simp [m, Memory.get_set], by simp [m], by simp [hsp, Spared]⟩
  have hsources : ∀ i < m.cpu.registers.rounds,
      Spared m.cpu.registers.sp (Direction.up.moved m.cpu.registers.hl i) := by
    rw [hn, hhl, hsp]
    simp only [Spared]
    decide
  have hdestinations : ∀ i < m.cpu.registers.rounds,
      ∀ a ∈ [m.cpu.registers.pc, m.cpu.registers.pc + 1, 0x66, 0x67], Direction.up.moved m.cpu.registers.de i ≠ a := by
    rw [hn, hde, hpc]
    simp only [List.mem_cons, List.not_mem_nil, or_false, forall_eq_or_imp, forall_eq]
    decide
  have hopcode : ∀ a ∈ [m.cpu.registers.pc, m.cpu.registers.pc + 1], Spared m.cpu.registers.sp a := by
    simp [hpc, hsp, Spared]
  have h : Interruptible .up m :=
    ⟨⟨rfl, rfl, rfl, rfl⟩, by simp [m, Memory.get_set], by simp [m, Memory.get_set], hreturns, hopcode, hsources,
      hdestinations⟩
  obtain ⟨-, hanswered, -, -, htotal, -⟩ := m.steps_interrupted .up asked h
  have hnmis : nmisBefore asked 3 = 3 := by decide
  have hbetween := hanswered 1 (by rw [hn]; decide) 0 Nat.zero_lt_one
  rw [hn, if_pos (by decide), hpc] at hbetween
  rw [hn, hnmis] at htotal
  exact ⟨hbetween, htotal⟩

end Machine

end Z80Machine
