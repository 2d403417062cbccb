import Z80Machine.Proofs.ProgramCounter

/-!
The instructions that move words to and from the stack. A POP behind a PUSH brings the word into another pair, unless
the push overwrites the bytes of the POP, and an exchange with the top of the stack undoes itself.
-/
namespace Z80Machine

open Microcode

section Follow

variable {m m' : Memory} {a : Word}

/-- Where bytes lead does not depend on others than those on the way. -/
theorem followBase_congr (b : Base)
    (h : ∀ i < (followBase m b a).bytes, m'.get (a + BitVec.ofNat 16 i) = m.get (a + BitVec.ofNat 16 i)) :
    followBase m' b a = followBase m b a := by
  have hfirst : m'.get a = m.get a := by
    have h0 := h 0 (by rw [bytes_followBase]; exact Nat.succ_pos _)
    rwa [BitVec.add_zero] at h0
  by_cases he : m.get a = 0xED
  · rw [followBase_extended _ b he] at h ⊢
    rw [followBase_extended _ b (hfirst.trans he), hfirst]
    have h1 : m'.get (a + 1) = m.get (a + 1) := h 1 (show 1 < 2 by decide)
    rw [h1]
  by_cases hb : m.get a = 0xCB
  · cases b with
    | hl =>
      rw [followBase_bits _ hb] at h ⊢
      have h1 : m'.get (a + 1) = m.get (a + 1) := h 1 (show 1 < 2 by decide)
      rw [followBase_bits _ (hfirst.trans hb), hfirst, h1]
    | index x =>
      rw [followBase_indexedBits _ x hb] at h ⊢
      have h1 : m'.get (a + 1) = m.get (a + 1) := h 1 (show 1 < 3 by decide)
      have h2 : m'.get (a + 2) = m.get (a + 2) := h 2 (show 2 < 3 by decide)
      rw [followBase_indexedBits _ x (hfirst.trans hb), hfirst, h1, h2]
  · rw [followBase_opening _ b he hb, followBase_opening _ b (by rwa [hfirst]) (by rwa [hfirst]), hfirst]

theorem follow_congr
    (h : ∀ i < (follow m a none).bytes, m'.get (a + BitVec.ofNat 16 i) = m.get (a + BitVec.ofNat 16 i)) :
    follow m' a none = follow m a none := by
  have hfirst : m'.get a = m.get a := by
    have h0 := h 0 (bytes_follow_pos m a)
    rwa [BitVec.add_zero] at h0
  cases hp : Index.ofPrefix? (m.get a) with
  | none =>
    rw [follow_plain _ hp] at h ⊢
    rw [follow_plain _ (by rwa [hfirst])]
    exact followBase_congr .hl h
  | some x =>
    have hx := Index.ofPrefix?_eq_some.1 hp
    have hrest : followBase m' (.index x) (a + 1) = followBase m (.index x) (a + 1) := by
      refine followBase_congr (.index x) fun i hi => ?_
      rw [bytes_followBase] at hi
      have hnext := h (i + 1) (by rw [bytes_follow_indexed m hx]; omega)
      rwa [next_address] at hnext
    rw [follow_indexed _ hx, follow_indexed _ (hfirst.trans hx), hfirst, hrest]

end Follow

def Target.Executes (t : Target) (op : Operation) : Prop := ∃ i, t.page.slot t.byte = .instruction i ∧ i.operation = op

theorem Registers.pair_fetched (k : Registers) (t : Target) (p : Pair) : (t.fetched k).pair p = k.pair p := by
  rcases p with _ | _ | _ | _ | _ | _ | _ <;> rfl

theorem Registers.sp_withPair (k : Registers) {p : Pair} (h : p ≠ .sp) (w : Word) : (k.withPair p w).sp = k.sp := by
  rcases p with _ | _ | _ | _ | _ | _ | _
  case sp => exact absurd rfl h
  all_goals rfl

/-- The tables have no POP SP. -/
theorem Target.ne_sp_of_pop {t : Target} {q : Pair} (h : t.Executes (.transfer (.pop q))) : q ≠ .sp := by
  have hslots : ∀ page : Page, ∀ v : Byte, ∀ i ∈ (page.slot v).instruction?, i.operation ≠ .transfer (.pop .sp) := by
    rintro ((_ | _ | _) | _ | _ | (_ | _)) <;> decide +kernel
  obtain ⟨i, hi, hop⟩ := h
  rintro rfl
  exact hslots t.page t.byte i (by rw [hi]; rfl) hop

namespace Cpu

/-- No request is to be accepted, and the processor has not halted. -/
structure Undisturbed (c : Cpu) : Prop where
  nmi : c.nmiPending = false
  interrupt : (c.interruptPending && c.registers.iff1) = false
  running : c.registers.halted = false

variable {c : Cpu} {bus : FlatBus}

theorem Undisturbed.task (h : c.Undisturbed) : c.task = .instruction c.carried := by
  refine task_eq_instruction.2 (.inr ⟨h.nmi, ?_, h.running⟩)
  rw [h.interrupt, Bool.false_and]

theorem operation_of_target {t : Transfer} (ht : c.task = .instruction c.carried)
    (h : (c.target bus.memory).Executes (.transfer t)) : c.operation? bus = some (.transfer t) := by
  obtain ⟨i, hi, hop⟩ := h
  have hx : i.operation.isExtension → c.config.extensions := by
    rw [hop]
    exact nofun
  rw [operation?_instruction c bus ht, resolution_target c bus.memory hi hx, Resolution.operation?, hop]

section Steps

variable (ht : c.task = .instruction c.carried)
include ht

theorem push_step {p : Pair} (h : c.operation? bus = some (.transfer (.push p))) :
    let k := c.registers
    (c.step bus).result.isOk ∧ (c.step bus).cpu.carried = none ∧
      (c.step bus).cpu.registers = { (c.target bus.memory).fetched k with sp := k.sp - 2 } ∧
      (c.step bus).bus.memory = bus.memory.pushed k.sp (k.pair p) := by
  intro k
  obtain ⟨hresult, hcarried, hregisters, hmemory⟩ := c.step_executed bus ht h
  refine ⟨hresult, hcarried, hregisters, hmemory.trans ?_⟩
  rw [← k.pair_fetched (c.target bus.memory) p]
  rfl

theorem pop_step {q : Pair} (h : c.operation? bus = some (.transfer (.pop q))) :
    let k := c.registers
    (c.step bus).result.isOk ∧
      (c.step bus).cpu.registers =
        { (c.target bus.memory).fetched k with sp := k.sp + 2 }.withPair q (bus.memory.word k.sp) ∧
      (c.step bus).bus.memory = bus.memory := by
  intro k
  obtain ⟨hresult, -, hregisters, hmemory⟩ := c.step_executed bus ht h
  exact ⟨hresult, hregisters, hmemory⟩

theorem exchangeStackTop_step {b : Base} (h : c.operation? bus = some (.transfer (.exchangeStackTop b))) :
    let k := c.registers
    let m := bus.memory
    let k' := (c.step bus).cpu.registers
    (c.step bus).result.isOk ∧ k'.sp = k.sp ∧ k'.base b = m.word k.sp ∧
      (c.step bus).bus.memory = m.pushed (k.sp + 2) (k.base b) := by
  intro k m k'
  obtain ⟨hresult, -, hregisters, hmemory⟩ := c.step_executed bus ht h
  have hbase : ((c.target m).fetched k).base b = k.base b := k.pair_fetched (c.target m) b.pair
  refine ⟨hresult, ?_, ?_, hmemory.trans ?_⟩
  · have hne : b.pair ≠ .sp := by cases b <;> exact nofun
    exact (congrArg Registers.sp hregisters).trans (Registers.sp_withPair _ hne _)
  · have hpair := Registers.pair_withPair ((c.target m).fetched k) b.pair (m.word k.sp)
    rw [← hpair]
    exact (congrArg (Registers.base · b) hregisters).trans (by rcases b with _ | _ | _ <;> rfl)
  · have hhigh : k.sp + 2 - 1 = k.sp + 1 := by bv_omega
    rw [← hbase, Memory.pushed, hhigh, BitVec.add_sub_cancel]
    rfl

end Steps

/-- The address behind the bytes of the instruction at the program counter. -/
def behind (c : Cpu) (m : Memory) : Word := c.registers.pc + BitVec.ofNat 16 (c.target m).bytes

theorem pc_target (c : Cpu) (m : Memory) : ((c.target m).fetched c.registers).pc = c.behind m := by
  have hplaced : (c.target m).Placed m c.registers.pc := placed_follow ..
  rw [behind, hplaced.bytes, ← hplaced.operands]
  rfl

/-- A POP stands behind the PUSH at the program counter, which does not write to its bytes. -/
structure PopsNext (c : Cpu) (m : Memory) (p q : Pair) : Prop where
  push : (c.target m).Executes (.transfer (.push p))
  pop : (follow m (c.behind m) none).Executes (.transfer (.pop q))
  spared : ∀ i < (follow m (c.behind m) none).bytes, Spared c.registers.sp (c.behind m + BitVec.ofNat 16 i)

theorem PopsNext.step {p q : Pair} (h : c.PopsNext bus.memory p q) (hc : c.Undisturbed) :
    let y := c.step bus
    y.cpu.Undisturbed ∧ (y.cpu.target y.bus.memory).Executes (.transfer (.pop q)) := by
  intro y
  obtain ⟨-, hcarried, hregisters, hmemory⟩ := push_step hc.task (operation_of_target hc.task h.push)
  have hpc : y.cpu.registers.pc = c.behind bus.memory := (congrArg Registers.pc hregisters).trans (c.pc_target _)
  refine ⟨⟨?_, ?_, ?_⟩, ?_⟩
  · rw [nmiPending_step, hc.nmi, Bool.false_and]
  · have hiff : y.cpu.registers.iff1 = c.registers.iff1 := (congrArg Registers.iff1 hregisters).trans rfl
    rw [interruptPending_step, hiff, Bool.and_right_comm, hc.interrupt, Bool.false_and]
  · exact (congrArg Registers.halted hregisters).trans hc.running
  · have hsame : y.cpu.target y.bus.memory = follow bus.memory (c.behind bus.memory) none := by
      rw [target, hcarried, hpc, hmemory]
      exact follow_congr fun i hi => Memory.get_pushed_of_spared _ _ _ (h.spared i hi)
    rw [hsame]
    exact h.pop

theorem push_pop {p q : Pair} (h : c.PopsNext bus.memory p q) (hc : c.Undisturbed) :
    let k := c.registers
    let y := c.step bus
    let z := y.cpu.step y.bus
    y.result.isOk ∧ z.result.isOk ∧ z.cpu.registers.pair q = k.pair p ∧ z.cpu.registers.sp = k.sp ∧
      z.bus.memory = bus.memory.pushed k.sp (k.pair p) := by
  intro k y z
  obtain ⟨hpushed, -, hregisters, hmemory⟩ := push_step hc.task (operation_of_target hc.task h.push)
  obtain ⟨hundisturbed, hpop⟩ := h.step hc
  obtain ⟨hpopped, hregisters', hmemory'⟩ := pop_step hundisturbed.task (operation_of_target hundisturbed.task hpop)
  have hsp : y.cpu.registers.sp = k.sp - 2 := congrArg Registers.sp hregisters
  refine ⟨hpushed, hpopped, ?_, ?_, hmemory'.trans hmemory⟩
  · rw [hregisters', Registers.pair_withPair, hmemory, hsp, Memory.word_pushed]
  · rw [hregisters', Registers.sp_withPair _ (Target.ne_sp_of_pop hpop), hsp]
    exact BitVec.sub_add_cancel ..

/-- Exchanging a register with the top of the stack swaps them, and doing it twice leaves both as they were. -/
theorem exchangeStackTop_twice {b : Base} (ht : c.task = .instruction c.carried)
    (hop : c.operation? bus = some (.transfer (.exchangeStackTop b))) :
    let k := c.registers
    let m := bus.memory
    let y := c.step bus
    let z := y.cpu.step y.bus
    y.cpu.task = .instruction y.cpu.carried → y.cpu.operation? y.bus = some (.transfer (.exchangeStackTop b)) →
      (y.result.isOk ∧ y.cpu.registers.base b = m.word k.sp ∧ y.bus.memory.word k.sp = k.base b) ∧
        z.result.isOk ∧ z.cpu.registers.base b = k.base b ∧ z.cpu.registers.sp = k.sp ∧ z.bus.memory = m := by
  intro k m y z ht' hop'
  obtain ⟨hresult, hsp, hbase, hmemory⟩ := exchangeStackTop_step ht hop
  obtain ⟨hresult', hsp', hbase', hmemory'⟩ := exchangeStackTop_step ht' hop'
  have hplace : k.sp + 2 - 2 = k.sp := BitVec.add_sub_cancel k.sp 2
  have hword : y.bus.memory.word k.sp = k.base b := by
    have hpushed := bus.memory.word_pushed (k.sp + 2) (k.base b)
    rwa [hplace, ← hmemory] at hpushed
  refine ⟨⟨hresult, hbase, hword⟩, hresult', ?_, hsp'.trans hsp, ?_⟩
  · rw [hbase', hsp, hword]
  · have hback := bus.memory.pushed_pushed_word (k.sp + 2) (k.base b)
    rwa [hplace, ← hbase, ← hmemory, ← hsp, ← hmemory'] at hback

/-- The stack is last-in first-out at every stack pointer. Up to 32768 words that are pushed and popped again come in
the opposite order and leave the processor as it was. Each push and each pop takes six T-states, no address but the
`2 * n` below the stack pointer changes, and word `i` lies there in the bytes `2 * i + 2` and `2 * i + 1` below it, low
byte first. So a PUSH with a POP behind that it does not overwrite copies a pair to another, and exchanging a register
with the top of the stack in two steps leaves both as they were. -/
theorem last_in_first_out (s : Execution) (c : Cpu) (bus : FlatBus) (ws : List Word) (hws : ws.length ≤ 32768) :
    let m := bus.memory
    let k := c.registers
    let y := c.step bus
    let z := y.cpu.step y.bus
    (let sp := s.registers.sp
      let pushed := on (pushWords ws) s bus
      let popped := on (popWords ws.length) pushed.value.2 pushed.bus
      let m' := popped.bus.memory
      popped.value = (ws.reverse, s) ∧ pushed.elapsed = 6 * ws.length ∧ popped.elapsed = 6 * ws.length ∧
        pushed.bus.memory = m' ∧ (∀ a, Outside sp (2 * ws.length) a → m'.get a = m.get a) ∧
        ∀ i (hi : i < ws.length), m'.get (sp - BitVec.ofNat 16 (2 * i + 2)) = ws[i].low ∧
          m'.get (sp - BitVec.ofNat 16 (2 * i + 1)) = ws[i].high) ∧
      (∀ p q, c.Undisturbed → c.PopsNext m p q →
        y.result.isOk ∧ z.result.isOk ∧ z.cpu.registers.pair q = k.pair p ∧ z.cpu.registers.sp = k.sp ∧
          z.bus.memory = m.pushed k.sp (k.pair p)) ∧
      ∀ b, c.task = .instruction c.carried → c.operation? bus = some (.transfer (.exchangeStackTop b)) →
        y.cpu.task = .instruction y.cpu.carried → y.cpu.operation? y.bus = some (.transfer (.exchangeStackTop b)) →
        (y.result.isOk ∧ y.cpu.registers.base b = m.word k.sp ∧ y.bus.memory.word k.sp = k.base b) ∧
          z.result.isOk ∧ z.cpu.registers.base b = k.base b ∧ z.cpu.registers.sp = k.sp ∧ z.bus.memory = m := by
  intro m k y z
  refine ⟨?_, fun p q hc h => push_pop h hc, fun b ht hop => exchangeStackTop_twice ht hop⟩
  intro sp pushed popped m'
  obtain ⟨hvalue, hmemory, helapsed⟩ := run_pushWords s bus ws
  obtain ⟨hvalue', hmemory', helapsed'⟩ := run_popWords pushed.value.2 pushed.bus ws.length
  have hstacked : m' = m.stacked sp ws := hmemory'.trans hmemory
  have hpushed : pushed.value.2 = s.withSp (sp - BitVec.ofNat 16 (2 * ws.length)) := congrArg Prod.snd hvalue
  refine ⟨?_, helapsed, helapsed', hmemory'.symm, fun a ha => ?_, fun i hi => ?_⟩
  · refine hvalue'.trans ?_
    rw [hmemory, hpushed, Execution.sp_withSp, Execution.withSp_withSp, BitVec.sub_add_cancel,
      Memory.words_stacked _ _ hws]
    rfl
  · rw [hstacked]
    exact m.get_stacked_of_outside ha
  · rw [hstacked]
    exact (m.get_stacked sp hws hi).symm

/-- Two words over the end of memory, PUSH BC with POP IX behind it, and EX (SP),HL twice with SP at FFFF. -/
theorem last_in_first_out_wrapping :
    (let s : Execution := { registers := { sp := 1 } }
      let pushed := on (pushWords [0x1234, 0xABCD]) s ({} : FlatBus)
      (on (popWords 2) pushed.value.2 pushed.bus).value = ([0xABCD, 0x1234], s)) ∧
      (let c : Cpu := { registers := { sp := 1, pc := 4, b := 0x12, c := 0x34 } }
        let y := c.step ({ memory := ((Memory.zero.set 4 0xC5).set 5 0xDD).set 6 0xE1 } : FlatBus)
        (y.cpu.step y.bus).cpu.registers.ix = 0x1234) ∧
      let c : Cpu := { registers := { sp := 0xFFFF, pc := 4, h := 0x12, l := 0x34 } }
      let bus : FlatBus := { memory := (Memory.zero.set 4 0xE3).set 5 0xE3 }
      let y := c.step bus
      y.cpu.registers.hl = 0 ∧ (y.cpu.step y.bus).bus.memory = bus.memory := by
  refine ⟨?_, ?_, ?_⟩
  · exact (last_in_first_out { registers := { sp := 1 } } {} {} [0x1234, 0xABCD] (by decide)).1.1
  · intro c y
    let m : Memory := ((Memory.zero.set 4 0xC5).set 5 0xDD).set 6 0xE1
    have hfirst : c.target m = { base := .hl, page := .opening .hl, byte := 0xC5, opcode := [0xC5] } := by
      decide +kernel
    have hsecond : follow m 5 none =
        { base := .index .ix, page := .opening (.index .ix), byte := 0xE1, opcode := [0xDD, 0xE1] } := by
      decide +kernel
    have hbehind : c.behind m = 5 := by rw [behind, hfirst]; decide
    have hpops : c.PopsNext m .bc (.index .ix) := by
      refine ⟨⟨⟨.transfer (.push .bc), 11⟩, by rw [hfirst]; rfl, rfl⟩, ?_, ?_⟩
      · rw [hbehind, hsecond]
        exact ⟨⟨.transfer (.pop (.index .ix)), 14⟩, rfl, rfl⟩
      · rw [hbehind, hsecond]
        simp only [Spared]
        decide
    obtain ⟨-, hcopy, -⟩ := last_in_first_out c.starting c { memory := m } [] (by decide)
    have hpair : c.registers.pair .bc = 0x1234 := by decide
    exact (hcopy .bc (.index .ix) ⟨rfl, rfl, rfl⟩ hpops).2.2.1.trans hpair
  · intro c bus y
    obtain ⟨-, -, hexchange⟩ := last_in_first_out c.starting c bus [] (by decide)
    have hop : c.operation? bus = some (.transfer (.exchangeStackTop .hl)) := by decide +kernel
    have hop' : y.cpu.operation? y.bus = some (.transfer (.exchangeStackTop .hl)) := by decide +kernel
    have htask : y.cpu.task = .instruction y.cpu.carried := by decide +kernel
    obtain ⟨⟨-, hbase, -⟩, -, -, -, hmemory⟩ := hexchange .hl rfl hop htask hop'
    have hword : bus.memory.word 0xFFFF = 0 := by simp [Memory.word, bus, Memory.get_set, Word.ofBytes]
    exact ⟨hbase.trans hword, hmemory⟩

end Cpu

end Z80Machine
