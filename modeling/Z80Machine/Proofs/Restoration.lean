import Z80Machine.Proofs.Halt
import Z80Machine.Proofs.Plain
import Z80Machine.Proofs.Timing

/-!
What saved registers leave out. Between two steps a processor also has the flags that the last step latched, the wait
after EI and a carried prefix. One that is made anew and given the registers has none of them. It behaves alike exactly
if no prefix was carried, no EI is being waited for, and the latched X and Y are seen in the accumulator anyway.
-/
namespace Z80Machine

open Microcode

/-- A new processor with the registers of `c`, its configuration and the devices' data. -/
def Cpu.restored (c : Cpu) : Cpu :=
  { Cpu.new c.config with interruptData := c.interruptData, registers := c.registers }

theorem Activity.Ends.bind_congr {α γ : Type} {P : α → Prop} {m : Activity α} (h : m.Ends P) {f g : α → Activity γ}
    (hfg : ∀ a, P a → f a = g a) : m.bind f = m.bind g := by
  induction m with
  | done a => exact hfg a h
  | receive c next ih => exact congrArg (receive c) (funext fun v => ih v (h v))
  | send c next ih => exact congrArg (send c) (ih h)
  | pause c next ih => exact congrArg (pause c) (ih h)

namespace Flags

/-- Latched flags that setting and complementing the carry do not tell apart with the accumulator at `a`. -/
def AlikeAt (a : Byte) (p q : Flags) : Prop := ∀ f : Flags, f.afterCarry p a = f.afterCarry q a

theorem seen_iff (latched f a : Bool) :
    ((false ^^ f) || a) = ((latched ^^ f) || a) ↔ (latched = true → a = true) := by
  cases latched <;> cases f <;> cases a <;> decide

theorem alikeAt_clear {a : Byte} {p : Flags} (hy : p.y = true → a.getLsbD 5 = true)
    (hx : p.x = true → a.getLsbD 3 = true) : AlikeAt a .clear p := by
  intro f
  have hfy : ((false ^^ f.y) || a.getLsbD 5) = ((p.y ^^ f.y) || a.getLsbD 5) := (seen_iff ..).2 hy
  have hfx : ((false ^^ f.x) || a.getLsbD 3) = ((p.x ^^ f.x) || a.getLsbD 3) := (seen_iff ..).2 hx
  simp only [afterCarry, clear, hfy, hfx]

end Flags

namespace Cpu

/-- The processors differ in their count of T-states and in latched flags that nothing tells apart. -/
def Alike (c c' : Cpu) : Prop :=
  ∃ latch total, c' = { c with latch, total } ∧ Flags.AlikeAt c.registers.a latch c.latch

end Cpu

theorem Operation.execute_latch {p q : Flags} {s : Execution} (h : Flags.AlikeAt s.registers.a p q) (config : Config)
    (op : Operation) : op.execute config p s = op.execute config q s := by
  by_cases hset : op = .arithmetic .setCarry
  · have hflags : carrySet s.registers.f p s.registers.a = carrySet s.registers.f q s.registers.a := by
      rw [carrySet, carrySet, h]
    rw [hset]
    exact congrArg (fun f => setFlags f s) hflags
  by_cases hcomplement : op = .arithmetic .complementCarry
  · have hflags : carryComplemented s.registers.f p s.registers.a =
        carryComplemented s.registers.f q s.registers.a := by
      rw [carryComplemented, carryComplemented, h]
    rw [hcomplement]
    exact congrArg (fun f => setFlags f s) hflags
  · exact congrFun (execute_previous config hset hcomplement p q) s

namespace Cpu

variable {c : Cpu} {latch : Flags} {total : Ticks}

theorem complete_latch {s : Execution} (h : Flags.AlikeAt s.registers.a latch c.latch) (start : Word) (o : Resolution) :
    complete { c with latch, total } start o s = c.complete start o s := by
  cases o with
  | instruction i =>
    let done (p : Unit × Execution) : Activity (Ending × Execution) := .done (.ok none, p.2)
    exact congrArg (fun m : Activity (Unit × Execution) => m.bind done) (i.operation.execute_latch h c.config)
  | carry i => rfl
  | undefined w => rfl

theorem perform_latch (h : Flags.AlikeAt c.registers.a latch c.latch) :
    perform { c with latch, total } c.task c.starting = c.perform c.task c.starting := by
  have hcomplete (start : Word) (p : Resolution × Execution) (hp : p.2.registers.a = c.registers.a) :
      complete { c with latch, total } start p.1 p.2 = c.complete start p.1 p.2 := by
    rw [← hp] at h
    exact complete_latch h start p.1
  cases c.task with
  | instruction carried =>
    have hfetch := keeps_fetch (f := fun s => s.registers.a) c.config.extensions (fun _ _ _ _ _ => rfl) carried
      c.starting
    cases carried <;> exact hfetch.bind_congr (hcomplete _)
  | nmi => rfl
  | interrupt =>
    by_cases hm : c.registers.im = 0
    · have hfetch := keeps_fetchSupplied (f := fun s => s.registers.a) c.config.extensions (fun _ _ _ _ _ => rfl) .empty
        .hl c.interruptData ⟨c.accepted, .clear, false, some []⟩
      have hother := acceptInterrupt_eq { c with latch, total } hm
      refine hother.trans (Eq.trans ?_ (c.acceptInterrupt_eq hm).symm)
      exact congrArg (Activity.pause (.internal 2)) (hfetch.bind_congr (hcomplete _))
    · have hother := acceptInterrupt_vectored { c with latch, total } hm
      exact hother.trans (c.acceptInterrupt_vectored hm).symm
  | idle => rfl

theorem Alike.step {β : Type} [Bus β] {c' : Cpu} (h : c.Alike c') (bus : β) :
    (c'.step bus).result = (c.step bus).result ∧ (c'.step bus).bus = (c.step bus).bus ∧
      c'.history bus = c.history bus ∧ (c.step bus).cpu.Alike (c'.step bus).cpu := by
  obtain ⟨latch, total, rfl, hlatch⟩ := h
  have hperform : perform { c with latch, total } c.task c.starting = c.perform c.task c.starting :=
    perform_latch hlatch
  have hperformed : performed { c with latch, total } bus = c.performed bus :=
    congrArg (fun m : Activity (Ending × Execution) => m.run bus) hperform
  refine ⟨?_, ?_, ?_, (c.step bus).cpu.latch, total.later (c.performed bus).elapsed, ?_, fun f => rfl⟩
  · rw [result_step, hperformed, ← result_step]
  · rw [bus_step, hperformed, ← bus_step]
  · rw [history_eq, history_eq]
    exact congrArg (fun m : Activity (Ending × Execution) => m.history bus) hperform
  · rw [cpu_step, cpu_step, hperformed]
    rfl

theorem Alike.registers {c' : Cpu} (h : c.Alike c') : c'.registers = c.registers := by
  obtain ⟨latch, total, rfl, -⟩ := h
  rfl

end Cpu

def Machine.Alike {β : Type} (x y : Machine β) : Prop := ∃ cpu, y = { x with cpu } ∧ x.cpu.Alike cpu

namespace Machine.Alike

variable {β : Type} [Bus β] {x y : Machine β}

theorem after (h : x.Alike y) {d : Deed} (hd : ∀ f, d ≠ .write f) : (x.after d).Alike (y.after d) := by
  obtain ⟨cpu, rfl, hcpu⟩ := h
  cases d with
  | step =>
    obtain ⟨-, hbus, -, hafter⟩ := hcpu.step x.bus
    exact ⟨_, congrArg (Machine.mk (cpu.step x.bus).cpu) hbus, hafter⟩
  | request maskable =>
    obtain ⟨latch, total, rfl, hlatch⟩ := hcpu
    cases maskable <;> exact ⟨_, rfl, latch, total, rfl, hlatch⟩
  | withdraw | supply data =>
    obtain ⟨latch, total, rfl, hlatch⟩ := hcpu
    exact ⟨_, rfl, latch, total, rfl, hlatch⟩
  | reset =>
    obtain ⟨latch, total, rfl, hlatch⟩ := hcpu
    exact ⟨_, rfl, .clear, .zero, rfl, fun f => rfl⟩
  | write f => exact absurd rfl (hd f)

theorem stage (h : x.Alike y) {deeds : Nat → Deed} (hwrite : ∀ n f, deeds n ≠ .write f) (n : Nat) :
    (x.stage deeds n).Alike (y.stage deeds n) := by
  induction n with
  | zero => exact h
  | succ n ih => exact ih.after (hwrite n)

end Machine.Alike

structure Machine.StepsAlike {β : Type} [Bus β] (x y : Machine β) : Prop where
  result : (y.cpu.step y.bus).result = (x.cpu.step x.bus).result
  registers : (y.cpu.step y.bus).cpu.registers = (x.cpu.step x.bus).cpu.registers
  accesses : (y.cpu.history y.bus).filterMap Cycle.access? = (x.cpu.history x.bus).filterMap Cycle.access?

theorem Machine.Alike.stepsAlike {β : Type} [Bus β] {x y : Machine β} (h : x.Alike y) : x.StepsAlike y := by
  obtain ⟨cpu, rfl, hcpu⟩ := h
  obtain ⟨hresult, -, hhistory, hafter⟩ := hcpu.step x.bus
  exact ⟨hresult, hafter.registers, congrArg _ hhistory⟩

def Deed.IsOrdinary : Deed → Prop
  | .step | .request _ => True
  | .withdraw | .supply _ | .reset | .write _ => False

theorem Deed.IsOrdinary.ne_write {d : Deed} (h : d.IsOrdinary) (f : Registers → Registers) : d ≠ .write f := by
  rintro rfl
  exact h

namespace Cpu

/-- Restored from its registers the processor does the same, on any bus and in any course of steps and requests. -/
def Restores (c : Cpu) : Prop :=
  ∀ (β : Type) [Bus β] (bus : β) (deeds : Nat → Deed), (∀ n, (deeds n).IsOrdinary) → ∀ n, deeds n = .step →
    (({ cpu := c, bus } : Machine β).stage deeds n).StepsAlike (({ cpu := c.restored, bus } : Machine β).stage deeds n)

/-- Nothing outside the registers matters to the next step. -/
structure Neutral (c : Cpu) : Prop where
  carried : c.carried = none
  eiDelay : c.eiDelay = false
  y : c.latch.y = true → c.registers.a.getLsbD 5 = true
  x : c.latch.x = true → c.registers.a.getLsbD 3 = true

variable {c : Cpu}

theorem Neutral.alike (h : c.Neutral) (hi : c.interruptPending = false) (hn : c.nmiPending = false) :
    c.Alike c.restored := by
  have hrestored : c.restored = { c with latch := .clear, total := .zero } := by
    obtain ⟨hcarried, hdelay, -, -⟩ := h
    simp only [restored, new, hcarried, hdelay, hi, hn]
  exact ⟨.clear, .zero, hrestored, Flags.alikeAt_clear h.y h.x⟩

theorem Neutral.restores (h : c.Neutral) (hi : c.interruptPending = false) (hn : c.nmiPending = false) :
    c.Restores := by
  intro β _ bus deeds hdeeds n _
  have hstart : Machine.Alike { cpu := c, bus } { cpu := c.restored, bus } := ⟨_, rfl, h.alike hi hn⟩
  exact (hstart.stage (fun n f => (hdeeds n).ne_write f) n).stepsAlike

end Cpu

def FlatBus.filled (v : Byte) : FlatBus := { memory := .ofFn fun _ => v }

namespace Cpu

variable {c : Cpu} {v : Byte}

def base (c : Cpu) : Base :=
  match c.carried with
  | some i => .index i
  | none => .hl

theorem target_filled {i : Instruction} (hi : c.base.opening v = .instruction i) :
    c.target (FlatBus.filled v).memory = { base := c.base, page := .opening c.base, byte := v, opcode := [v] } := by
  have hget (a : Word) : (FlatBus.filled v).memory.get a = v := by rw [FlatBus.filled, Memory.get_ofFn]
  have he (a : Word) : (FlatBus.filled v).memory.get a ≠ 0xED := by
    intro h
    rw [hget] at h
    rw [c.base.opening_extended h] at hi
    contradiction
  have hb (a : Word) : (FlatBus.filled v).memory.get a ≠ 0xCB := by
    intro h
    rw [hget] at h
    rw [c.base.opening_bits h] at hi
    contradiction
  have hp (a : Word) : Index.ofPrefix? ((FlatBus.filled v).memory.get a) = none := by
    rw [hget]
    cases h : Index.ofPrefix? v with
    | none => rfl
    | some j =>
      rw [c.base.opening_prefixed (Index.ofPrefix?_eq_some.1 h)] at hi
      contradiction
  have hfollow : c.target (FlatBus.filled v).memory = followBase (FlatBus.filled v).memory c.base c.registers.pc := by
    rw [target, base]
    cases c.carried with
    | some i => rfl
    | none => exact follow_plain _ (hp _)
  rw [hfollow, followBase_opening _ _ (he _) (hb _), hget]

theorem slot_filled {i : Instruction} (hi : c.base.opening v = .instruction i) :
    (c.target (FlatBus.filled v).memory).page.slot (c.target (FlatBus.filled v).memory).byte = .instruction i := by
  rw [target_filled hi]
  simp only [Page.slot, hi]

theorem operation?_filled {i : Instruction} (ht : c.task = .instruction c.carried)
    (hi : c.base.opening v = .instruction i) (hx : i.operation.isExtension = false) :
    c.operation? (FlatBus.filled v) = some i.operation := by
  rw [operation?_instruction c _ ht, resolution_target c _ (slot_filled hi) (by simp [hx])]
  rfl

theorem registers_filled {i : Instruction} (ht : c.task = .instruction c.carried)
    (hi : c.base.opening v = .instruction i) (hx : i.operation.isExtension = false) :
    (c.step (FlatBus.filled v)).cpu.registers =
      (on (i.operation.execute c.config c.latch)
        { registers := { c.registers with pc := c.registers.pc + 1, r := refreshedBy 1 c.registers.r } }
        (FlatBus.filled v)).value.2.registers := by
  have hfetched : (c.target (FlatBus.filled v).memory).fetched c.registers =
      { c.registers with pc := c.registers.pc + 1, r := refreshedBy 1 c.registers.r } := by
    rw [target_filled hi]
    cases c.base <;> rfl
  rw [registers_step, value_instruction c _ ht (slot_filled hi) (by simp [hx]), hfetched]

/-- With nothing to accept and no prefix, a processor on a filled bus idles if it is halted, and else does what the byte
says. -/
theorem registers_quiet {i : Instruction} (hc : c.carried = none) (hn : c.nmiPending = false)
    (hm : (c.interruptPending && c.registers.iff1 && !c.eiDelay) = false) (hi : Base.hl.opening v = .instruction i)
    (hx : i.operation.isExtension = false) :
    (c.step (FlatBus.filled v)).cpu.registers =
      if c.registers.halted then c.registers.refreshed
      else (on (i.operation.execute c.config c.latch)
        { registers := { c.registers with pc := c.registers.pc + 1, r := refreshedBy 1 c.registers.r } }
        (FlatBus.filled v)).value.2.registers := by
  cases hh : c.registers.halted with
  | true =>
    have hidle : c.task = .idle := by simp [task, hc, hn, hm, hh]
    rw [registers_step, performed, hidle]
    rfl
  | false =>
    have htask : c.task = .instruction c.carried := task_eq_instruction.2 (.inr ⟨hn, hm, hh⟩)
    have hbase : c.base = .hl := by rw [base, hc]
    rw [← hbase] at hi
    exact registers_filled htask hi hx

namespace Restores

theorem registers_step (h : c.Restores) (bus : FlatBus) :
    (c.restored.step bus).cpu.registers = (c.step bus).cpu.registers :=
  (h FlatBus bus (fun _ => .step) (fun _ => trivial) 0 rfl).registers

/-- After a carried prefix an INC counts the index register up, and HL without it. -/
theorem carried (h : c.Restores) : c.carried = none := by
  cases hc : c.carried with
  | none => rfl
  | some i =>
    have htask : c.task = .instruction c.carried := task_eq_instruction.2 (.inl (by rw [hc]; rfl))
    have hbase : c.base = .index i := by rw [base, hc]
    have hinc : c.base.opening 0x23 = .instruction ⟨.arithmetic (.stepPair .up (.index i)), 10⟩ := by
      rw [hbase]
      cases i <;> rfl
    have hplain : Base.hl.opening 0x23 = .instruction ⟨.arithmetic (.stepPair .up .hl), 6⟩ := rfl
    have hown : (c.step (FlatBus.filled 0x23)).cpu.registers.index i = c.registers.index i + 1 := by
      rw [registers_filled htask hinc rfl]
      cases i <;> rfl
    have hother : (c.restored.step (FlatBus.filled 0x23)).cpu.registers.index i = c.registers.index i := by
      rw [registers_quiet rfl rfl rfl hplain rfl]
      split <;> cases i <;> rfl
    rw [h.registers_step, hown] at hother
    exact absurd hother (by bv_omega)

/-- After EI a request finds a HALT executed first, and an interrupt at once without the wait. -/
theorem eiDelay (h : c.Restores) (hs : c.Settled) (hn : c.nmiPending = false) : c.eiDelay = false := by
  cases hd : c.eiDelay with
  | false => rfl
  | true =>
    have hiff1 : c.registers.iff1 = true := hs.enabled hd
    let bus := FlatBus.filled 0x76
    let x := c.request true
    let y := c.restored.request true
    let deeds (n : Nat) : Deed := if n = 0 then .request true else .step
    have hdeeds (n : Nat) : (deeds n).IsOrdinary := by
      cases n <;> exact trivial
    have hsame : (y.step bus).cpu.registers = (x.step bus).cpu.registers := (h FlatBus bus deeds hdeeds 1 rfl).registers
    have hwaiting : (x.interruptPending && x.registers.iff1 && !x.eiDelay) = false := by
      show (true && c.registers.iff1 && !c.eiDelay) = false
      rw [hiff1, hd]
      rfl
    have haccepts : y.task = .interrupt := by
      refine task_eq_interrupt.2 ⟨rfl, rfl, ?_⟩
      show (true && c.registers.iff1 && !false) = true
      rw [hiff1]
      rfl
    have hplain : Base.hl.opening 0x76 = .instruction ⟨.control .halt, 4⟩ := rfl
    have hown : (x.step bus).cpu.registers.halted = true ∧ (x.step bus).cpu.registers.iff1 = true := by
      have hcarried : x.carried = none := h.carried
      rw [registers_quiet hcarried hn hwaiting hplain rfl]
      split
      · exact ⟨‹_›, hiff1⟩
      · exact ⟨rfl, hiff1⟩
    -- an interrupt ends halted only through HALT, and with interrupts enabled only through EI
    rw [← hsame] at hown
    have hhalt := operation?_of_halted bus haccepts hown.1
    have hne : y.operation? bus ≠ some (.control .enableInterrupts) := by
      rw [hhalt]
      nofun
    exact absurd haccepts ((y.enables_step_of_ne bus hne).2 (.inl hown.2)).1

/-- An SCF shows the latched flags, unless the processor is halted and has none. -/
theorem latch (h : c.Restores) (hs : c.Settled) (hi : c.interruptPending = false) (hn : c.nmiPending = false) :
    (c.latch.y = true → c.registers.a.getLsbD 5 = true) ∧ (c.latch.x = true → c.registers.a.getLsbD 3 = true) := by
  cases hh : c.registers.halted with
  | true =>
    rw [(hs.halted hh).2]
    exact ⟨nofun, nofun⟩
  | false =>
    have hplain : Base.hl.opening 0x37 = .instruction ⟨.arithmetic .setCarry, 4⟩ := rfl
    have hrunning : ¬ c.registers.halted = true := by
      rw [hh]
      exact Bool.false_ne_true
    have hrunning' : ¬ c.restored.registers.halted = true := hrunning
    have hsame := h.registers_step (.filled 0x37)
    rw [registers_quiet h.carried hn (by rw [hi]; rfl) hplain rfl, registers_quiet rfl rfl rfl hplain rfl,
      if_neg hrunning, if_neg hrunning'] at hsame
    have hflags : carrySet c.registers.f .clear c.registers.a = carrySet c.registers.f c.latch c.registers.a :=
      congrArg (fun k : Registers => k.f) hsame
    exact ⟨(Flags.seen_iff ..).1 (congrArg Flags.y hflags), (Flags.seen_iff ..).1 (congrArg Flags.x hflags)⟩

end Restores

end Cpu

namespace Machine

/-- A processor that a course from power-on has led to, with no request pending, behaves alike when it is restored from
its registers exactly if it carries no prefix, does not wait after EI and shows X and Y of the latched flags in the
accumulator. -/
theorem restores_iff {β : Type} [Bus β] (config : Config) (bus : β) (deeds : Nat → Deed)
    (hwrite : ∀ n f, deeds n ≠ .write f) (n : Nat) :
    let c := (({ cpu := .new config, bus } : Machine β).stage deeds n).cpu
    c.interruptPending = false → c.nmiPending = false → (c.Restores ↔ c.Neutral) := by
  intro c hi hn
  have hs : c.Settled := settled_stage hwrite n
  constructor
  · intro h
    obtain ⟨hy, hx⟩ := h.latch hs hi hn
    exact ⟨h.carried, h.eiDelay hs hn, hy, hx⟩
  · intro h
    exact h.restores hi hn

/-- After LD A,28 and CP 28 the latched flags are not clear, but A shows them. -/
theorem restores_compare :
    let m : Machine FlatBus :=
      { cpu := .new .extended
        bus := { memory := (((Memory.zero.set 0 0x3E).set 1 0x28).set 2 0xFE).set 3 0x28 } }
    let c := (m.stage (fun _ => .step) 2).cpu
    c.registers.pc = 4 ∧ c.latch.x = true ∧ c.latch.y = true ∧ c.Restores := by
  intro m c
  have hlatch : c.registers.pc = 4 ∧ c.latch.x = true ∧ c.latch.y = true := by decide +kernel
  obtain ⟨hi, hn, hcarried, hdelay, ha⟩ : c.interruptPending = false ∧ c.nmiPending = false ∧ c.carried = none ∧
      c.eiDelay = false ∧ c.registers.a = 0x28 := by decide +kernel
  have hneutral : c.Neutral := ⟨hcarried, hdelay, fun _ => by rw [ha]; rfl, fun _ => by rw [ha]; rfl⟩
  have hiff : c.Restores ↔ c.Neutral := restores_iff .extended m.bus (fun _ => .step) (fun _ _ => nofun) 2 hi hn
  exact ⟨hlatch.1, hlatch.2.1, hlatch.2.2, hiff.2 hneutral⟩

theorem not_restores_of_enablesAt {β : Type} [Bus β] {config : Config} {bus : β} {deeds : Nat → Deed}
    (hwrite : ∀ n f, deeds n ≠ .write f) {n : Nat} (he : EnablesAt { cpu := .new config, bus } deeds n)
    (hn : (stage { cpu := .new config, bus } deeds (n + 1)).cpu.nmiPending = false) :
    ¬ (stage { cpu := .new config, bus } deeds (n + 1)).cpu.Restores := by
  intro h
  have hdelay := eiDelay_of_enablesAt (Nat.lt_succ_self n) he fun k hk hkn => by omega
  rw [h.eiDelay (settled_stage hwrite (n + 1)) hn] at hdelay
  contradiction

/-- Not all processors behave alike when restored: one does not that has executed EI. -/
theorem not_restores_enableInterrupts :
    ¬ ∀ (config : Config) (bus : FlatBus) (deeds : Nat → Deed), (∀ n, (deeds n).IsOrdinary) → ∀ n,
      let c := (({ cpu := .new config, bus } : Machine FlatBus).stage deeds n).cpu
      c.interruptPending = false → c.nmiPending = false → c.Restores := by
  intro h
  let deeds (_ : Nat) : Deed := .step
  have hopening : (Cpu.new .extended).base.opening 0xFB = .instruction ⟨.control .enableInterrupts, 4⟩ := rfl
  have he : EnablesAt { cpu := .new .extended, bus := FlatBus.filled 0xFB } deeds 0 :=
    ⟨rfl, Cpu.operation?_filled rfl hopening rfl⟩
  have hi : (stage { cpu := .new .extended, bus := FlatBus.filled 0xFB } deeds 1).cpu.interruptPending = false :=
    Cpu.interruptPending_step ..
  have hn : (stage { cpu := .new .extended, bus := FlatBus.filled 0xFB } deeds 1).cpu.nmiPending = false :=
    Cpu.nmiPending_step ..
  have hdeeds (n : Nat) : (deeds n).IsOrdinary := trivial
  have hrestores := h .extended (.filled 0xFB) deeds hdeeds 1 hi hn
  exact not_restores_of_enablesAt (fun n f => (hdeeds n).ne_write f) he hn hrestores

end Machine

end Z80Machine
