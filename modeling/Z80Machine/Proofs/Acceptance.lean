import Z80Machine.Machine
import Z80Machine.Proofs.Response

/-!
The acceptance of interrupts in the course of a machine. What is pending follows from the deeds: a request begins it,
and its acceptance, a reset or, if it is maskable, its withdrawal ends it. A flip-flop that is set goes back to an EI
since the last interrupt and the last reset, and the delay to an EI in the last step; with both of them an acceptance
has an EI before it and a step in between.
-/
namespace Z80Machine

def Cpu.pending (c : Cpu) (maskable : Bool) : Bool := if maskable then c.interruptPending else c.nmiPending

/-- What ends a request other than its acceptance. -/
def Deed.Drops (maskable : Bool) (d : Deed) : Prop := d = .reset ∨ maskable = true ∧ d = .withdraw

namespace Cpu

theorem pending_of_task {c : Cpu} {maskable : Bool} (h : c.task = .answering maskable) : c.pending maskable = true := by
  cases maskable with
  | false => exact (task_eq_nmi.1 h).2
  | true =>
    obtain ⟨-, -, hpending⟩ := task_eq_interrupt.1 h
    simp only [Bool.and_eq_true] at hpending
    exact hpending.1.1

theorem pending_step {β : Type} [Bus β] (c : Cpu) (bus : β) (maskable : Bool) :
    (c.step bus).cpu.pending maskable = (c.pending maskable && c.task != .answering maskable) := by
  cases maskable with
  | false => exact c.nmiPending_step bus
  | true => exact c.interruptPending_step bus

end Cpu

namespace Machine

section Requests

variable {β : Type} [Bus β] (m : Machine β)

theorem pending_after (d : Deed) (maskable : Bool) :
    (m.after d).cpu.pending maskable = match d with
      | .step => m.cpu.pending maskable && m.cpu.task != .answering maskable
      | .request asked => m.cpu.pending maskable || asked == maskable
      | .withdraw => m.cpu.pending maskable && !maskable
      | .reset => false
      | .supply _ | .write _ => m.cpu.pending maskable := by
  cases d with
  | step => exact m.cpu.pending_step m.bus maskable
  | request asked => cases asked <;> cases maskable <;> simp [after, Cpu.request, Cpu.pending]
  | withdraw => cases maskable <;> simp [after, Cpu.withdraw, Cpu.pending]
  | reset => cases maskable <;> rfl
  | supply data => cases maskable <;> rfl
  | write f => cases maskable <;> rfl

variable (deeds : Nat → Deed)

/-- Deed `n` of a course is a step that accepts a request. -/
def Accepts (maskable : Bool) (n : Nat) : Prop :=
  deeds n = .step ∧ (m.stage deeds n).cpu.task = .answering maskable

variable {m deeds} {maskable : Bool}

theorem accepts_or_drops {n : Nat} (h : (m.stage deeds n).cpu.pending maskable = true)
    (hn : (m.stage deeds (n + 1)).cpu.pending maskable = false) :
    m.Accepts deeds maskable n ∨ (deeds n).Drops maskable := by
  rw [stage_succ, pending_after, h] at hn
  cases hd : deeds n with
  | step =>
    simp only [hd, Bool.true_and, bne_eq_false_iff_eq] at hn
    exact .inl ⟨hd, hn⟩
  | withdraw =>
    simp only [hd, Bool.true_and, Bool.not_eq_eq_eq_not, Bool.not_false] at hn
    exact .inr (.inr ⟨hn, rfl⟩)
  | reset => exact .inr (.inl rfl)
  | request asked | supply data | write f => simp [hd] at hn

theorem pending_of_ended {n : Nat} (h : m.Accepts deeds maskable n ∨ (deeds n).Drops maskable) :
    (m.stage deeds (n + 1)).cpu.pending maskable = false := by
  rw [stage_succ, pending_after]
  obtain ⟨hd, ht⟩ | hd | ⟨rfl, hd⟩ := h
  · simp [hd, ht]
  · rw [hd]
  · simp [hd]

theorem request_of_pending_succ {n : Nat} (h : (m.stage deeds n).cpu.pending maskable = false)
    (hn : (m.stage deeds (n + 1)).cpu.pending maskable = true) : deeds n = .request maskable := by
  rw [stage_succ, pending_after, h] at hn
  cases hd : deeds n with
  | request asked => simpa [hd] using hn
  | step | withdraw | reset | supply data | write f => simp [hd] at hn

theorem pending_of_request {i j : Nat} (hij : i < j) (hi : deeds i = .request maskable)
    (hlast : ∀ k, i < k → k < j → ¬ m.Accepts deeds maskable k ∧ ¬ (deeds k).Drops maskable) :
    (m.stage deeds j).cpu.pending maskable = true := by
  induction j with
  | zero => omega
  | succ j ih =>
    by_cases hj : i = j
    · subst hj
      rw [stage_succ, pending_after, hi]
      simp
    · have hpending := ih (by omega) fun k hk hkj => hlast k hk (by omega)
      obtain ⟨haccept, hdrop⟩ := hlast j (by omega) (by omega)
      cases hn : (m.stage deeds (j + 1)).cpu.pending maskable with
      | true => rfl
      | false => exact absurd (accepts_or_drops hpending hn) (not_or.2 ⟨haccept, hdrop⟩)

/-- What is pending goes back to a request that has not been accepted or dropped since. -/
theorem request_of_pending (hm : m.cpu.pending maskable = false) {n : Nat}
    (hn : (m.stage deeds n).cpu.pending maskable = true) :
    ∃ k < n, deeds k = .request maskable ∧
      ∀ i, k < i → i < n → ¬ m.Accepts deeds maskable i ∧ ¬ (deeds i).Drops maskable := by
  induction n with
  | zero => simp [stage, hm] at hn
  | succ n ih =>
    by_cases hrequest : deeds n = .request maskable
    · exact ⟨n, by omega, hrequest, fun i _ _ => by omega⟩
    · have hpending : (m.stage deeds n).cpu.pending maskable = true := by
        cases h : (m.stage deeds n).cpu.pending maskable with
        | true => rfl
        | false => exact absurd (request_of_pending_succ h hn) hrequest
      obtain ⟨k, hk, hdeed, hsince⟩ := ih hpending
      refine ⟨k, by omega, hdeed, fun i hi hin => ?_⟩
      by_cases hlast : i = n
      · subst hlast
        have hended : ¬ (m.Accepts deeds maskable i ∨ (deeds i).Drops maskable) := fun h => by
          rw [pending_of_ended h] at hn
          contradiction
        exact not_or.1 hended
      · exact hsince i hi (by omega)

end Requests

section Enabling

variable {β : Type} [Bus β] (m : Machine β) (deeds : Nat → Deed)

/-- Deed `n` of a course is a step that executes EI. -/
def EnablesAt (n : Nat) : Prop :=
  deeds n = .step ∧ (m.stage deeds n).cpu.operation? (m.stage deeds n).bus = some (.control .enableInterrupts)

def Enabled (n : Nat) : Prop :=
  (m.stage deeds n).cpu.registers.iff1 = true ∨ (m.stage deeds n).cpu.registers.iff2 = true

variable {m deeds}

theorem enabled_of_step {n : Nat} (hd : deeds n = .step) (he : ¬ m.EnablesAt deeds n)
    (h : m.Enabled deeds (n + 1)) : m.Enabled deeds n ∧ ¬ m.Accepts deeds true n := by
  have hne : (m.stage deeds n).cpu.operation? (m.stage deeds n).bus ≠ some (.control .enableInterrupts) :=
    fun ho => he ⟨hd, ho⟩
  rw [Enabled, stage_succ, hd] at h
  obtain ⟨htask, hset⟩ := (Cpu.enables_step_of_ne _ _ hne).2 h
  exact ⟨hset, fun haccept => htask haccept.2⟩

theorem enabled_of_not_step (hwrite : ∀ n f, deeds n ≠ .write f) {n : Nat} (hd : deeds n ≠ .step)
    (h : m.Enabled deeds (n + 1)) : m.Enabled deeds n ∧ deeds n ≠ .reset := by
  rw [Enabled, stage_succ] at h
  cases hdeed : deeds n with
  | step => exact absurd hdeed hd
  | request asked =>
    rw [hdeed] at h
    cases asked <;> exact ⟨h, nofun⟩
  | withdraw | supply data =>
    rw [hdeed] at h
    exact ⟨h, nofun⟩
  | reset =>
    rw [hdeed] at h
    exact absurd h (by simp [after, Cpu.reset, Registers.powerOn])
  | write f => exact absurd hdeed (hwrite n f)

/-- A flip-flop that is set goes back to an EI after the last reset and at or after the last interrupt. -/
theorem enablesAt_of_enabled (hm : m.cpu.registers.iff1 = false ∧ m.cpu.registers.iff2 = false)
    (hwrite : ∀ n f, deeds n ≠ .write f) {n : Nat} (h : m.Enabled deeds n) :
    ∃ i < n, m.EnablesAt deeds i ∧ (∀ r < n, deeds r = .reset → r < i) ∧
      ∀ p < n, m.Accepts deeds true p → p ≤ i := by
  induction n with
  | zero => simp [Enabled, stage, hm] at h
  | succ n ih =>
    by_cases he : m.EnablesAt deeds n
    · refine ⟨n, by omega, he, fun r hr hreset => ?_, fun p hp _ => by omega⟩
      have hne : r ≠ n := by
        rintro rfl
        rw [he.1] at hreset
        contradiction
      omega
    · have hbefore : m.Enabled deeds n ∧ deeds n ≠ .reset ∧ ¬ m.Accepts deeds true n := by
        by_cases hd : deeds n = .step
        · obtain ⟨hset, haccept⟩ := enabled_of_step hd he h
          exact ⟨hset, by rw [hd]; nofun, haccept⟩
        · obtain ⟨hset, hreset⟩ := enabled_of_not_step hwrite hd h
          exact ⟨hset, hreset, fun haccept => hd haccept.1⟩
      obtain ⟨hset, hreset, haccept⟩ := hbefore
      obtain ⟨i, hi, hei, hresets, haccepts⟩ := ih hset
      refine ⟨i, by omega, hei, fun r hr hdeed => ?_, fun p hp hpa => ?_⟩
      · have hne : r ≠ n := by
          rintro rfl
          exact hreset hdeed
        exact hresets r (by omega) hdeed
      · have hne : p ≠ n := by
          rintro rfl
          exact haccept hpa
        exact haccepts p (by omega) hpa

theorem enables_of_enablesAt {n : Nat} (he : m.EnablesAt deeds n) :
    (m.stage deeds (n + 1)).cpu.enables = ⟨true, true, true⟩ := by
  rw [stage_succ, he.1]
  exact Cpu.enables_step_enableInterrupts _ _ he.2

theorem eiDelay_of_enablesAt {i j : Nat} (hij : i < j) (he : m.EnablesAt deeds i)
    (hsince : ∀ k, i < k → k < j → deeds k ≠ .step ∧ deeds k ≠ .reset) :
    (m.stage deeds j).cpu.eiDelay = true := by
  induction j with
  | zero => omega
  | succ j ih =>
    by_cases hj : i = j
    · subst hj
      exact congrArg Enables.delay (enables_of_enablesAt he)
    · have hdelay := ih (by omega) fun k hk hkj => hsince k hk (by omega)
      obtain ⟨hstep, hreset⟩ := hsince j (by omega) (by omega)
      rw [stage_succ]
      cases hd : deeds j with
      | step => exact absurd hd hstep
      | reset => exact absurd hd hreset
      | request asked => cases asked <;> exact hdelay
      | withdraw | supply data | write f => exact hdelay

theorem registers_of_accepts {n : Nat} (h : m.Accepts deeds true n) :
    (m.stage deeds n).cpu.carried = none ∧ (m.stage deeds n).cpu.nmiPending = false ∧
      (m.stage deeds n).cpu.registers.iff1 = true ∧ (m.stage deeds n).cpu.eiDelay = false := by
  obtain ⟨hcarried, hnmi, hpending⟩ := Cpu.task_eq_interrupt.1 h.2
  simp only [Bool.and_eq_true, Bool.not_eq_true'] at hpending
  exact ⟨hcarried, hnmi, hpending.1.2, hpending.2⟩

/-- An interrupt that executes EI takes it from the device, in mode 0. -/
theorem im_of_accepts_enablesAt {n : Nat} (he : m.EnablesAt deeds n) (h : m.Accepts deeds true n) :
    (m.stage deeds n).cpu.registers.im = 0 := by
  by_cases hm : (m.stage deeds n).cpu.registers.im = 0
  · exact hm
  · have htask : (m.stage deeds n).cpu.task = .interrupt := h.2
    have hnone : (m.stage deeds n).cpu.operation? (m.stage deeds n).bus = none := by
      rw [Cpu.operation?, Cpu.resolution?, htask]
      simp only [hm, ↓reduceIte]
      rfl
    rw [he.2] at hnone
    contradiction

end Enabling

section Course

variable {β : Type} [Bus β] {config : Config} {bus : β} {deeds : Nat → Deed}

/-- An EI before an accepted interrupt has a further step after it. -/
theorem step_between (hwrite : ∀ n f, deeds n ≠ .write f) {i j : Nat} (hij : i < j)
    (he : EnablesAt { cpu := .new config, bus } deeds i) (h : Accepts { cpu := .new config, bus } deeds true j) :
    ∃ k, i < k ∧ k < j ∧ deeds k = .step := by
  obtain ⟨-, -, hiff1, hdelay⟩ := registers_of_accepts h
  apply Classical.byContradiction
  intro hnone
  -- a reset after the EI would call for another EI, and so for another step
  have hsince : ∀ k, i < k → k < j → deeds k ≠ .step ∧ deeds k ≠ .reset := by
    intro k hk hkj
    constructor
    · intro hd
      exact hnone ⟨k, hk, hkj, hd⟩
    · intro hd
      obtain ⟨l, hl, hel, hresets, -⟩ := enablesAt_of_enabled ⟨rfl, rfl⟩ hwrite (Or.inl hiff1)
      have hkl := hresets k hkj hd
      exact hnone ⟨l, by omega, hl, hel.1⟩
  rw [eiDelay_of_enablesAt hij he hsince] at hdelay
  contradiction

/-- Interrupts are accepted safely in every course from power-on in which registers are not written from outside. An
acceptance responds to the request and ends it, a step that accepts nothing is the one that would be made with nothing
pending, and EI sets both flip-flops and the delay. A step after a prefix accepts nothing and any other step accepts an
NMI that is pending. An interrupt is accepted only if it is enabled, no NMI is pending and the step before was no EI. A
request is pending until it is accepted or dropped, and each acceptance answers a request that was not accepted or
dropped since. An interrupt is preceded by an EI since the last reset and since the last interrupt, or within that one
if a device supplied it in mode 0, and a further step lies between. -/
theorem acceptance_safe (config : Config) (bus : β) (deeds : Nat → Deed) (hwrite : ∀ n f, deeds n ≠ .write f) :
    let m : Machine β := { cpu := .new config, bus }
    let c n := (m.stage deeds n).cpu
    let b n := (m.stage deeds n).bus
    (∀ n maskable, m.Accepts deeds maskable n →
      (c n).Responds (b n) maskable ∧ (c (n + 1)).pending maskable = false) ∧
    (∀ n, deeds n = .step → (∀ maskable, ¬ m.Accepts deeds maskable n) →
      let s := (c n).unasked.step (b n)
      (c n).step (b n) =
        { s with cpu := { s.cpu with
            interruptPending := (c n).pending true, nmiPending := (c n).pending false } }) ∧
    (∀ n, m.EnablesAt deeds n → (c (n + 1)).enables = ⟨true, true, true⟩) ∧
    (∀ n maskable, (c n).carried.isSome → ¬ m.Accepts deeds maskable n) ∧
    (∀ n, deeds n = .step → (c n).carried = none → (c n).nmiPending = true → m.Accepts deeds false n) ∧
    (∀ n, m.Accepts deeds true n →
      (c n).registers.iff1 = true ∧ (c n).nmiPending = false ∧
        ∀ i < n, m.EnablesAt deeds i → ∃ k, i < k ∧ k < n ∧ deeds k = .step) ∧
    (∀ n maskable, (c n).pending maskable = true → (c (n + 1)).pending maskable = false →
      m.Accepts deeds maskable n ∨ (deeds n).Drops maskable) ∧
    (∀ i j maskable, i < j → deeds i = .request maskable →
      (∀ k, i < k → k < j → ¬ m.Accepts deeds maskable k ∧ ¬ (deeds k).Drops maskable) →
      (c j).pending maskable = true) ∧
    (∀ n maskable, m.Accepts deeds maskable n →
      ∃ k < n, deeds k = .request maskable ∧
        ∀ i, k < i → i < n → ¬ m.Accepts deeds maskable i ∧ ¬ (deeds i).Drops maskable) ∧
    ∀ n, m.Accepts deeds true n →
      ∃ i < n, m.EnablesAt deeds i ∧ (∀ r < n, deeds r = .reset → r < i) ∧
        (∀ p < n, m.Accepts deeds true p → p ≤ i) ∧ (m.Accepts deeds true i → (c i).registers.im = 0) ∧
        ∃ k, i < k ∧ k < n ∧ deeds k = .step := by
  intro m c b
  refine ⟨?_, ?_, ?_, ?_, ?_, ?_, ?_, ?_, ?_, ?_⟩
  · intro n maskable haccept
    exact ⟨Cpu.responds haccept.2, pending_of_ended (.inl haccept)⟩
  · intro n hd hnone
    exact Cpu.step_unasked fun maskable htask => hnone maskable ⟨hd, htask⟩
  · intro n he
    exact enables_of_enablesAt he
  · intro n maskable hcarried haccept
    have htask := haccept.2
    obtain ⟨i, hi⟩ := Option.isSome_iff_exists.1 hcarried
    cases maskable <;> simp [c, Cpu.task, hi, Task.answering] at htask
  · intro n hd hcarried hnmi
    exact ⟨hd, Cpu.task_eq_nmi.2 ⟨hcarried, hnmi⟩⟩
  · intro n haccept
    obtain ⟨-, hnmi, hiff1, -⟩ := registers_of_accepts haccept
    exact ⟨hiff1, hnmi, fun i hi he => step_between hwrite hi he haccept⟩
  · intro n maskable h hn
    exact accepts_or_drops h hn
  · intro i j maskable hij hi hlast
    exact pending_of_request hij hi hlast
  · intro n maskable haccept
    have hstart : m.cpu.pending maskable = false := by cases maskable <;> rfl
    exact request_of_pending hstart (Cpu.pending_of_task haccept.2)
  · intro n haccept
    obtain ⟨-, -, hiff1, -⟩ := registers_of_accepts haccept
    obtain ⟨i, hi, he, hresets, haccepts⟩ := enablesAt_of_enabled ⟨rfl, rfl⟩ hwrite (Or.inl hiff1)
    exact ⟨i, hi, he, hresets, haccepts, im_of_accepts_enablesAt he, step_between hwrite hi he haccept⟩

theorem routine_of_responds {x : Machine FlatBus} (h : x.cpu.Responds x.bus true) (hm : x.cpu.registers.im = 1) :
    (x.after .step).cpu.registers.pc = 0x38 ∧
      (x.after .step).bus.memory.get (x.cpu.registers.sp - 2) = x.cpu.registers.pc.low := by
  have hcalls := h.calls_fixed hm
  constructor
  · exact congrArg (fun c : Cpu => c.registers.pc) hcalls.cpu
  · refine (congrArg (fun bus : FlatBus => bus.memory.get (x.cpu.registers.sp - 2)) hcalls.bus).trans ?_
    exact Memory.get_set_self ..

/-- An interrupt is asked for before IM 1, EI and NOP run, and accepted after them. The routine at 0038 is to return to
0004. -/
theorem acceptance_safe_request :
    let bus : FlatBus := { memory := ((Memory.zero.set 0 0xED).set 1 0x56).set 2 0xFB }
    let m : Machine FlatBus := { cpu := .new .extended, bus }
    let deeds : Nat → Deed := fun n => if n = 0 then .request true else .step
    m.Accepts deeds true 4 ∧ (m.stage deeds 5).cpu.registers.pc = 0x38 ∧
      (m.stage deeds 5).bus.memory.get 0xFFFD = 0x04 ∧
      ∃ i < 4, m.EnablesAt deeds i ∧ ∃ k, i < k ∧ k < 4 ∧ deeds k = .step := by
  intro bus m deeds
  have haccept : m.Accepts deeds true 4 := ⟨rfl, by decide +kernel⟩
  have hwrite : ∀ n f, deeds n ≠ .write f := by
    intro n f
    by_cases hn : n = 0 <;> simp [deeds, hn]
  obtain ⟨hresponse, -, -, -, -, -, -, -, -, henabled⟩ := acceptance_safe .extended bus deeds hwrite
  obtain ⟨hmode, hsp, hpc⟩ : (m.stage deeds 4).cpu.registers.im = 1 ∧
      (m.stage deeds 4).cpu.registers.sp = 0xFFFF ∧ (m.stage deeds 4).cpu.registers.pc = 4 := by decide +kernel
  have hresponds {n : Nat} (h : m.Accepts deeds true n) :
      (m.stage deeds n).cpu.Responds (m.stage deeds n).bus true := (hresponse n true h).1
  obtain ⟨hroutine, hreturn⟩ := routine_of_responds (hresponds haccept) hmode
  have hbottom : (0xFFFF : Word) - 2 = 0xFFFD := rfl
  rw [hsp, hpc, hbottom] at hreturn
  obtain ⟨i, hi, he, -, -, -, hbetween⟩ := henabled 4 haccept
  have hlast : m.stage deeds 5 = (m.stage deeds 4).after .step := m.stage_succ deeds 4
  rw [hlast]
  exact ⟨haccept, hroutine, hreturn, i, hi, he, hbetween⟩

end Course

end Machine

end Z80Machine
