import Z80Machine.Machine
import Z80Machine.Proofs.Step

/-!
Conservation of time. A metered bus keeps a list of the ticks that it is told and changes nothing else, so a step
behaves on it as on the bus inside. The ticks of a step are the times of its cycles, which sum to what the step adds
to the total. Over a course, sums add up as long as no reset comes between.
-/
namespace Z80Machine

/-- A bus together with the ticks that it has been told, in order. -/
structure Metered (β : Type) where
  bus : β
  ticks : List Nat := []

namespace Metered

variable {β : Type} [Bus β]

instance : Bus (Metered β) where
  read b a := let (v, bus) := Bus.read b.bus a; (v, { b with bus })
  write b a v := { b with bus := Bus.write b.bus a v }
  input b p := let (v, bus) := Bus.input b.bus p; (v, { b with bus })
  output b p v := { b with bus := Bus.output b.bus p v }
  tick b n := { bus := Bus.tick b.bus n, ticks := b.ticks ++ [n] }

@[simp] theorem receive_fst (b : Metered β) (c : Receive) : (c.perform b).1 = (c.perform b.bus).1 := by
  cases c <;> rfl

@[simp] theorem receive_snd (b : Metered β) (c : Receive) :
    (c.perform b).2 = { b with bus := (c.perform b.bus).2 } := by
  cases c <;> rfl

@[simp] theorem send (b : Metered β) (c : Send) : c.perform b = { b with bus := c.perform b.bus } := by
  cases c <;> rfl

@[simp] theorem tick (b : Metered β) (n : Nat) :
    Bus.tick b n = { bus := Bus.tick b.bus n, ticks := b.ticks ++ [n] } := rfl

end Metered

/-- The T-states of ticks one after the other. -/
def Ticks.sum : List Nat → Nat
  | [] => 0
  | n :: ns => n + sum ns

theorem Ticks.sum_append (ms ns : List Nat) : sum (ms ++ ns) = sum ms + sum ns := by
  induction ms with
  | nil => exact (Nat.zero_add _).symm
  | cons m ms ih => simp only [List.cons_append, sum, ih, Nat.add_assoc]

theorem Cycle.duration_eq_sum (cs : List Cycle) : duration cs = Ticks.sum (cs.map time) := by
  induction cs with
  | nil => rfl
  | cons c cs ih => simp only [duration, ih, List.map_cons, Ticks.sum]

section Steps

variable {β : Type} [Bus β]

/-- Metering changes nothing in a run and keeps the times of its cycles. -/
theorem Activity.run_metered {α : Type} (m : Activity α) (b : Metered β) :
    m.run b =
      ⟨(m.run b.bus).value, ⟨(m.run b.bus).bus, b.ticks ++ (m.history b.bus).map Cycle.time⟩,
        (m.run b.bus).elapsed⟩ := by
  induction m generalizing b with
  | done a => simp
  | receive c next ih => simp [ih, Outcome.after, Cycle.time]
  | send c next ih => simp [ih, Outcome.after, Cycle.time]
  | pause c next ih => simp [ih, Outcome.after, Cycle.time]

namespace Cpu

/-- The ticks that a step tells its bus. -/
def ticks (c : Cpu) (bus : β) : List Nat := (c.step ({ bus } : Metered β)).bus.ticks

theorem ticks_eq (c : Cpu) (bus : β) : c.ticks bus = (c.history bus).map Cycle.time := by
  rw [ticks, step, Activity.run_metered]
  rfl

theorem sum_ticks (c : Cpu) (bus : β) : Ticks.sum (c.ticks bus) = (c.performed bus).elapsed := by
  rw [ticks_eq, ← Cycle.duration_eq_sum, elapsed_performed]

/-- A step does on a metered bus what it does on the bus inside. -/
theorem step_metered (c : Cpu) (b : Metered β) :
    c.step b =
      { result := (c.step b.bus).result
        cpu := (c.step b.bus).cpu
        bus := { bus := (c.step b.bus).bus, ticks := b.ticks ++ c.ticks b.bus } } := by
  rw [ticks_eq, step, Activity.run_metered]
  rfl

end Cpu

end Steps

namespace Machine

variable {β : Type}

def metered (m : Machine β) : Machine (Metered β) := { cpu := m.cpu, bus := { bus := m.bus } }

def bare (x : Machine (Metered β)) : Machine β := { cpu := x.cpu, bus := x.bus.bus }

/-- From `x` to `y` the total has grown by the ticks that the bus has been told. -/
def Charged (x y : Machine (Metered β)) : Prop :=
  ∃ ticks, y.bus.ticks = x.bus.ticks ++ ticks ∧ y.cpu.total = x.cpu.total.later (Ticks.sum ticks)

theorem Charged.refl (x : Machine (Metered β)) : x.Charged x :=
  ⟨[], (List.append_nil _).symm, (Ticks.later_zero _).symm⟩

theorem Charged.trans {x y z : Machine (Metered β)} (h : x.Charged y) (h' : y.Charged z) : x.Charged z := by
  obtain ⟨ts, hbus, htotal⟩ := h
  obtain ⟨us, hbus', htotal'⟩ := h'
  refine ⟨ts ++ us, ?_, ?_⟩
  · rw [hbus', hbus, List.append_assoc]
  · rw [htotal', htotal, Ticks.later_later, Ticks.sum_append]

variable [Bus β]

theorem bare_after (x : Machine (Metered β)) (d : Deed) : (x.after d).bare = x.bare.after d := by
  cases d with
  | step =>
    simp only [after, bare, Cpu.step_metered]
  | _ => rfl

/-- A metered machine goes through the same course. -/
theorem bare_stage (m : Machine β) (deeds : Nat → Deed) (n : Nat) :
    (m.metered.stage deeds n).bare = m.stage deeds n := by
  induction n with
  | zero => rfl
  | succ n ih => rw [stage_succ, stage_succ, bare_after, ih]

theorem charged_after (x : Machine (Metered β)) {d : Deed} (h : d ≠ .reset) : x.Charged (x.after d) := by
  cases d with
  | reset => exact absurd rfl h
  | step =>
    refine ⟨x.cpu.ticks x.bus.bus, ?_, ?_⟩
    · simp only [after, Cpu.step_metered]
    · simp only [after, Cpu.step_metered, Cpu.sum_ticks, Cpu.cpu_step]
  | request asked => cases asked <;> exact .refl x
  | withdraw | supply data | write f => exact .refl x

theorem charged_stage (x : Machine (Metered β)) {deeds : Nat → Deed} {i j : Nat} (hij : i ≤ j)
    (hresets : ∀ k, i ≤ k → k < j → deeds k ≠ .reset) : (x.stage deeds i).Charged (x.stage deeds j) := by
  induction j with
  | zero =>
    obtain rfl : i = 0 := by omega
    exact .refl _
  | succ j ih =>
    by_cases hj : i = j + 1
    · subst hj
      exact .refl _
    · have hbefore := ih (by omega) fun k hk hkj => hresets k hk (by omega)
      exact hbefore.trans (charged_after _ (hresets j (by omega) (by omega)))

/-- The ticks of a step, told to a bus of any kind, sum to what the step adds to the total, whether it fails or not,
to its result if it does not, and on the plain bus to what the clock gains. Over a course, the total grows by the ticks
as long as there is no reset, and after a reset it is the ticks since. -/
theorem total_conserved (m : Machine β) (plain : FlatBus) (deeds : Nat → Deed) :
    (m.cpu.step m.bus).cpu.total = m.cpu.total.later (Ticks.sum (m.cpu.ticks m.bus)) ∧
      (∀ T, (m.cpu.step m.bus).result = .ok T → T = BitVec.ofNat 32 (Ticks.sum (m.cpu.ticks m.bus))) ∧
      (m.cpu.step plain).bus.clock = plain.clock + Ticks.sum (m.cpu.ticks plain) ∧
      (∀ n, (m.metered.stage deeds n).bare = m.stage deeds n) ∧
      (∀ i j, i ≤ j → (∀ k, i ≤ k → k < j → deeds k ≠ .reset) →
        ∃ ticks, (m.metered.stage deeds j).bus.ticks = (m.metered.stage deeds i).bus.ticks ++ ticks ∧
          (m.stage deeds j).cpu.total = (m.stage deeds i).cpu.total.later (Ticks.sum ticks)) ∧
      ∀ r j, r < j → deeds r = .reset → (∀ k, r < k → k < j → deeds k ≠ .reset) →
        ∃ ticks, (m.metered.stage deeds j).bus.ticks = (m.metered.stage deeds (r + 1)).bus.ticks ++ ticks ∧
          (m.stage deeds j).cpu.total = Ticks.zero.later (Ticks.sum ticks) := by
  have hcharged : ∀ i j, i ≤ j → (∀ k, i ≤ k → k < j → deeds k ≠ .reset) →
      ∃ ticks, (m.metered.stage deeds j).bus.ticks = (m.metered.stage deeds i).bus.ticks ++ ticks ∧
        (m.stage deeds j).cpu.total = (m.stage deeds i).cpu.total.later (Ticks.sum ticks) := by
    intro i j hij hresets
    rw [← bare_stage m deeds i, ← bare_stage m deeds j]
    exact charged_stage m.metered hij hresets
  refine ⟨?_, ?_, ?_, m.bare_stage deeds, hcharged, ?_⟩
  · rw [Cpu.sum_ticks, Cpu.cpu_step]
  · intro T hT
    rw [Cpu.result_step] at hT
    cases hv : (m.cpu.performed m.bus).value.1 with
    | error f => simp [hv, Except.map] at hT
    | ok carried =>
      rw [hv] at hT
      rw [Cpu.sum_ticks]
      exact (Except.ok.inj hT).symm
  · rw [Cpu.sum_ticks, Cpu.clock_step]
  · intro r j hrj hreset hresets
    obtain ⟨ticks, hticks, htotal⟩ := hcharged (r + 1) j hrj hresets
    refine ⟨ticks, hticks, ?_⟩
    rw [htotal, stage_succ, hreset]
    rfl

/-- ED 00 fails after two opcode bytes of four T-states each. -/
theorem total_conserved_undefined :
    let bus : FlatBus := { memory := Memory.zero.set 0 0xED }
    (Cpu.step {} bus).cpu.total = ⟨8⟩ ∧ (Cpu.step {} bus).bus.clock = 8 := by
  intro bus
  have hticks : Cpu.ticks {} bus = [4, 4] := by decide +kernel
  obtain ⟨htotal, -, hclock, -⟩ := total_conserved { cpu := {}, bus } bus fun _ => .step
  rw [hticks] at htotal hclock
  exact ⟨htotal, hclock⟩

end Machine

end Z80Machine
