import Z80Machine.Proofs.History

/-!
Activities in lockstep. Two activities go through the same cycles, whatever bytes come in, and what they end in is
related. So their runs on one bus go together: they take the same time, leave the bus the same and have the same
history.
-/
namespace Z80Machine.Activity

variable {α γ δ ε : Type}

/-- The same cycles, with values at the end that `Q` relates. -/
inductive Lockstep (Q : α → γ → Prop) : Activity α → Activity γ → Prop
  | done {a : α} {b : γ} (h : Q a b) : Lockstep Q (.done a) (.done b)
  | receive (c : Receive) {next : Byte → Activity α} {next' : Byte → Activity γ}
      (h : ∀ v, Lockstep Q (next v) (next' v)) : Lockstep Q (.receive c next) (.receive c next')
  | send (c : Send) {next : Activity α} {next' : Activity γ} (h : Lockstep Q next next') :
      Lockstep Q (.send c next) (.send c next')
  | pause (c : Pause) {next : Activity α} {next' : Activity γ} (h : Lockstep Q next next') :
      Lockstep Q (.pause c next) (.pause c next')

namespace Lockstep

variable {Q : α → γ → Prop} {R : δ → ε → Prop} {m : Activity α} {m' : Activity γ}

theorem refl {Q : α → α → Prop} (hQ : ∀ a, Q a a) (m : Activity α) : Lockstep Q m m := by
  induction m with
  | done a => exact .done (hQ a)
  | receive c next ih => exact .receive c ih
  | send c next ih => exact .send c ih
  | pause c next ih => exact .pause c ih

theorem mono {Q' : α → γ → Prop} (hQ : ∀ a b, Q a b → Q' a b) (h : Lockstep Q m m') : Lockstep Q' m m' := by
  induction h with
  | done h => exact .done (hQ _ _ h)
  | receive c h ih => exact .receive c ih
  | send c h ih => exact .send c ih
  | pause c h ih => exact .pause c ih

/-- What goes on in lockstep from all related values goes on in lockstep. -/
theorem bind {f : α → Activity δ} {g : γ → Activity ε} (hm : Lockstep Q m m')
    (hf : ∀ a b, Q a b → Lockstep R (f a) (g b)) : Lockstep R (m.bind f) (m'.bind g) := by
  induction hm with
  | done h => exact hf _ _ h
  | receive c h ih => exact .receive c ih
  | send c h ih => exact .send c ih
  | pause c h ih => exact .pause c ih

end Lockstep

/-- Runs on one bus through the same cycles, which leave the bus the same and end in related values. -/
structure Together {β : Type} [Bus β] (Q : α → γ → Prop) (b : β) (m : Activity α) (m' : Activity γ) : Prop where
  value : Q (m.run b).value (m'.run b).value
  bus : (m'.run b).bus = (m.run b).bus
  history : m'.history b = m.history b

section Together

variable {β : Type} [Bus β] {Q : α → γ → Prop} {R : δ → ε → Prop} {b : β} {m : Activity α} {m' : Activity γ}

theorem Together.pause (c : Pause) (h : Together Q (Bus.tick b c.time) m m') : Together Q b (.pause c m) (.pause c m') :=
  ⟨h.value, h.bus, congrArg (Cycle.paused c :: ·) h.history⟩

theorem Lockstep.together (h : Lockstep Q m m') (b : β) : Together Q b m m' := by
  induction h generalizing b with
  | done h => exact ⟨h, rfl, rfl⟩
  | receive c h ih =>
    obtain ⟨hv, hb, hh⟩ := ih (c.perform b).1 (Bus.tick (c.perform b).2 c.time)
    exact ⟨hv, hb, congrArg (Cycle.received c _ :: ·) hh⟩
  | send c h ih =>
    obtain ⟨hv, hb, hh⟩ := ih (Bus.tick (c.perform b) c.time)
    exact ⟨hv, hb, congrArg (Cycle.sent c :: ·) hh⟩
  | pause c h ih => exact (ih _).pause c

theorem Together.elapsed (h : Together Q b m m') : (m'.run b).elapsed = (m.run b).elapsed := by
  rw [elapsed_run, elapsed_run, h.history]

/-- What is done next has to go together only from the values and the bus to which the first runs have led. -/
theorem Together.bind {f : α → Activity δ} {g : γ → Activity ε} (hm : Together Q b m m')
    (hf : Together R (m.run b).bus (f (m.run b).value) (g (m'.run b).value)) :
    Together R b (m.bind f) (m'.bind g) where
  value := by
    rw [run_bind, run_bind, hm.bus]
    exact hf.value
  bus := by
    rw [run_bind, run_bind, hm.bus]
    exact hf.bus
  history := by
    rw [history_bind, history_bind, hm.bus, hm.history, hf.history]

end Together

end Z80Machine.Activity
