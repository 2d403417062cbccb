import Z80Machine.Page.Base
import Z80Machine.Proofs.Execution
import Z80Machine.Proofs.Renaming

/-!
The pages behind the index prefixes. Each instruction of the main page has its counterpart there. One without an operand
in memory at HL does the same in registers where HL and the index register have traded places. One with such an operand
keeps its registers and has its operand at a displacement from the index register.
-/
namespace Z80Machine

open Microcode

section Redirection

def Receive.redirected (a : Word) : Receive → Receive
  | .memory _ => .memory a
  | c => c

def Send.redirected (a : Word) : Send → Send
  | .memory _ v => .memory a v
  | c => c

/-- The activity with all its data accesses to memory at address `a`. -/
def Activity.redirected {α : Type} (a : Word) : Activity α → Activity α
  | .done x => .done x
  | .receive c next => .receive (c.redirected a) fun v => (next v).redirected a
  | .send c next => .send (c.redirected a) (next.redirected a)
  | .pause c next => .pause c (next.redirected a)

end Redirection

namespace Activity

variable {α γ : Type} {Q : α → γ → Prop}

/-- The second activity goes through the cycles of the first one and `n` T-states of internal work besides. -/
inductive Slowed (Q : α → γ → Prop) : Nat → Activity α → Activity γ → Prop
  | done {a : α} {b : γ} (h : Q a b) : Slowed Q 0 (.done a) (.done b)
  | receive {n : Nat} (c : Receive) {next : Byte → Activity α} {next' : Byte → Activity γ}
      (h : ∀ v, Slowed Q n (next v) (next' v)) : Slowed Q n (.receive c next) (.receive c next')
  | send {n : Nat} (c : Send) {next : Activity α} {next' : Activity γ} (h : Slowed Q n next next') :
      Slowed Q n (.send c next) (.send c next')
  | pause {n : Nat} (c : Pause) {next : Activity α} {next' : Activity γ} (h : Slowed Q n next next') :
      Slowed Q n (.pause c next) (.pause c next')
  | internal {n : Nat} (k : Nat) {m : Activity α} {next' : Activity γ} (h : Slowed Q n m next') :
      Slowed Q (n + k) m (.pause (.internal k) next')

theorem Slowed.run {n : Nat} {m : Activity α} {m' : Activity γ} (h : Slowed Q n m m') {b b' : FlatBus}
    (hb : b.Alike b') :
    Q (m.run b).value (m'.run b').value ∧ (m.run b).bus.Alike (m'.run b').bus ∧
      (m'.run b').elapsed = (m.run b).elapsed + n ∧
      (m'.history b').filterMap Cycle.access? = (m.history b).filterMap Cycle.access? := by
  induction h generalizing b b' with
  | done h => exact ⟨h, hb, rfl, rfl⟩
  | receive c h ih =>
    obtain ⟨hv, hbus, he, ha⟩ := ih (b.answer c) (hb.receive c c.time c.time)
    simp only [run_receive, history_receive, Outcome.value_after, Outcome.bus_after, Outcome.elapsed_after,
      FlatBus.perform_receive, ← hb.answer c, List.filterMap_cons, he, ha, Nat.add_assoc, hv, hbus, and_self]
  | send c h ih =>
    obtain ⟨hv, hbus, he, ha⟩ := ih (hb.send c c.time c.time)
    simp only [run_send, history_send, Outcome.value_after, Outcome.bus_after, Outcome.elapsed_after,
      List.filterMap_cons, he, ha, Nat.add_assoc, hv, hbus, and_self]
  | pause c h ih =>
    obtain ⟨hv, hbus, he, ha⟩ := ih (hb.tick c.time c.time)
    simp only [run_pause, history_pause, Outcome.value_after, Outcome.bus_after, Outcome.elapsed_after,
      List.filterMap_cons, he, ha, Nat.add_assoc, hv, hbus, and_self]
  | internal k h ih =>
    have hticked : b.Alike (Bus.tick b' k) := ⟨hb.memory, hb.ports⟩
    obtain ⟨hv, hbus, he, ha⟩ := ih hticked
    exact ⟨hv, hbus, (congrArg (k + ·) he).trans (by omega), ha⟩

end Activity

section Operands

def Place.isHl : Place → Bool
  | .memory .hl => true
  | _ => false

def Source.isHl : Source → Bool
  | .place p => p.isHl
  | .immediate => false

def Operation.atHl : Operation → Bool
  | .transfer (.load dst src) => dst.isHl || src.isHl
  | .transfer (.storeImmediate b) => b == .hl
  | .arithmetic (.accumulate _ src) => src.isHl
  | .arithmetic (.step _ p) => p.isHl
  | .bit (.shift _ p _) | .bit (.test _ p) | .bit (.reset _ p _) | .bit (.set _ p _) => p.isHl
  | .bit .rotateDigitsRight | .bit .rotateDigitsLeft => true
  | _ => false

/-- The operation with its operand at a displacement from an index register, if it is one of those on the opening page
that have their operand in memory at HL. -/
def Operation.displaced? (i : Index) : Operation → Option Operation
  | .transfer (.load (.register r) (.place (.memory .hl))) =>
    some (.transfer (.load (.register r) (.place (.memory (.displaced i)))))
  | .transfer (.load (.memory .hl) (.place (.register r))) =>
    some (.transfer (.load (.memory (.displaced i)) (.place (.register r))))
  | .transfer (.storeImmediate .hl) => some (.transfer (.storeImmediate (.index i)))
  | .arithmetic (.accumulate op (.place (.memory .hl))) =>
    some (.arithmetic (.accumulate op (.place (.memory (.displaced i)))))
  | .arithmetic (.step d (.memory .hl)) => some (.arithmetic (.step d (.memory (.displaced i))))
  | _ => none

def Operation.exchangesHl : Operation → Bool
  | .transfer .exchangeDeHl | .transfer .exchangeBanks => true
  | _ => false

theorem Operation.eq_of_exchangesHl {op : Operation} (h : op.exchangesHl) :
    op = .transfer .exchangeDeHl ∨ op = .transfer .exchangeBanks := by
  unfold exchangesHl at h
  split at h
  · exact .inl rfl
  · exact .inr rfl
  · contradiction

def Instruction.CounterpartOf (i : Index) (main indexed : Instruction) : Prop :=
  if main.operation.atHl then main.operation.displaced? i = some indexed.operation
  else indexed.operation = main.operation.exchanged (.hl i) ∧ (main.operation.exchangesHl || main.operation.isNominal)

instance (i : Index) (main indexed : Instruction) : Decidable (main.CounterpartOf i indexed) := by
  unfold Instruction.CounterpartOf
  infer_instance

/-- What stands behind a prefix in the place of an opening of the main page. -/
def Opening.indexed (i : Index) : Opening → Opening → Bool
  | .instruction main, .instruction n => main.CounterpartOf i n
  | .instruction _, .lead _ => false
  | .lead _, _ => true

theorem Base.indexed_opening (i : Index) (v : Byte) : Opening.indexed i (Base.hl.opening v) ((Base.index i).opening v) := by
  revert v
  cases i <;> decide

end Operands

section Counterparts

variable (config : Config) (previous : Flags) {op op' : Operation} {i : Index}

theorem Operation.on_exchanged {β : Type} [Bus β] {ρ : Exchange} (hρ : ρ.KeepsHl ∨ op.isNominal) (s : Execution)
    (bus : β) :
    let m := op.execute config previous
    let t : Execution := { s with registers := s.registers.exchanged ρ }
    let p := on m t bus
    on ((op.exchanged ρ).execute config previous) s bus =
        ⟨((), { p.value.2 with registers := p.value.2.registers.exchanged ρ }), p.bus, p.elapsed⟩ ∧
      history ((op.exchanged ρ).execute config previous) s bus = history m t bus := by
  intro m t p
  have hs : t.Like ρ True s := ⟨s.registers.wz, by simp [t, Registers.exchangedWith], fun _ => rfl⟩
  have hruns := (op.parallel config previous hρ (fun _ => trivial) t s hs).together bus
  obtain ⟨hunit, w, hlike, hw⟩ := hruns.value
  rw [hw trivial] at hlike
  have hvalue : (on ((op.exchanged ρ).execute config previous) s bus).value =
      ((), { p.value.2 with registers := p.value.2.registers.exchanged ρ }) := Prod.ext hunit hlike
  exact ⟨Outcome.mk.injEq .. ▸ ⟨hvalue, hruns.bus, hruns.elapsed⟩, hruns.history⟩

def Operation.executeAt (a : Word) (op : Operation) : Microcode Unit := fun s =>
  (op.execute config previous s).redirected a

/-- Takes a displacement and goes on with the data at that distance from `w`. -/
def Operation.executePast (w : Word) (op : Operation) : Microcode Byte := do
  let d ← operand
  op.executeAt config previous (w.displace d)
  return d

/-- The internal work on the sum. The byte to be stored comes in at the same time. -/
def Operation.slack (op : Operation) : Nat := if op = .transfer (.storeImmediate .hl) then 2 else 5

theorem Operation.slowed_displaced (h : op.displaced? i = some op') (s : Execution) :
    let w := s.registers.index i
    (op.executePast config previous w s).Slowed
      (fun p p' => p'.2 = { p.2 with registers := { p.2.registers with wz := w.displace p.1 } }) op.slack
      (op'.execute config previous s) := by
  intro w
  unfold displaced? at h
  split at h
  case h_6 => contradiction
  all_goals
    obtain rfl := Option.some.inj h
    rcases s with ⟨k, l, e, _ | bytes⟩
    -- the displacement comes from memory or from the supply
    case' none => refine .receive _ fun d => ?_
    case' some => refine .pause _ ?_
  case h_1.none r | h_1.some r =>
    rcases r with _ | _ | _ | _ | _ | _ | _ | (_ | _) | (_ | _) <;> exact .internal 5 (.receive _ fun u => .done rfl)
  case h_2.none r | h_2.some r =>
    cases r <;> exact .internal 5 (.send _ (.done rfl))
  case h_3.none => exact .receive _ fun u => .internal 2 (.send _ (.done rfl))
  case h_3.some => exact .pause _ (.internal 2 (.send _ (.done rfl)))
  case h_4.none op | h_4.some op => exact .internal 5 (.receive _ fun u => .done rfl)
  case h_5.none d | h_5.some d => exact .internal 5 (.receive _ fun u => .pause _ (.send _ (.done rfl)))

theorem Operation.executeAt_hl (h : op.displaced? i = some op') (s : Execution) :
    op.executeAt config previous s.registers.hl s = op.execute config previous s := by
  unfold displaced? at h
  split at h
  case h_6 => contradiction
  all_goals
    rcases s with ⟨k, l, e, _ | bytes⟩ <;> rfl

/-- With its operand at a displacement from the index register the operation takes eight T-states more, or five where
the displacement does not wait for a sum, and does the rest at that address. -/
theorem Operation.on_displaced (h : op.displaced? i = some op') (s : Execution) (bus : FlatBus) :
    let own := on (op'.execute config previous) s bus
    let taken := on operand s bus
    let a := (s.registers.index i).displace taken.value.1
    let m := op.executeAt config previous a
    let plain := on m taken.value.2 taken.bus
    own.value.2 = { plain.value.2 with registers := { plain.value.2.registers with wz := a } } ∧
      own.bus.memory = plain.bus.memory ∧
      own.elapsed = plain.elapsed + 3 + op.slack ∧
      (history (op'.execute config previous) s bus).filterMap Cycle.access? =
        (history operand s bus ++ history m taken.value.2 taken.bus).filterMap Cycle.access? := by
  intro own taken a m plain
  have hpast : (op.executePast config previous (s.registers.index i) s).run bus =
      ⟨(taken.value.1, plain.value.2), plain.bus, 3 + plain.elapsed⟩ := by
    rw [← on]
    simp only [executePast, on_bind, on_pure, elapsed_operand]
    rfl
  have hhistory : (op.executePast config previous (s.registers.index i) s).history bus =
      history operand s bus ++ history m taken.value.2 taken.bus := by
    rw [← history]
    simp only [executePast, history_bind, history_pure, List.append_nil]
    rfl
  have hsame : bus.Alike bus := ⟨rfl, rfl⟩
  obtain ⟨hvalue, hbus, helapsed, haccesses⟩ := (op.slowed_displaced config previous h s).run hsame
  rw [hpast] at hvalue hbus helapsed
  rw [hhistory] at haccesses
  exact ⟨hvalue, hbus.memory.symm, helapsed.trans (by rw [Nat.add_comm 3]), haccesses⟩

end Counterparts

/-- Behind an index prefix stands, for each instruction of the main page, an instruction that does the same with the
index register in the place of HL. An operand in memory at HL is at a displacement from the index register, with all
registers in their places; and the exchanges of HL with DE and of the banks are themselves. -/
theorem Base.opening_index (i : Index) {v : Byte} {main : Instruction} (h : Base.hl.opening v = .instruction main) :
    ∃ indexed, (Base.index i).opening v = .instruction indexed ∧
      ∀ (config : Config) (previous : Flags) (s : Execution) (bus : FlatBus),
        let m := indexed.operation.execute config previous
        let own := on m s bus
        (main.operation.atHl = false → main.operation.exchangesHl = false →
          let m' := main.operation.execute config previous
          let t : Execution := { s with registers := s.registers.exchanged (.hl i) }
          let plain := on m' t bus
          own = ⟨((), { plain.value.2 with registers := plain.value.2.registers.exchanged (.hl i) }),
              plain.bus, plain.elapsed⟩ ∧
            history m s bus = history m' t bus) ∧
        (main.operation.atHl →
          let taken := on operand s bus
          let a := (s.registers.index i).displace taken.value.1
          let m' := main.operation.executeAt config previous a
          let plain := on m' taken.value.2 taken.bus
          own.value.2 = { plain.value.2 with registers := { plain.value.2.registers with wz := a } } ∧
            own.bus.memory = plain.bus.memory ∧
            own.elapsed = plain.elapsed + (if main.operation = .transfer (.storeImmediate .hl) then 5 else 8) ∧
            (history m s bus).filterMap Cycle.access? =
              (history operand s bus ++ history m' taken.value.2 taken.bus).filterMap Cycle.access? ∧
            ∀ t, main.operation.executeAt config previous t.registers.hl t = main.operation.execute config previous t) ∧
        (main.operation.exchangesHl → indexed.operation = main.operation) := by
  have hopening := Base.indexed_opening i v
  rw [h] at hopening
  cases hi : (Base.index i).opening v with
  | lead l => simp [hi, Opening.indexed] at hopening
  | instruction indexed =>
    have hcounterpart : main.CounterpartOf i indexed := by simpa [hi, Opening.indexed] using hopening
    refine ⟨indexed, rfl, fun config previous s bus => ?_⟩
    intro m own
    refine ⟨fun hat hexchanges => ?_, fun hat => ?_, fun hexchanges => ?_⟩
    · obtain ⟨hname, hnominal⟩ := (if_neg (by simp [hat])).mp hcounterpart
      simp only [m, own, hname]
      exact Operation.on_exchanged config previous (.inr (by simpa [hexchanges] using hnominal)) s bus
    · have hdisplaced : main.operation.displaced? i = some indexed.operation := (if_pos hat).mp hcounterpart
      obtain ⟨hvalue, hmemory, helapsed, haccesses⟩ := Operation.on_displaced config previous hdisplaced s bus
      refine ⟨hvalue, hmemory, helapsed.trans ?_, haccesses, Operation.executeAt_hl config previous hdisplaced⟩
      rw [Operation.slack]
      split <;> rfl
    · rw [Instruction.CounterpartOf] at hcounterpart
      rcases Operation.eq_of_exchangesHl hexchanges with hop | hop <;> rw [hop] at hcounterpart ⊢ <;>
        exact hcounterpart.1

/-- A load of H from memory five bytes past IX. -/
theorem Base.opening_index_load :
    let s : Execution := { registers := { ix := 0x8000 } }
    let bus : FlatBus := { memory := (Memory.zero.set 0 5).set 0x8005 0x42 }
    Base.hl.opening 0x66 = .instruction ⟨.transfer (.load (.register .h) (.place (.memory .hl))), 7⟩ ∧
      ∃ indexed, (Base.index .ix).opening 0x66 = .instruction indexed ∧
        let own := on (indexed.operation.execute .extended .clear) s bus
        own.value.2.registers.h = 0x42 ∧ own.value.2.registers.wz = 0x8005 := by
  intro s bus
  obtain ⟨indexed, hi, hall⟩ :=
    Base.opening_index .ix (show Base.hl.opening 0x66 =
      .instruction ⟨.transfer (.load (.register .h) (.place (.memory .hl))), 7⟩ from rfl)
  refine ⟨rfl, indexed, hi, ?_⟩
  obtain ⟨hvalue, -⟩ := (hall .extended .clear s bus).2.1 rfl
  have hd : (on operand s bus).value.1 = 5 := by
    have hget : bus.memory.get 0 = 5 := by simp [bus, Memory.get_set]
    exact hget
  have hv : bus.memory.get 0x8005 = 0x42 := by simp [bus]
  rw [hd] at hvalue
  refine ⟨(congrArg (·.registers.h) hvalue).trans hv, congrArg (·.registers.wz) hvalue⟩

end Z80Machine
