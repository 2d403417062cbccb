import Z80Machine.Proofs.Interrupts
import Z80Machine.Proofs.Plain
import Z80Machine.Proofs.Renaming

/-!
What shows of WZ and of the flags that the last step latched. Processors that differ in them alone take steps of the
same cycles, to the same end, and differ afterwards in them alone or in X and Y. In X and Y they differ only after
setting or complementing the carry, which look at the latched flags, or after a bit test at HL, which looks at WZ. In
all other operations WZ is an address that the fetch has put there, or is moved on without being looked at.
-/
namespace Z80Machine

open Microcode

section Nothing

theorem Register.exchanged_nothing (r : Register) : r.exchanged .nothing = r := by
  cases r <;> rfl

theorem Pair.exchanged_nothing (p : Pair) : p.exchanged .nothing = p := by
  cases p <;> rfl

theorem Place.exchanged_nothing (p : Place) : p.exchanged .nothing = p := by
  rcases p with r | _ | _ | _
  · exact congrArg Place.register r.exchanged_nothing
  · rfl
  · rfl
  · rfl

theorem Source.exchanged_nothing (src : Source) : src.exchanged .nothing = src := by
  cases src with
  | place p => exact congrArg Source.place p.exchanged_nothing
  | immediate => rfl

theorem Operation.exchanged_nothing (op : Operation) : op.exchanged .nothing = op := by
  have hcopy (copy : Option Register) : copy.map (Register.exchanged .nothing) = copy := by
    cases copy with
    | none => rfl
    | some r => exact congrArg some r.exchanged_nothing
  cases op with
  | transfer t =>
    cases t <;> simp only [exchanged, Transfer.exchanged, Place.exchanged_nothing, Source.exchanged_nothing,
      Pair.exchanged_nothing, Base.exchanged]
  | arithmetic a =>
    cases a <;> simp only [exchanged, Arithmetic.exchanged, Place.exchanged_nothing, Source.exchanged_nothing,
      Pair.exchanged_nothing, Base.exchanged]
  | bit b => cases b <;> simp only [exchanged, BitOperation.exchanged, Place.exchanged_nothing, hcopy]
  | jump j => cases j <;> rfl
  | control o => rfl
  | transmit t => cases t <;> simp only [exchanged, Transmission.exchanged, hcopy]
  | block b => rfl
  | extension e => cases e <;> simp only [exchanged, Extension.exchanged, Pair.exchanged_nothing]

end Nothing

/-- The bit tests at HL. -/
def Operation.testsAtHl : Operation → Bool
  | .bit (.test _ (.memory .hl)) => true
  | _ => false

theorem Operation.testsAtHl_iff {op : Operation} : op.testsAtHl ↔ ∃ n, op = .bit (.test n (.memory .hl)) := by
  constructor
  · intro h
    unfold testsAtHl at h
    split at h
    · exact ⟨_, rfl⟩
    · contradiction
  · rintro ⟨n, rfl⟩
    rfl

/-- Whether the operation looks at WZ for more than X and Y of a bit test. -/
def Operation.needsWz (op : Operation) : Bool := op.looksAtWz && !op.testsAtHl

def Opening.needsWz : Opening → Bool
  | .instruction n => n.operation.needsWz
  | .lead _ => false

def Resolution.needsWz : Resolution → Bool
  | .instruction n => n.operation.needsWz
  | .carry _ | .undefined _ => false

/-- X and Y after the operation can tell the latched flags `p` from `p'`, or the WZ `w` from `w'`. -/
def Operation.Tells (p p' : Flags) (w w' : Word) (op : Operation) : Prop :=
  p' ≠ p ∧ (op = .arithmetic .setCarry ∨ op = .arithmetic .complementCarry) ∨
    w' ≠ w ∧ ∃ n, op = .bit (.test n (.memory .hl))

/-- The executions differ in WZ and latched flags alone, or if `told` in X and Y. -/
def Execution.Veils (told : Prop) (s s' : Execution) : Prop :=
  ∃ w l y x, s' = { s with registers := { s.registers with wz := w, f := { s.registers.f with y, x } }, latch := l } ∧
    (y = s.registers.f.y ∧ x = s.registers.f.x ∨ told)

theorem Execution.Like.veils {seen told : Prop} {s s' : Execution} (h : s.Like .nothing seen s') : s.Veils told s' := by
  obtain ⟨w, rfl, -⟩ := h
  exact ⟨w, s.latch, s.registers.f.y, s.registers.f.x, rfl, .inl ⟨rfl, rfl⟩⟩

section Operations

variable {s s' : Execution} {w w' : Word}

theorem Operation.lockstep_hidden (config : Config) (p p' : Flags) (op : Operation)
    (h : s.Like .nothing (w' = w ∨ op.needsWz) s') :
    (op.execute config p s).Lockstep (fun q q' => q.2.Veils (op.Tells p p' w w') q'.2) (op.execute config p' s') := by
  by_cases hset : op = .arithmetic .setCarry
  · subst hset
    obtain ⟨u, rfl, -⟩ := h
    refine .done ⟨u, _, _, _, rfl, ?_⟩
    by_cases hp : p' = p
    · subst hp
      exact .inl ⟨rfl, rfl⟩
    · exact .inr (.inl ⟨hp, .inl rfl⟩)
  by_cases hcomplement : op = .arithmetic .complementCarry
  · subst hcomplement
    obtain ⟨u, rfl, -⟩ := h
    refine .done ⟨u, _, _, _, rfl, ?_⟩
    by_cases hp : p' = p
    · subst hp
      exact .inl ⟨rfl, rfl⟩
    · exact .inr (.inl ⟨hp, .inr rfl⟩)
  by_cases htest : ∃ n, op = .bit (.test n (.memory .hl))
  · obtain ⟨n, rfl⟩ := htest
    obtain ⟨u, rfl, hu⟩ := h
    refine .receive _ fun v => .pause _ (.done ⟨u, _, _, _, rfl, ?_⟩)
    by_cases hw : w' = w
    · obtain rfl := hu (.inl hw)
      exact .inl ⟨rfl, rfl⟩
    · exact .inr (.inr ⟨hw, n, rfl⟩)
  have hneeds (hl : op.looksAtWz) : w' = w ∨ op.needsWz := by
    rw [← testsAtHl_iff, Bool.not_eq_true] at htest
    exact .inr (by rw [needsWz, hl, htest]; rfl)
  have hparallel := op.parallel (ρ := .nothing) config p (.inl trivial) hneeds s s' h
  rw [op.exchanged_nothing, op.execute_previous config hset hcomplement p p'] at hparallel
  rw [op.execute_previous config hset hcomplement p p']
  exact hparallel.mono fun _ _ hq => hq.2.veils

end Operations

section Fetch

/-- The microcode fetches the same from executions with another WZ, and what needs WZ finds the same there. -/
def FetchesAlike (seen : Prop) (m : Microcode Resolution) : Prop :=
  ∀ s s', s.Like .nothing seen s' →
    (m s).Lockstep (fun p p' => p'.1 = p.1 ∧ p.2.Like .nothing (seen ∨ p.1.needsWz) p'.2) (m s')

variable {seen : Prop}

theorem Parallel.fetchesAlike_bind {α : Type} {m : Microcode α} {f : α → Microcode Resolution}
    (hm : Parallel .nothing seen m m) (hf : ∀ a, FetchesAlike seen (f a)) : FetchesAlike seen (m >>= f) :=
  fun _ _ h => hm.lockstep_bind h fun a _ _ ht => hf a _ _ ht

theorem fetchesAlike_pure {o : Resolution} (ho : o.needsWz = false) : FetchesAlike seen (pure o) := by
  rintro s s' ⟨u, rfl, hu⟩
  refine .done ⟨rfl, u, rfl, fun hs => hs.elim hu fun hn => ?_⟩
  exact absurd (hn.symm.trans ho) nofun

theorem Base.needsWz_opening (b : Base) (v : Byte) : (b.opening v).needsWz = false := by
  revert v
  rcases b with _ | _ | _ <;> decide

theorem needsWz_bitsPage (v : Byte) : (bitsPage v).operation.needsWz = false := by
  revert v
  decide

theorem needsWz_extendedPage {v : Byte} {n : Instruction} (h : extendedPage v = some n) :
    n.operation.needsWz = false := by
  have hall : ∀ v : Byte, (extendedPage v).all fun n => !n.operation.needsWz := by
    decide
  simpa [h] using hall v

variable (extensions : Bool) (w : Window)

theorem Opening.fetchesAlike (b : Base) (v : Byte) : FetchesAlike seen ((b.opening v).resolve extensions w) := by
  cases ho : b.opening v with
  | instruction n =>
    have hn := b.needsWz_opening v
    rw [ho] at hn
    exact fetchesAlike_pure hn
  | lead l =>
    cases l with
    | bits => exact Parallel.opcode.fetchesAlike_bind fun u => fetchesAlike_pure (needsWz_bitsPage u)
    | extended =>
      refine Parallel.opcode.fetchesAlike_bind fun u => ?_
      split
      · rename_i n hn
        exact fetchesAlike_pure (needsWz_extendedPage (Option.filter_eq_some_iff.1 hn).1)
      · exact fetchesAlike_pure rfl
    | index i => exact fetchesAlike_pure rfl
    | indexedBits i =>
      refine Parallel.operand.fetchesAlike_bind fun d => ?_
      rintro s s' ⟨u, rfl, -⟩
      -- the address of the operand goes into WZ, and from there on the executions are the same
      exact .refl (fun p => ⟨rfl, p.2.registers.wz, rfl, fun _ => rfl⟩) _

theorem fetchesAlike_fetchIndexed (i : Index) : FetchesAlike seen (fetchIndexed extensions w i) :=
  Parallel.opcode.fetchesAlike_bind fun v => Opening.fetchesAlike extensions _ (.index i) v

theorem fetchesAlike_fetch (carried : Option Index) : FetchesAlike seen (fetch extensions carried) := by
  cases carried with
  | some i => exact fetchesAlike_fetchIndexed extensions _ i
  | none =>
    refine Parallel.opcode.fetchesAlike_bind fun v => ?_
    split
    · exact fetchesAlike_fetchIndexed extensions _ _
    · exact Opening.fetchesAlike extensions _ .hl v

theorem fetchesAlike_fetchSupplied (b : Base) (vs : List Byte) :
    FetchesAlike seen (fetchSupplied extensions w b vs) := by
  have htake (v : Byte) : Parallel .nothing seen (takeOpcode v) (takeOpcode v) :=
    .bind (.update fun _ u => ⟨u, rfl, id⟩) fun _ => .wait _
  induction vs generalizing w b with
  | nil => exact (htake 0xFF).fetchesAlike_bind fun _ => Opening.fetchesAlike extensions _ b 0xFF
  | cons v rest ih =>
    refine (htake v).fetchesAlike_bind fun _ => ?_
    split
    · exact ih _ _
    · have hrest : Parallel .nothing seen (modify fun s : Execution => { s with supply := some rest })
          (modify fun s : Execution => { s with supply := some rest }) := by
        rintro t t' ⟨u, rfl, hu⟩
        exact .done ⟨rfl, u, rfl, hu⟩
      exact hrest.fetchesAlike_bind fun _ => Opening.fetchesAlike extensions _ b v

end Fetch

namespace Cpu

section Responses

variable {seen : Prop}

theorem parallel_acceptNmi : Parallel .nothing seen acceptNmi acceptNmi := by
  refine .bind (.update fun _ u => ⟨u, rfl, id⟩) fun _ => ?_
  refine .bind (.wait _) fun _ => ?_
  exact .bind (parallel_enter _) fun _ => .pure _

theorem parallel_idle : Parallel .nothing seen idle idle := by
  refine .bind (.update fun _ u => ⟨u, rfl, id⟩) fun _ => ?_
  refine .look fun k u _ => ?_
  exact .bind (.receive _) fun _ => .pure _

theorem parallel_vectored (c : Cpu) : Parallel .nothing seen c.vectored c.vectored := by
  refine .bind (.update fun _ u => ⟨u, rfl, id⟩) fun _ => ?_
  refine .bind (.wait _) fun _ => ?_
  refine .ite (.bind (parallel_enter _) fun _ => .pure _) ?_
  refine .bind (.pushWord _) fun _ => ?_
  refine .bind (.readWord _) fun a => ?_
  exact .bind (.goTo a) fun _ => .pure _

end Responses

variable (c : Cpu) (wz : Word) (latch : Flags)

/-- The processor with other hidden latches. -/
def withHidden : Cpu := { c with registers := { c.registers with wz }, latch }

/-- What a step has executed, and whether X and Y can tell. -/
def Told (o? : Option Operation) : Prop := ∃ op, o? = some op ∧ op.Tells c.latch latch c.registers.wz wz

variable {s s' : Execution}

theorem lockstep_complete_hidden (start : Word) (o : Resolution)
    (h : s.Like .nothing (wz = c.registers.wz ∨ o.needsWz) s') :
    (c.complete start o s).Lockstep (fun p p' => p'.1 = p.1 ∧ p.2.Veils (c.Told wz latch o.operation?) p'.2)
      ((c.withHidden wz latch).complete start o s') := by
  cases o with
  | instruction n =>
    have hoperation := n.operation.lockstep_hidden c.config c.latch latch h
    refine hoperation.bind ?_
    rintro ⟨_, t⟩ ⟨_, t'⟩ ⟨u, l, y, x, rfl, hyx⟩
    exact .done ⟨rfl, u, l, y, x, rfl, hyx.imp_right fun ht => ⟨_, rfl, ht⟩⟩
  | carry i => exact .done ⟨rfl, h.veils⟩
  | undefined w =>
    simp only [complete, withHidden]
    cases c.config.undefined <;> exact .done ⟨rfl, h.veils⟩

variable {β : Type} [Bus β] (bus : β)

/-- What has been fetched is completed together, and what shows in X and Y goes back to its operation. -/
theorem together_complete {m : Microcode Resolution} (hm : FetchesAlike (wz = c.registers.wz) m)
    (h : s.Like .nothing (wz = c.registers.wz) s') (start : Word) :
    ((m >>= c.complete start) s).Together
      (fun p p' => p'.1 = p.1 ∧ p.2.Veils (c.Told wz latch (on m s bus).value.1.operation?) p'.2) bus
      ((m >>= (c.withHidden wz latch).complete start) s') := by
  have hfetch := (hm s s' h).together bus
  refine hfetch.bind ?_
  obtain ⟨hvalue, hlike⟩ := hfetch.value
  rw [on]
  rcases hp : ((m s).run bus).value with ⟨o, t⟩
  rcases hp' : ((m s').run bus).value with ⟨o', t'⟩
  rw [hp, hp'] at hvalue hlike
  obtain rfl : o' = o := hvalue
  exact (c.lockstep_complete_hidden wz latch start o' hlike).together _

theorem together_hidden :
    (c.perform c.task c.starting).Together
      (fun p p' => p'.1 = p.1 ∧ p.2.Veils (c.Told wz latch (c.operation? bus)) p'.2) bus
      ((c.withHidden wz latch).perform c.task (c.withHidden wz latch).starting) := by
  have hstart : c.starting.Like .nothing (wz = c.registers.wz) (c.withHidden wz latch).starting := ⟨wz, rfl, id⟩
  have hparallel {m : Microcode Ending} (hm : Parallel .nothing (wz = c.registers.wz) m m) :
      (m c.starting).Together (fun p p' => p'.1 = p.1 ∧ p.2.Veils (c.Told wz latch (c.operation? bus)) p'.2) bus
        (m (c.withHidden wz latch).starting) := by
    refine Activity.Lockstep.together ((hm _ _ hstart).mono ?_) bus
    exact fun _ _ hp => ⟨hp.1, hp.2.veils⟩
  cases ht : c.task with
  | instruction carried =>
    obtain rfl := eq_carried_of_task ht
    have hown : c.perform (.instruction c.carried) c.starting =
        (fetch c.config.extensions c.carried >>= c.complete c.start) c.starting := c.runInstruction_starting
    have hother : (c.withHidden wz latch).perform (.instruction c.carried) (c.withHidden wz latch).starting =
        (fetch c.config.extensions c.carried >>= (c.withHidden wz latch).complete c.start)
          (c.withHidden wz latch).starting := (c.withHidden wz latch).runInstruction_starting
    rw [hown, hother, operation?, resolution?, ht, Option.bind_some]
    exact c.together_complete wz latch bus (fetchesAlike_fetch _ _) hstart c.start
  | nmi => exact hparallel parallel_acceptNmi
  | idle => exact hparallel parallel_idle
  | interrupt =>
    by_cases hm : c.registers.im = 0
    · have hown : c.perform .interrupt c.starting = _ := c.acceptInterrupt_eq hm
      have hother : (c.withHidden wz latch).perform .interrupt (c.withHidden wz latch).starting = _ :=
        (c.withHidden wz latch).acceptInterrupt_eq hm
      have hoperation : c.operation? bus =
          (on (fetchSupplied c.config.extensions .empty .hl c.interruptData) ⟨c.accepted, .clear, false, some []⟩
            (Bus.tick bus 2)).value.1.operation? := by
        simp only [operation?, resolution?, ht, hm, ↓reduceIte, Option.bind_some]
      rw [hown, hother, hoperation]
      refine Activity.Together.pause (.internal 2) ?_
      exact c.together_complete wz latch (Bus.tick bus 2) (fetchesAlike_fetchSupplied _ _ _ _) ⟨wz, rfl, id⟩
        c.registers.pc
    · have hown : c.perform .interrupt c.starting = _ := c.acceptInterrupt_vectored hm
      have hother : (c.withHidden wz latch).perform .interrupt (c.withHidden wz latch).starting = _ :=
        (c.withHidden wz latch).acceptInterrupt_vectored hm
      rw [hown, hother]
      have haccepted := c.parallel_vectored ⟨c.accepted, .clear, false, none⟩ _ ⟨wz, rfl, id⟩
      refine Activity.Lockstep.together (haccepted.mono ?_) bus
      exact fun _ _ hp => ⟨hp.1, hp.2.veils⟩

/-- WZ and the latched flags show in X and Y alone, and there only after setting or complementing the carry, which
shows the latched flags, and after a bit test at HL, which shows WZ. -/
theorem step_hidden :
    let c' : Cpu := { c with registers := { c.registers with wz }, latch }
    (c'.step bus).result = (c.step bus).result ∧
      (c'.step bus).bus = (c.step bus).bus ∧
      c'.history bus = c.history bus ∧
      ∃ wz₁ latch₁ y x,
        (c'.step bus).cpu =
            { (c.step bus).cpu with
              registers := { (c.step bus).cpu.registers with
                wz := wz₁
                f := { (c.step bus).cpu.registers.f with y, x } }
              latch := latch₁ } ∧
          (y = (c.step bus).cpu.registers.f.y ∧ x = (c.step bus).cpu.registers.f.x ∨
            latch ≠ c.latch ∧
              (c.operation? bus = some (.arithmetic .setCarry) ∨
                c.operation? bus = some (.arithmetic .complementCarry)) ∨
            wz ≠ c.registers.wz ∧ ∃ n, c.operation? bus = some (.bit (.test n (.memory .hl)))) := by
  intro c'
  have hruns := c.together_hidden wz latch bus
  have helapsed : (c'.performed bus).elapsed = (c.performed bus).elapsed := hruns.elapsed
  obtain ⟨hending, u, l, y, x, hs, hyx⟩ := hruns.value
  have hending' : (c'.performed bus).value.1 = (c.performed bus).value.1 := hending
  have hs' : (c'.performed bus).value.2 = _ := hs
  refine ⟨?_, ?_, ?_, u, l, y, x, ?_, ?_⟩
  · rw [result_step, result_step, hending', helapsed]
  · rw [bus_step, bus_step]
    exact hruns.bus
  · rw [history_eq, history_eq]
    exact hruns.history
  · rw [cpu_step, cpu_step, hending', hs', helapsed]
    rfl
  · rw [registers_step]
    refine hyx.imp_right ?_
    rintro ⟨op, ho, ⟨hlatch, hop⟩ | ⟨hwz, n, hop⟩⟩
    · rcases hop with rfl | rfl
      · exact .inl ⟨hlatch, .inl ho⟩
      · exact .inl ⟨hlatch, .inr ho⟩
    · exact .inr ⟨hwz, n, hop ▸ ho⟩

end Cpu

end Z80Machine
