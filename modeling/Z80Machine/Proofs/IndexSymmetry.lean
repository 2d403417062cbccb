import Z80Machine.Proofs.Renaming
import Z80Machine.Proofs.Step

/-!
IX and IY alike. What follows a carried prefix does the same after the other prefix, in registers where IX and IY
have traded places. `Base.opening_other` says it of the pages, `Operation.parallel` of the operations, and
`Cpu.step_otherIndex` puts a step together from them.
-/
namespace Z80Machine

open Microcode

/-- The opening with the other index register in each name. A prefix keeps its meaning. -/
def Opening.mirrored : Opening → Opening
  | .instruction n => .instruction { n with operation := n.operation.exchanged .indexes }
  | .lead (.indexedBits i) => .lead (.indexedBits i.other)
  | .lead l => .lead l

theorem Base.opening_other (i : Index) (v : Byte) :
    (Base.index i.other).opening v = ((Base.index i).opening v).mirrored := by
  revert v
  cases i <;> decide

theorem BitOperation.exchanged_ofByte (ρ : Exchange) (v : Byte) (p : Place) (copy : Option Register) :
    (BitOperation.ofByte v p copy).exchanged ρ =
      BitOperation.ofByte v (p.exchanged ρ) (copy.map (Register.exchanged ρ)) := by
  simp only [ofByte]
  split <;> rfl

theorem bitsPage_exchanged (v : Byte) : (bitsPage v).operation.exchanged .indexes = (bitsPage v).operation := by
  have hplace : ∀ code, (Place.ofCode .hl code).exchanged .indexes = Place.ofCode .hl code := by decide
  simp only [bitsPage, Operation.exchanged, BitOperation.exchanged_ofByte, hplace, Option.map_none]

theorem extendedPage_exchanged {v : Byte} {n : Instruction} (h : extendedPage v = some n) :
    n.operation.exchanged .indexes = n.operation := by
  have hall : ∀ v : Byte, (extendedPage v).all fun n => n.operation.exchanged .indexes = n.operation := by
    decide
  simpa [h] using hall v

theorem indexedBitsPage_other (i : Index) (v : Byte) :
    indexedBitsPage i.other v =
      { indexedBitsPage i v with operation := (indexedBitsPage i v).operation.exchanged .indexes } := by
  have hcopy : ∀ code, (Register.ofCode? .hl code).map (Register.exchanged .indexes) = Register.ofCode? .hl code := by
    decide
  have htest (j : Index) : (BitOperation.ofByte v (.memory (.latched j)) (Register.ofCode? .hl (Opcode.z v))).isTest =
      decide (Opcode.x v = 1) := by
    simp only [BitOperation.ofByte]
    split <;> simp_all [BitOperation.isTest]
  simp only [indexedBitsPage, Operation.exchanged, BitOperation.exchanged_ofByte, hcopy, htest]
  rfl

/-- What is fetched after a prefix and what is fetched after the other one. Undefined bytes differ in the prefix. -/
inductive Resolution.Mirrored (i : Index) : Resolution → Resolution → Prop
  | instruction (n : Instruction) :
      Mirrored i (.instruction n) (.instruction { n with operation := n.operation.exchanged .indexes })
  | undefined {w w' : Window} {vs : List Byte} (h : w.toList = i.prefixByte :: vs)
      (h' : w'.toList = i.other.prefixByte :: vs) : Mirrored i (.undefined w) (.undefined w')

/-- Ends of a step after a prefix and after the other one. -/
inductive Ending.Mirrored (i : Index) : Ending → Ending → Prop
  | ok : Mirrored i (.ok none) (.ok none)
  | error (a : Word) (vs : List Byte) :
      Mirrored i (.error (.undefinedOpcode a (i.prefixByte :: vs)))
        (.error (.undefinedOpcode a (i.other.prefixByte :: vs)))

section Fetch

variable {i : Index} {s s' : Execution} {v : Byte}

theorem seen_prefixed (i : Index) (v u : Byte) :
    (((Window.empty.push i.prefixByte).push v).push u).toList = i.prefixByte :: [v, u] := by
  rfl

theorem Opening.lockstep_resolve (extensions : Bool) (o : Opening) (ho : ∀ j, o ≠ .lead (.index j))
    (h : s.Like .indexes True s') :
    (o.resolve extensions ((Window.empty.push i.prefixByte).push v) s).Lockstep
      (fun p p' => p.1.Mirrored i p'.1 ∧ p.2.Like .indexes True p'.2)
      (o.mirrored.resolve extensions ((Window.empty.push i.other.prefixByte).push v) s') := by
  cases o with
  | instruction n => exact .done ⟨.instruction n, h⟩
  | lead l =>
    cases l with
    | bits =>
      refine Parallel.opcode.lockstep_bind h fun u t t' ht => .done ⟨?_, ht⟩
      have hn := Resolution.Mirrored.instruction (i := i) (bitsPage u)
      rwa [bitsPage_exchanged] at hn
    | extended =>
      refine Parallel.opcode.lockstep_bind h fun u t t' ht => ?_
      cases hn : extendedSlot extensions u with
      | none => exact .done ⟨.undefined (seen_prefixed i v u) (seen_prefixed i.other v u), ht⟩
      | some n =>
        refine .done ⟨?_, ht⟩
        have hmirrored := Resolution.Mirrored.instruction (i := i) n
        rwa [extendedPage_exchanged (Option.filter_eq_some_iff.1 hn).1] at hmirrored
    | index j => exact absurd rfl (ho j)
    | indexedBits j =>
      refine Parallel.operand.lockstep_bind h fun d t t' ht => ?_
      refine Parallel.lockstep_look ht fun w _ => ?_
      have hindex : (t.registers.exchangedWith .indexes w).index j.other = t.registers.index j :=
        t.registers.index_exchanged .indexes w trivial j
      rw [hindex]
      refine (Parallel.latchAddress ((t.registers.index j).displace d)).lockstep_bind ht fun _ t t' ht => ?_
      refine Parallel.operand.lockstep_bind ht fun u t t' ht => ?_
      refine (Parallel.wait (.internal 2)).lockstep_bind ht fun _ t t' ht => .done ⟨?_, ht⟩
      rw [indexedBitsPage_other]
      exact .instruction _

end Fetch

namespace Cpu

/-- The processor with IX and IY in each other's places, after the prefix `i`. -/
def mirrored (c : Cpu) (i : Index) : Cpu :=
  { c with registers := c.registers.exchanged .indexes, carried := some i }

variable (c : Cpu) {i : Index}

theorem lockstep_complete (start : Word) {o o' : Resolution} {s s' : Execution} (ho : o.Mirrored i o')
    (h : s.Like .indexes True s') :
    (c.complete start o s).Lockstep (fun p p' => p.1.Mirrored i p'.1 ∧ p.2.Like .indexes True p'.2)
      ((c.mirrored i.other).complete start o' s') := by
  cases ho with
  | instruction n =>
    have hoperation := n.operation.parallel (ρ := .indexes) c.config c.latch (.inl trivial) fun _ => trivial
    exact hoperation.lockstep_bind h fun _ t t' ht => .done ⟨.ok, ht⟩
  | undefined hw hw' =>
    cases hpolicy : c.config.undefined with
    | nop =>
      simp only [complete, mirrored, hpolicy]
      exact .done ⟨.ok, h⟩
    | fault =>
      simp only [complete, mirrored, hpolicy, hw, hw']
      exact .done ⟨.error start _, h⟩

theorem perform_carried (i : Index) :
    c.perform (.instruction (some i)) c.starting =
      (opcode >>= fun v =>
        ((Base.index i).opening v).resolve c.config.extensions ((Window.empty.push i.prefixByte).push v) >>=
          c.complete (c.registers.pc - 1)) c.starting := by
  simp only [perform, runInstruction, fetch, fetchIndexed, bind_assoc]
  rfl

variable {β : Type} [Bus β] (bus : β)

theorem together_mirrored (hc : c.carried = some i)
    (hv : Index.ofPrefix? (Bus.read bus c.registers.pc).1 = none) :
    (c.perform c.task c.starting).Together (fun p p' => p.1.Mirrored i p'.1 ∧ p.2.Like .indexes True p'.2) bus
      ((c.mirrored i.other).perform (c.mirrored i.other).task (c.mirrored i.other).starting) := by
  have htask : c.task = .instruction (some i) := by simp only [task, hc]
  have htask' : (c.mirrored i.other).task = .instruction (some i.other) := rfl
  have hstart : c.starting.Like .indexes True (c.mirrored i.other).starting := ⟨c.registers.wz, rfl, fun _ => rfl⟩
  rw [htask, htask', perform_carried, perform_carried]
  -- that the next byte is no prefix is known on this bus only
  refine Parallel.opcode.together_bind hstart fun v t t' hvalue ht => Activity.Lockstep.together ?_ _
  obtain rfl : (Bus.read bus c.registers.pc).1 = v := congrArg Prod.fst hvalue
  rw [Base.opening_other]
  refine (Opening.lockstep_resolve c.config.extensions _ (Base.opening_ne_index (.index i) hv) ht).bind ?_
  rintro ⟨o, t⟩ ⟨o', t'⟩ ⟨ho, ht⟩
  exact c.lockstep_complete (c.registers.pc - 1) ho ht

/-- A step that goes on after a prefix does with IX and IY in each other's places what it does after the other
prefix: the same cycles, to the same end but for the prefix that a fault shows. -/
theorem step_otherIndex (hc : c.carried = some i) (hv : Index.ofPrefix? (Bus.read bus c.registers.pc).1 = none) :
    let c' : Cpu := { c with registers := c.registers.exchanged .indexes, carried := some i.other }
    (c'.step bus).cpu =
        { (c.step bus).cpu with registers := (c.step bus).cpu.registers.exchanged .indexes } ∧
      (c'.step bus).bus = (c.step bus).bus ∧
      c'.history bus = c.history bus ∧
      ((∃ T, (c.step bus).result = .ok T ∧ (c'.step bus).result = .ok T) ∨
        ∃ a vs, (c.step bus).result = .error (.undefinedOpcode a (i.prefixByte :: vs)) ∧
          (c'.step bus).result = .error (.undefinedOpcode a (i.other.prefixByte :: vs))) := by
  intro c'
  have hruns := c.together_mirrored bus hc hv
  have helapsed : (c'.performed bus).elapsed = (c.performed bus).elapsed := hruns.elapsed
  have hending : (c.performed bus).value.1.Mirrored i (c'.performed bus).value.1 := hruns.value.1
  have hlike : (c.performed bus).value.2.Like .indexes True (c'.performed bus).value.2 := hruns.value.2
  rw [cpu_step, cpu_step, bus_step, bus_step, history_eq, history_eq, result_step, result_step, helapsed]
  have htask : c.task = .instruction (some i) := by simp only [task, hc]
  have htask' : c'.task = .instruction (some i.other) := rfl
  rw [htask, htask']
  rcases hp : (c.performed bus).value with ⟨e, s⟩
  rcases hp' : (c'.performed bus).value with ⟨e', s'⟩
  rw [hp, hp'] at hending hlike
  obtain ⟨w, rfl, hw⟩ := hlike
  obtain rfl : w = s.registers.wz := hw trivial
  refine ⟨?_, hruns.bus, htask ▸ hruns.history, ?_⟩
  · cases hending <;> rfl
  · cases hending with
    | ok => exact .inl ⟨_, rfl, rfl⟩
    | error a vs => exact .inr ⟨a, vs, rfl, rfl⟩

/-- Counting up: IX after one prefix, IY after the other. -/
theorem step_otherIndex_increment :
    let c : Cpu := { carried := some .ix, registers := { ix := 0x12FF } }
    let c' : Cpu := { carried := some .iy, registers := { iy := 0x12FF } }
    let bus : FlatBus := { memory := Memory.zero.set 0 0x23 }
    (c.step bus).cpu.registers.ix = 0x1300 ∧ (c'.step bus).cpu.registers.iy = 0x1300 := by
  intro c c' bus
  have hget : bus.memory.get 0 = 0x23 := by simp [bus]
  have hopcode : (on opcode c.starting bus).value.1 = 0x23 := hget
  have htask : c.task = .instruction (some .ix) := rfl
  have hix : (c.step bus).cpu.registers.ix = 0x1300 := by
    rw [registers_step, performed, htask, on, perform_carried, ← on, on_bind, hopcode]
    rfl
  refine ⟨hix, ?_⟩
  have hother := (step_otherIndex c bus rfl (congrArg Index.ofPrefix? hget)).1
  exact (congrArg (fun d => d.registers.iy) hother).trans hix

end Cpu

end Z80Machine
