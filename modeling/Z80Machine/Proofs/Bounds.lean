import Z80Machine.Proofs.Decoding
import Z80Machine.Proofs.Failure
import Z80Machine.Proofs.SlidingWindow
import Z80Machine.Proofs.Sourcing
import Z80Machine.Proofs.Timing

/-!
How much a step can take. An operation charges its own time and at most a surcharge of its kind, so that nothing in a
slot goes beyond 23 T-states with the way there; only a prefix before ED adds to that. A device makes a step longer by
four T-states for each byte it supplies, and its bytes end the step soon after they end.
-/
namespace Z80Machine

open Microcode

section Surcharge

def Jump.surcharge : Jump → Nat
  | .relative (some _) | .countdown => 5
  | .return (some _) => 6
  | .call (some _) => 7
  | _ => 0

def Extension.surcharge : Extension → Nat
  | .copy _ true | .copyPattern => 5
  | _ => 0

/-- The most that an operation charges beyond its own time. -/
def Operation.surcharge : Operation → Nat
  | .jump j => j.surcharge
  | .block b => if b.repeating then 5 else 0
  | .extension e => e.surcharge
  | _ => 0

variable (s : Execution) (bus : FlatBus) (k : Registers) (m : Memory)

theorem Operation.extra_le_surcharge (op : Operation) : op.extra k m ≤ op.surcharge := by
  have hif (p : Prop) [Decidable p] (n : Nat) : (if p then n else 0) ≤ n := by
    split <;> omega
  cases op with
  | jump j =>
    simp only [extra, Jump.extra]
    split <;> first | exact hif _ _ | exact Nat.zero_le _
  | block b =>
    rcases b with ⟨kind, d, r⟩
    cases r with
    | false => exact Nat.le_refl _
    | true => exact hif _ _
  | extension e =>
    simp only [extra, Extension.extra]
    split <;> first | exact hif _ _ | exact Nat.zero_le _
  | _ => exact Nat.zero_le _

theorem Page.surcharge_slot (p : Page) (v : Byte) {i : Instruction} (h : p.slot v = .instruction i) :
    p.lead + i.operation.time + i.operation.surcharge ≤ 23 := by
  have hslots : ∀ v : Byte, ∀ i ∈ (p.slot v).instruction?,
      p.lead + i.operation.time + i.operation.surcharge ≤ 23 := by
    rcases p with (_ | _ | _) | _ | _ | (_ | _) <;> decide
  exact hslots v i (by rw [h]; rfl)

def Resolution.most : Resolution → Nat
  | .instruction i => i.operation.time + i.operation.surcharge
  | .carry _ | .undefined _ => 0

theorem Cpu.elapsed_complete_le (c : Cpu) (start : Word) (o : Resolution) :
    (on (c.complete start o) s bus).elapsed ≤ o.most := by
  cases o with
  | instruction i =>
    have hextra := i.operation.extra_le_surcharge s.registers bus.memory
    rw [complete, elapsed_bind, Operation.elapsed_execute, on_pure, Nat.add_zero, Resolution.most]
    omega
  | carry i => exact Nat.le_refl _
  | undefined w => cases h : c.config.undefined <;> simp only [complete, h] <;> exact Nat.le_refl _

theorem Target.most_resolution (t : Target) (extensions : Bool) (seen : Window) :
    t.page.lead + (t.resolution extensions seen).most ≤ 23 := by
  have hlead : t.page.lead ≤ 23 := by
    rcases t.page with (_ | _ | _) | _ | _ | (_ | _) <;> decide
  rw [resolution]
  cases hi : t.page.slot t.byte with
  | instruction i =>
    have hslot := Page.surcharge_slot t.page t.byte hi
    dsimp only
    split
    · rw [Resolution.most]
      omega
    · exact hlead
  | lead l => cases l <;> exact hlead
  | undefined => exact hlead

end Surcharge

section Way

theorem time_followBase_le (m : Memory) (b : Base) (a : Word) :
    (followBase m b a).time ≤ (followBase m b a).page.lead := by
  have hlead := time_followBase m b a
  split at hlead
  · simp_all
  · split at hlead <;> omega

/-- At most three opcode bytes lead to a slot, and a prefix before ED is all that lengthens the way. -/
theorem follow_le (m : Memory) (a : Word) (carried : Option Index) :
    let t := follow m a carried
    t.opcode.length ≤ 3 ∧ 4 ≤ t.time ∧ t.time ≤ t.page.lead + 4 := by
  intro t
  have hlength : 1 ≤ t.opcode.length ∧ t.opcode.length ≤ 3 := by
    cases carried with
    | some i =>
      have hbase := length_followBase m (.index i) a
      exact ⟨hbase.1, Nat.le_succ_of_le hbase.2⟩
    | none =>
      cases hp : Index.ofPrefix? (m.get a) with
      | some i =>
        have hbase := length_followBase m (.index i) (a + 1)
        simp only [t, follow_indexed m (Index.ofPrefix?_eq_some.1 hp), List.length_cons]
        omega
      | none =>
        have hbase := length_followBase m .hl a
        simp only [t, follow_plain m hp]
        omega
  have hlead := time_follow m a carried
  refine ⟨hlength.2, ?_, ?_⟩
  · rw [Target.time]
    omega
  · change t.time + _ = t.page.lead + _ at hlead
    split at hlead <;> split at hlead <;> omega

variable (b : Base) (vs : List Byte)

/-- The opcode bytes taken from a supply are the first of it, and one more past its end if it ends too early. -/
theorem opcode_followSupplied : (followSupplied b vs).opcode <+: vs ++ [0xFF] := by
  induction vs generalizing b with
  | nil =>
    rw [followSupplied_nil]
    exact List.prefix_refl _
  | cons v vs ih =>
    cases hp : Index.ofPrefix? v with
    | some i =>
      rw [followSupplied_indexed vs b (Index.ofPrefix?_eq_some.1 hp)]
      exact List.prefix_cons_inj v |>.2 (ih (.index i))
    | none =>
      obtain ⟨h0, h1, -⟩ := Memory.supplying_first (v :: vs)
      have hsecond : [v, (supplied vs).1] <+: v :: vs ++ [0xFF] := by
        cases vs <;> simp [supplied]
      rw [followSupplied_plain (v :: vs) b hp]
      simp only [followBase, h0, h1]
      split
      · exact hsecond
      split
      · cases b with
        | hl => exact hsecond
        | index i => exact (List.prefix_append [v] _).trans hsecond
      · exact (List.prefix_append [v] _).trans hsecond

theorem time_followSupplied_pos : 4 ≤ (followSupplied b vs).time := by
  have hlength := length_followSupplied_pos vs b
  rw [Target.time]
  omega

/-- Each supplied byte lengthens the way by four T-states, and the prefixes are no part of what their slot declares. -/
theorem time_followSupplied (h : b ≠ .hl ∨ vs ≠ []) :
    (followSupplied b vs).time + 4 ≤ (followSupplied b vs).page.lead + 4 * vs.length := by
  induction vs generalizing b with
  | nil =>
    cases b with
    | hl => simp at h
    | index i =>
      rw [followSupplied_nil]
      exact Nat.le_refl 8
  | cons v vs ih =>
    cases hp : Index.ofPrefix? v with
    | some i =>
      have hrest := ih (.index i) (.inl nofun)
      rw [followSupplied_indexed vs b (Index.ofPrefix?_eq_some.1 hp)]
      simp only [Target.time, List.length_cons] at hrest ⊢
      omega
    | none =>
      have hbase := time_followBase_le (.supplying (v :: vs)) b 0
      rw [followSupplied_plain (v :: vs) b hp, List.length_cons]
      omega

end Way

section Opcodes

theorem Target.opcodes_cycles (t : Target) (a : Word) : (t.cycles a).filterMap Cycle.opcode? = t.opcode := by
  have hopcode (a : Word) (vs : List Byte) : (opcodeCycles a vs).filterMap Cycle.opcode? = vs := by
    induction vs generalizing a with
    | nil => rfl
    | cons v vs ih => exact congrArg (v :: ·) (ih (a + 1))
  rw [cycles, List.filterMap_append, hopcode]
  split <;> exact List.append_nil _

theorem Target.opcodes_suppliedCycles (t : Target) : t.suppliedCycles.filterMap Cycle.opcode? = t.opcode := by
  have hopcode (vs : List Byte) : (vs.map fun v => Cycle.paused (.opcode v)).filterMap Cycle.opcode? = vs := by
    induction vs with
    | nil => rfl
    | cons v vs ih => exact congrArg (v :: ·) ih
  rw [suppliedCycles, List.filterMap_append, hopcode]
  split <;> exact List.append_nil _

end Opcodes

namespace Cpu

variable (c : Cpu) {bus : FlatBus} {t : Target}

/-- All opcode bytes of a step are fetched on the way to its slot. -/
theorem opcodes_history (h : c.decoded bus.memory = some t) :
    (c.history bus).filterMap Cycle.opcode? = t.opcode := by
  have hway : (c.way t).filterMap Cycle.opcode? = t.opcode := by
    rw [way]
    split
    · exact t.opcodes_suppliedCycles
    · exact t.opcodes_cycles c.registers.pc
  have hmakes := (c.makes_complete c.start (c.meaning c.config t) (c.arriving t)).history (c.reached bus)
  have hcomplete :
      (Microcode.history (c.complete c.start (c.meaning c.config t)) (c.arriving t) (c.reached bus)).filterMap
        Cycle.opcode? = [] :=
    List.filterMap_eq_nil_iff.2 fun x hx => (hmakes x hx).2
  rw [(c.performed_decoded h).2, List.filterMap_append, hway, hcomplete, List.append_nil]

theorem duration_decoded (h : c.decoded bus.memory = some t) :
    Cycle.duration (c.way t) ≤ Cycle.duration (c.history bus) ∧
      Cycle.duration (c.history bus) ≤ Cycle.duration (c.way t) + (c.meaning c.config t).most := by
  have helapsed : (c.performed bus).elapsed = Cycle.duration (c.way t) + _ :=
    congrArg Outcome.elapsed (c.performed_decoded h).1
  have hcomplete := c.elapsed_complete_le (c.arriving t) (c.reached bus) c.start (c.meaning c.config t)
  rw [elapsed_performed] at helapsed
  omega

/-- Without an instruction a step fetches the byte at which a halted processor stays, or none. -/
theorem undecoded_le (h : c.decoded bus.memory = none) :
    ((c.history bus).filterMap Cycle.opcode?).length ≤ 1 ∧
      4 ≤ Cycle.duration (c.history bus) ∧ Cycle.duration (c.history bus) ≤ 19 := by
  rw [history_eq]
  rcases decoded_eq_none.1 h with ht | ⟨ht, hm⟩ | ht
  · have hduration : Cycle.duration (Microcode.history acceptNmi c.starting bus) = 11 := rfl
    rw [ht, perform, hduration]
    exact ⟨Nat.zero_le _, by decide⟩
  · have hfetched := (c.makes_vectored (P := fun x => x.opcode? = none) (fun _ => rfl) (fun _ _ => rfl) (fun _ _ => rfl)
      ⟨c.accepted, .clear, false, none⟩).history bus
    have hduration : Cycle.duration ((c.vectored ⟨c.accepted, .clear, false, none⟩).history bus) =
        if c.registers.im = 1 then 13 else 19 := by
      rw [vectored]
      split <;> rfl
    rw [ht, perform, Microcode.history, c.acceptInterrupt_vectored hm, hduration, List.filterMap_eq_nil_iff.2 hfetched]
    refine ⟨Nat.zero_le _, ?_⟩
    split <;> decide
  · have hduration : Cycle.duration (Microcode.history idle c.starting bus) = 4 := rfl
    rw [ht, perform, hduration]
    exact ⟨Nat.le_refl 1, by decide⟩

section Tasks

variable {c}

theorem bounds_unsupplied (h : c.takesSupply = false) :
    ((c.history bus).filterMap Cycle.opcode?).length ≤ 3 ∧
      4 ≤ Cycle.duration (c.history bus) ∧ Cycle.duration (c.history bus) ≤ 27 := by
  cases hd : c.decoded bus.memory with
  | none =>
    have hbounds := c.undecoded_le hd
    omega
  | some t =>
    rcases decoded_eq_some.1 hd with ⟨ht, htarget⟩ | ⟨ht, hm, -⟩
    · have hway : Cycle.duration (c.way t) = t.time := by
        simp only [way, ht, Target.duration_cycles]
      have hduration := c.duration_decoded hd
      have hmost : t.page.lead + (c.meaning c.config t).most ≤ 23 := t.most_resolution ..
      have hfollow : t.opcode.length ≤ 3 ∧ 4 ≤ t.time ∧ t.time ≤ t.page.lead + 4 :=
        htarget ▸ follow_le bus.memory c.registers.pc c.carried
      rw [c.opcodes_history hd]
      omega
    · rw [takesSupply_iff.2 ⟨ht, hm⟩] at h
      contradiction

variable (bus) in
theorem bounds_supplied (h : c.takesSupply = true) :
    (c.history bus).filterMap Cycle.opcode? <+: c.interruptData ++ [0xFF] ∧
      6 ≤ Cycle.duration (c.history bus) ∧
      Cycle.duration (c.history bus) ≤ 21 + 4 * c.interruptData.length := by
  obtain ⟨ht, hm⟩ := takesSupply_iff.1 h
  have hd : c.decoded bus.memory = some (followSupplied .hl c.interruptData) := decoded_eq_some.2 (.inr ⟨ht, hm, rfl⟩)
  have hway : Cycle.duration (c.way (followSupplied .hl c.interruptData)) =
      2 + (followSupplied .hl c.interruptData).time := by
    simp only [way, ht, Cycle.duration, Target.duration_suppliedCycles]
    rfl
  have hduration := c.duration_decoded hd
  rw [c.opcodes_history hd]
  refine ⟨opcode_followSupplied .hl c.interruptData, ?_⟩
  by_cases hdata : c.interruptData = []
  · -- nothing supplied reads as FF, a restart
    have htarget : followSupplied .hl c.interruptData =
        { base := .hl, page := .opening .hl, byte := 0xFF, opcode := [0xFF] } := by
      rw [hdata, followSupplied_nil]
    have hslot : Page.slot (.opening .hl) 0xFF = .instruction ⟨.jump (.restart 7), 11⟩ := rfl
    have hmost : (c.meaning c.config (followSupplied .hl c.interruptData)).most = 7 := by
      simp only [htarget, meaning, Target.resolution, hslot, Operation.isExtension, Bool.not_false, Bool.or_true,
        ↓reduceIte]
      rfl
    have htime : (followSupplied .hl c.interruptData).time = 4 := by
      rw [htarget]
      rfl
    omega
  · have hmost : (followSupplied .hl c.interruptData).page.lead +
        (c.meaning c.config (followSupplied .hl c.interruptData)).most ≤ 23 := Target.most_resolution ..
    have htime := time_followSupplied .hl c.interruptData (.inr hdata)
    have hlength := time_followSupplied_pos .hl c.interruptData
    omega

theorem fault_supplied (h : c.takesSupply = true) {f : Fault} (hf : (c.step bus).result = .error f) :
    f = .undefinedOpcode c.registers.pc (((c.history bus).filterMap Cycle.opcode?).rtake 4) := by
  obtain ⟨ht, hm⟩ := takesSupply_iff.1 h
  have hd : c.decoded bus.memory = some (followSupplied .hl c.interruptData) := decoded_eq_some.2 (.inr ⟨ht, hm, rfl⟩)
  have hcarried : c.carried = none := (task_eq_interrupt.1 ht).1
  rw [result_error, (c.performed_decoded hd).1, Outcome.value_after, complete_error] at hf
  obtain ⟨-, w, hw, rfl⟩ := hf
  rw [meaning, hcarried] at hw
  rw [c.opcodes_history hd, (followSupplied .hl c.interruptData).window_of_undefined hw, start, hcarried]
  exact congrArg (Fault.undefinedOpcode c.registers.pc) (Window.toList_foldl _)

end Tasks

/-- Every step ends within bounds, whatever the registers, the configuration and memory are. Taking its instruction
from memory, or none, it fetches at most three opcode bytes and takes from 4 to 27 T-states. Taking it from a device
that holds `l` bytes, it fetches of these and of one FF after them, so at most `l + 1`, reads no byte of an instruction from
memory and takes from 6 to `21 + 4 * l` T-states; if it fails, it names the last four bytes fetched. The time of a step,
failed or not, passes on the clock and is added to the total. -/
theorem step_bounds (bus : FlatBus) :
    let s := c.step bus
    let vs := (c.history bus).filterMap Cycle.opcode?
    let n := Cycle.duration (c.history bus)
    let l := c.interruptData.length
    (s.cpu.total = c.total.later n ∧ s.bus.clock = bus.clock + n ∧
      ∀ time, s.result = .ok time → time = BitVec.ofNat 32 n) ∧
    (c.takesSupply = false → vs.length ≤ 3 ∧ 4 ≤ n ∧ n ≤ 27) ∧
    (c.takesSupply = true →
      vs <+: c.interruptData ++ [0xFF] ∧ vs.length ≤ l + 1 ∧ (∀ x ∈ c.history bus, x.isCode = false) ∧
      6 ≤ n ∧ n ≤ 21 + 4 * l ∧
      ∀ f, s.result = .error f → f = .undefinedOpcode c.registers.pc (vs.rtake 4)) := by
  intro s vs n l
  refine ⟨⟨c.total_step bus, ?_, ?_⟩, bounds_unsupplied, ?_⟩
  · rw [clock_step, elapsed_performed]
  · intro time htime
    rw [result_step, elapsed_performed] at htime
    cases hv : (c.performed bus).value.1 with
    | ok carried =>
      rw [hv] at htime
      exact (Except.ok.inj htime).symm
    | error f =>
      rw [hv] at htime
      contradiction
  · intro htakes
    obtain ⟨hinitial, hleast, hmost⟩ := bounds_supplied bus htakes
    have hlength : vs.length ≤ l + 1 := by simpa using hinitial.length_le
    have hsource := c.ofSource_step bus
    rw [htakes] at hsource
    exact ⟨hinitial, hlength, fun x hx => (hsource x hx).isCode, hleast, hmost, fun f hf => fault_supplied htakes hf⟩

/-- A memory full of prefixes, and a device that supplies some of them before an undefined opcode: the fault names the
last four of the five bytes fetched. -/
theorem step_bounds_prefixes :
    Cycle.duration ((Cpu.new .extended).history { memory := .ofFn fun _ => 0xDD : FlatBus }) ≤ 27 ∧
    let c : Cpu := { registers := { iff1 := true }, interruptPending := true
                     interruptData := [0xDD, 0xFD, 0xDD, 0xED, 0x00] }
    Cycle.duration (c.history ({} : FlatBus)) ≤ 41 ∧
      .undefinedOpcode 0 [0xFD, 0xDD, 0xED, 0x00] =
        Fault.undefinedOpcode 0 (((c.history ({} : FlatBus)).filterMap Cycle.opcode?).rtake 4) := by
  obtain ⟨-, hmemory, -⟩ := step_bounds (.new .extended) { memory := .ofFn fun _ => 0xDD }
  obtain ⟨-, -, hdevice⟩ := step_bounds
    { registers := { iff1 := true }, interruptPending := true, interruptData := [0xDD, 0xFD, 0xDD, 0xED, 0x00] } {}
  obtain ⟨-, -, -, -, hmost, hfault⟩ := hdevice rfl
  exact ⟨(hmemory rfl).2.2, hmost, hfault _ rfl⟩

end Cpu

end Z80Machine
