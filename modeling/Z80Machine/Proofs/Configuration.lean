import Z80Machine.Proofs.Substitution

/-!
What the configuration of a processor is good for. The extensions matter only where one is decoded, the policy only to
the result of a step that decodes nothing known, and the two ports only to the writes of a machine register.
-/
namespace Z80Machine

open Microcode

theorem Target.resolution_of_plain {t : Target} (h : (t.page.slot t.byte).isExtension = false)
    (extensions extensions' : Bool) (seen : Window) :
    t.resolution extensions' seen = t.resolution extensions seen := by
  rw [resolution, resolution]
  cases hs : t.page.slot t.byte with
  | instruction i =>
    rw [hs] at h
    have hplain : i.operation.isExtension = false := h
    simp only [hplain, Bool.not_false, Bool.or_true]
  | lead l => cases l <;> rfl
  | undefined => rfl

/-- Cycles that end in the writes of a machine register through two ports, and the same through two others. -/
def Rewired (select data select' data' : Word) (cs cs' : List Cycle) : Prop :=
  ∃ before between number value,
    (∀ x ∈ before ++ between, ∀ q, x ≠ .sent q) ∧
      cs = before ++ .sent (.register select number) :: between ++ [.sent (.register data value)] ∧
      cs' = before ++ .sent (.register select' number) :: between ++ [.sent (.register data' value)]

theorem Rewired.append {select data select' data' : Word} {cs cs' ds : List Cycle}
    (h : Rewired select data select' data' cs cs') (hd : ∀ x ∈ ds, ∀ q, x ≠ .sent q) :
    Rewired select data select' data' (ds ++ cs) (ds ++ cs') := by
  obtain ⟨before, between, number, value, hsilent, rfl, rfl⟩ := h
  refine ⟨ds ++ before, between, number, value, ?_, by simp, by simp⟩
  rw [List.append_assoc, List.forall_mem_append]
  exact ⟨hd, hsilent⟩

section Operations

variable {config config' : Config} (previous : Flags) {op : Operation}

theorem Operation.execute_of_ports (hs : config'.selectPort = config.selectPort)
    (hd : config'.dataPort = config.dataPort) (op : Operation) :
    op.execute config' previous = op.execute config previous := by
  cases op with
  | extension e =>
    cases e with
    | setRegister | setRegisterImmediate => simp only [execute, Extension.execute, hs, hd]
    | _ => rfl
  | _ => rfl

theorem Operation.execute_of_not_writesRegister (h : op.writesRegister = false) :
    op.execute config' previous = op.execute config previous := by
  cases op with
  | extension e =>
    cases e with
    | setRegister | setRegisterImmediate => contradiction
    | _ => rfl
  | _ => rfl

theorem Operation.rewired_execute (config config' : Config) (previous : Flags) (h : op.writesRegister = true)
    (s : Execution) (bus : FlatBus) :
    let o := on (op.execute config previous) s bus
    let o' := on (op.execute config' previous) s bus
    o'.value = o.value ∧ o'.bus.memory = o.bus.memory ∧ o'.elapsed = o.elapsed ∧
      Rewired config.selectPort config.dataPort config'.selectPort config'.dataPort
        (history (op.execute config previous) s bus) (history (op.execute config' previous) s bus) := by
  cases op with
  | extension e =>
    cases e with
    | setRegister =>
      rcases s with ⟨k, l, d, _ | bytes⟩ <;>
        exact ⟨rfl, rfl, rfl, [_], [], _, k.a, by simp, rfl, rfl⟩
    | setRegisterImmediate =>
      rcases s with ⟨k, l, d, _ | bytes⟩ <;>
        exact ⟨rfl, rfl, rfl, [_], [_], _, _, by simp, rfl, rfl⟩
    | _ => contradiction
  | _ => contradiction

end Operations

namespace Cpu

variable (c : Cpu) (config : Config) {bus : FlatBus}

section Performed

variable {t : Target}

/-- With another configuration a step goes the same way and then does with the slot what that makes of it. -/
theorem performed_configured (h : c.decoded bus.memory = some t) :
    let o := (c.configured config).complete c.start (c.meaning config t)
    (c.configured config).performed bus = (on o (c.arriving t) (c.reached bus)).after (Cycle.duration (c.way t)) ∧
      (c.configured config).history bus = c.way t ++ Microcode.history o (c.arriving t) (c.reached bus) := by
  have hdecoded : (c.configured config).decoded bus.memory = some t := h
  have hconfigured := performed_decoded _ hdecoded
  rw [reached_configured] at hconfigured
  exact hconfigured

theorem complete_of_ports (hu : config.undefined = c.config.undefined) (hs : config.selectPort = c.config.selectPort)
    (hd : config.dataPort = c.config.dataPort) (start : Word) (o : Resolution) :
    (c.configured config).complete start o = c.complete start o := by
  cases o with
  | instruction i =>
    have hexecute := i.operation.execute_of_ports c.latch hs hd
    exact congrArg (fun m : Microcode Unit => m >>= fun _ => (pure (.ok none) : Microcode Ending)) hexecute
  | carry i => rfl
  | undefined w =>
    have hconfig : (c.configured config).config.undefined = c.config.undefined := hu
    rw [complete, complete, hconfig]

theorem perform_configured (h : c.decoded bus.memory = none) :
    (c.configured config).perform c.task c.starting = c.perform c.task c.starting := by
  rcases decoded_eq_none.1 h with ht | ⟨ht, hm⟩ | ht
  · rw [ht]
    rfl
  · rw [ht]
    exact ((c.configured config).acceptInterrupt_vectored hm).trans (c.acceptInterrupt_vectored hm).symm
  · rw [ht]
    rfl

theorem step_configured_of_performed (hp : (c.configured config).performed bus = c.performed bus) :
    ((c.configured config).step bus).result = (c.step bus).result ∧
      ((c.configured config).step bus).cpu = (c.step bus).cpu.configured config ∧
      ((c.configured config).step bus).bus = (c.step bus).bus := by
  refine ⟨?_, ?_, ?_⟩
  · rw [result_step, result_step, hp]
  · rw [cpu_step, cpu_step, hp]
    rfl
  · rw [bus_step, bus_step, hp]

theorem same_of_none (h : c.decoded bus.memory = none) :
    (c.configured config).performed bus = c.performed bus ∧ (c.configured config).history bus = c.history bus := by
  have hperform := c.perform_configured config h
  constructor
  · exact congrArg (fun m : Activity (Ending × Execution) => m.run bus) hperform
  · rw [history_eq, history_eq]
    exact congrArg (fun m : Activity (Ending × Execution) => m.history bus) hperform

theorem same_configured (h : ∀ t, c.decoded bus.memory = some t →
      (c.configured config).complete c.start (c.meaning config t) = c.complete c.start (c.meaning c.config t)) :
    (c.configured config).performed bus = c.performed bus ∧ (c.configured config).history bus = c.history bus := by
  cases hd : c.decoded bus.memory with
  | none => exact c.same_of_none config hd
  | some t =>
    obtain ⟨hperformed, hhistory⟩ := c.performed_configured config hd
    obtain ⟨hperformed', hhistory'⟩ := c.performed_decoded hd
    rw [hperformed, hhistory, hperformed', hhistory', h t hd]
    exact ⟨rfl, rfl⟩

end Performed

section Fields

/-- With and without extensions, a step is the same unless an extension is decoded. -/
theorem same_extensions (extensions : Bool)
    (h : ∀ t, c.decoded bus.memory = some t → (t.page.slot t.byte).isExtension = false) :
    let config := { c.config with extensions }
    (c.configured config).performed bus = c.performed bus ∧ (c.configured config).history bus = c.history bus := by
  refine c.same_configured _ fun t ht => ?_
  have hmeaning : c.meaning { c.config with extensions } t = c.meaning c.config t :=
    Target.resolution_of_plain (h t ht) ..
  rw [hmeaning]
  exact c.complete_of_ports _ rfl rfl rfl _ _

theorem complete_policy (start : Word) (o : Resolution) (s : Execution) (bus : FlatBus) :
    let p := (c.configured { c.config with undefined := .nop }).complete start o
    let q := (c.configured { c.config with undefined := .fault }).complete start o
    (on q s bus).value.2 = (on p s bus).value.2 ∧ (on q s bus).bus = (on p s bus).bus ∧
      Microcode.history q s bus = Microcode.history p s bus ∧
      ((on q s bus).value.1 = (on p s bus).value.1 ∨
        (on p s bus).value.1 = .ok none ∧ ∃ a opcode, (on q s bus).value.1 = .error (.undefinedOpcode a opcode)) := by
  intro p q
  cases o with
  | instruction i =>
    have hsame : q = p := by
      have hexecute : i.operation.execute { c.config with undefined := .fault } c.latch =
          i.operation.execute { c.config with undefined := .nop } c.latch :=
        i.operation.execute_of_ports c.latch rfl rfl
      exact congrArg (fun m : Microcode Unit => m >>= fun _ => (pure (.ok none) : Microcode Ending)) hexecute
    rw [hsame]
    exact ⟨rfl, rfl, rfl, .inl rfl⟩
  | carry i => exact ⟨rfl, rfl, rfl, .inl rfl⟩
  | undefined w => exact ⟨rfl, rfl, rfl, .inr ⟨rfl, start, w.toList, rfl⟩⟩

theorem performed_policy (bus : FlatBus) :
    let p := c.configured { c.config with undefined := .nop }
    let q := c.configured { c.config with undefined := .fault }
    (q.performed bus).value.2 = (p.performed bus).value.2 ∧ (q.performed bus).bus = (p.performed bus).bus ∧
      q.history bus = p.history bus ∧
      ((q.performed bus).value.1 = (p.performed bus).value.1 ∨
        (p.performed bus).value.1 = .ok none ∧
          ∃ a opcode, (q.performed bus).value.1 = .error (.undefinedOpcode a opcode)) := by
  intro p q
  cases hd : c.decoded bus.memory with
  | none =>
    obtain ⟨hp, hh⟩ := c.same_of_none { c.config with undefined := .nop } hd
    obtain ⟨hp', hh'⟩ := c.same_of_none { c.config with undefined := .fault } hd
    rw [hp, hh, hp', hh']
    exact ⟨rfl, rfl, rfl, .inl rfl⟩
  | some t =>
    obtain ⟨hp, hh⟩ := c.performed_configured { c.config with undefined := .nop } hd
    obtain ⟨hp', hh'⟩ := c.performed_configured { c.config with undefined := .fault } hd
    obtain ⟨hvalue, hbus, hhistory, hending⟩ := c.complete_policy c.start (c.meaning c.config t) (c.arriving t)
      (c.reached bus)
    rw [hp, hh, hp', hh']
    exact ⟨hvalue, hbus, congrArg (c.way t ++ ·) hhistory, hending⟩

/-- The policy decides on the result alone: what fails under the one passes under the other. -/
theorem step_policy :
    let p := c.configured { c.config with undefined := .nop }
    let q := c.configured { c.config with undefined := .fault }
    (q.step bus).cpu = (p.step bus).cpu.configured q.config ∧ (q.step bus).bus = (p.step bus).bus ∧
      q.history bus = p.history bus ∧
      ∃ time, (p.step bus).result = .ok time ∧
        ((q.step bus).result = .ok time ∨
          ∃ a opcode, (q.step bus).result = .error (.undefinedOpcode a opcode)) := by
  intro p q
  obtain ⟨hvalue, hbus, hhistory, hending⟩ := c.performed_policy bus
  have helapsed : (q.performed bus).elapsed = (p.performed bus).elapsed := by
    rw [elapsed_performed, elapsed_performed]
    exact congrArg Cycle.duration hhistory
  obtain ⟨carried, hok⟩ : ∃ carried, (p.performed bus).value.1 = .ok carried := by
    cases hp : (p.performed bus).value.1 with
    | ok carried => exact ⟨carried, rfl⟩
    | error f => exact absurd (fault_of_error p bus hp).1 nofun
  have hcarried : (q.step bus).cpu.carried = (p.step bus).cpu.carried := by
    rw [carried_step, carried_step]
    rcases hending with hsame | ⟨hpasses, a, opcode, hfails⟩
    · rw [hsame]
    · rw [hpasses, hfails]
  refine ⟨?_, ?_, hhistory, BitVec.ofNat 32 (p.performed bus).elapsed, ?_, ?_⟩
  · rw [cpu_step, cpu_step] at hcarried ⊢
    simp only [afterStep] at hcarried ⊢
    rw [hcarried, hvalue, helapsed]
    rfl
  · rw [bus_step, bus_step]
    exact hbus
  · rw [result_step, hok]
    rfl
  · rcases hending with hsame | ⟨-, a, opcode, hfault⟩
    · left
      rw [result_step, helapsed, hsame, hok]
      rfl
    · exact .inr ⟨a, opcode, (result_error q bus _).2 hfault⟩

theorem operation?_decoded :
    c.operation? bus = (c.decoded bus.memory).bind fun t => (c.meaning c.config t).operation? := by
  cases hd : c.decoded bus.memory with
  | some t =>
    rcases decoded_eq_some.1 hd with ⟨ht, rfl⟩ | ⟨ht, hm, rfl⟩
    · exact c.operation?_instruction bus ht
    · rw [operation?, resolution?_supplied bus ht hm, Option.bind_some, Option.bind_some, meaning,
        (task_eq_interrupt.1 ht).1]
      rfl
  | none =>
    rw [operation?, resolution?]
    rcases decoded_eq_none.1 hd with ht | ⟨ht, hm⟩ | ht
    · simp only [ht, Option.bind_none]
    · simp only [ht, hm, ↓reduceIte, Option.bind_none]
    · simp only [ht, Option.bind_none]

theorem same_ports (select data : Word) (h : c.writesRegister bus = false) :
    let config := { c.config with selectPort := select, dataPort := data }
    (c.configured config).performed bus = c.performed bus ∧ (c.configured config).history bus = c.history bus := by
  refine c.same_configured _ fun t ht => ?_
  rw [writesRegister, operation?_decoded, ht, Option.bind_some] at h
  have hmeaning : c.meaning { c.config with selectPort := select, dataPort := data } t = c.meaning c.config t := rfl
  rw [hmeaning]
  cases ho : c.meaning c.config t with
  | instruction i =>
    rw [ho] at h
    have hexecute : i.operation.execute { c.config with selectPort := select, dataPort := data } c.latch =
        i.operation.execute c.config c.latch := Operation.execute_of_not_writesRegister c.latch h
    exact congrArg (fun m : Microcode Unit => m >>= fun _ => (pure (.ok none) : Microcode Ending)) hexecute
  | carry i => rfl
  | undefined w => rfl

theorem silent_way (t : Target) : ∀ x ∈ c.way t, ∀ q, x ≠ .sent q := by
  have hpaused (p : Pause) (q : Send) : Cycle.paused p ≠ .sent q := by simp
  have hreceived (r : Receive) (v : Byte) (q : Send) : Cycle.received r v ≠ .sent q := by simp
  rw [way]
  split
  · have hsupplied : ∀ x ∈ t.suppliedCycles, ∀ q, x ≠ .sent q :=
      t.forall_mem_suppliedCycles (fun v => hpaused (.opcode v)) (fun v => hpaused (.operand v)) (hpaused (.internal 2))
    exact List.forall_mem_cons.2 ⟨hpaused (.internal 2), hsupplied⟩
  · exact t.forall_mem_cycles c.registers.pc (fun a => hreceived (.opcode a)) (fun a => hreceived (.operand a))
      (hpaused (.internal 2))

theorem rewired_step (select data : Word) (h : c.writesRegister bus = true) :
    let c' := c.configured { c.config with selectPort := select, dataPort := data }
    (c'.performed bus).value = (c.performed bus).value ∧
      (c'.performed bus).bus.memory = (c.performed bus).bus.memory ∧
      (c'.performed bus).elapsed = (c.performed bus).elapsed ∧
      Rewired c.config.selectPort c.config.dataPort select data (c.history bus) (c'.history bus) := by
  intro c'
  rw [writesRegister, operation?_decoded] at h
  cases hd : c.decoded bus.memory with
  | none =>
    rw [hd] at h
    contradiction
  | some t =>
    rw [hd, Option.bind_some] at h
    obtain ⟨i, hi, hop⟩ : ∃ i, c.meaning c.config t = .instruction i ∧ i.operation.writesRegister = true := by
      cases ho : c.meaning c.config t with
      | instruction i =>
        rw [ho] at h
        exact ⟨i, rfl, h⟩
      | carry i | undefined w =>
        rw [ho] at h
        contradiction
    obtain ⟨hp, hh⟩ := c.performed_decoded hd
    obtain ⟨hp', hh'⟩ := c.performed_configured { c.config with selectPort := select, dataPort := data } hd
    obtain ⟨hvalue, hmemory, helapsed, hrewired⟩ :=
      Operation.rewired_execute c.config c'.config c.latch hop (c.arriving t) (c.reached bus)
    have hi' : c.meaning { c.config with selectPort := select, dataPort := data } t = .instruction i := hi
    rw [hi, complete] at hp hh
    rw [hi', complete] at hp' hh'
    rw [hp, hp', hh, hh', history_bind, history_bind]
    simp only [on_bind, on_pure, history_pure, List.append_nil, Outcome.value_after, Outcome.bus_after,
      Outcome.elapsed_after]
    refine ⟨congrArg (fun p : Unit × Execution => (Except.ok none, p.2)) hvalue, hmemory, ?_, ?_⟩
    · exact congrArg (fun n => Cycle.duration (c.way t) + (n + 0)) helapsed
    · exact hrewired.append (c.silent_way t)

/-- The ports matter only to the writes of a machine register. -/
theorem step_ports (select data : Word) :
    let c' := c.configured { c.config with selectPort := select, dataPort := data }
    (c'.step bus).result = (c.step bus).result ∧ (c'.step bus).cpu = (c.step bus).cpu.configured c'.config ∧
      (c'.step bus).bus.memory = (c.step bus).bus.memory ∧ (c'.step bus).bus.ports = (c.step bus).bus.ports ∧
      (c'.step bus).bus.clock = (c.step bus).bus.clock ∧
      if c.writesRegister bus then
        Rewired c.config.selectPort c.config.dataPort select data (c.history bus) (c'.history bus)
      else (c'.step bus).bus = (c.step bus).bus ∧ c'.history bus = c.history bus := by
  intro c'
  cases hw : c.writesRegister bus with
  | false =>
    obtain ⟨hperformed, hhistory⟩ := c.same_ports select data hw
    obtain ⟨hresult, hcpu, hbus⟩ := c.step_configured_of_performed _ hperformed
    rw [hbus]
    exact ⟨hresult, hcpu, rfl, rfl, rfl, rfl, hhistory⟩
  | true =>
    obtain ⟨hvalue, hmemory, helapsed, hrewired⟩ := c.rewired_step select data hw
    have hduration : Cycle.duration (c'.history bus) = Cycle.duration (c.history bus) := by
      rw [← elapsed_performed, ← elapsed_performed, helapsed]
    refine ⟨?_, ?_, ?_, ?_, ?_, hrewired⟩
    · rw [result_step, result_step, hvalue, helapsed]
    · rw [cpu_step, cpu_step, hvalue, helapsed]
      rfl
    · rw [bus_step, bus_step, hmemory]
    · rw [ports_step, ports_step]
    · rw [clock_step, clock_step, helapsed]

end Fields

/-- The configuration affects what it names. With and without extensions a step is the same unless an extension is
decoded. The policy decides on the result alone, where the step decodes what is undefined. The ports are those of the
writes of a machine register, and a step is else the same. And without extensions, a byte that stands for one does
what a byte `y` does that stands for nothing on its page, in every state. -/
theorem step_configured (bus : FlatBus) :
    (∀ extensions, (∀ t, c.decoded bus.memory = some t → (t.page.slot t.byte).isExtension = false) →
      let c' := c.configured { c.config with extensions }
      (c'.step bus).result = (c.step bus).result ∧ (c'.step bus).cpu = (c.step bus).cpu.configured c'.config ∧
        (c'.step bus).bus = (c.step bus).bus ∧ c'.history bus = c.history bus) ∧
    (let p := c.configured { c.config with undefined := .nop }
      let q := c.configured { c.config with undefined := .fault }
      (q.step bus).cpu = (p.step bus).cpu.configured q.config ∧ (q.step bus).bus = (p.step bus).bus ∧
        q.history bus = p.history bus ∧
        ∃ time, (p.step bus).result = .ok time ∧
          ((q.step bus).result = .ok time ∨
            ∃ a opcode, (q.step bus).result = .error (.undefinedOpcode a opcode))) ∧
    (∀ select data,
      let c' := c.configured { c.config with selectPort := select, dataPort := data }
      (c'.step bus).result = (c.step bus).result ∧ (c'.step bus).cpu = (c.step bus).cpu.configured c'.config ∧
        (c'.step bus).bus.memory = (c.step bus).bus.memory ∧ (c'.step bus).bus.ports = (c.step bus).bus.ports ∧
        (c'.step bus).bus.clock = (c.step bus).bus.clock ∧
        if c.writesRegister bus then
          Rewired c.config.selectPort c.config.dataPort select data (c.history bus) (c'.history bus)
        else (c'.step bus).bus = (c.step bus).bus ∧ c'.history bus = c.history bus) ∧
    ∀ t y, c.decoded bus.memory = some t → (t.page.slot t.byte).isExtension = true → c.config.extensions = false →
      Page.extended.slot y = .undefined →
      let c' := c.substituted y t
      let bus' := c.substitutedBus y bus t
      t.page = .extended ∧ c'.decoded bus'.memory = some (t.withByte y) ∧
        (c'.step bus').result = (c.step bus).result.mapError (Fault.withLast y) ∧
        (c'.step bus').cpu = { (c.step bus).cpu with interruptData := c'.interruptData } ∧
        (c.step bus).bus.memory = bus.memory ∧ (c'.step bus').bus.memory = bus'.memory ∧
        ∃ cs x, c.history bus = cs ++ [x] ∧ c'.history bus' = cs ++ [x.withByte y] := by
  refine ⟨fun extensions h => ?_, c.step_policy, c.step_ports, fun t y h ht hx hy => step_substituted y h ht hx hy⟩
  obtain ⟨hperformed, hhistory⟩ := c.same_extensions extensions h
  obtain ⟨hresult, hcpu, hbus⟩ := c.step_configured_of_performed _ hperformed
  exact ⟨hresult, hcpu, hbus, hhistory⟩

/-- A NOP with and without extensions; and without them ED 23 against ED 00, of which only the one stands for an
extension. -/
theorem step_configured_swap :
    ((Cpu.new .plain).step ({} : FlatBus)).result = ((Cpu.new .extended).step ({} : FlatBus)).result ∧
      let bus : FlatBus := { memory := (Memory.zero.set 0 0xED).set 1 0x23 }
      ((Cpu.new .plain).step (bus.poke 1 0x00)).result =
        ((Cpu.new .plain).step bus).result.mapError (Fault.withLast 0x00) := by
  have hnop (t : Target) (ht : (Cpu.new .extended).decoded ({} : FlatBus).memory = some t) :
      (t.page.slot t.byte).isExtension = false := by
    obtain rfl : { base := .hl, page := .opening .hl, byte := 0x00, opcode := [0x00] } = t := Option.some.inj ht
    rfl
  have hswap : (Cpu.new .plain).decoded ((Memory.zero.set 0 0xED).set 1 0x23) =
      some { base := .hl, page := .extended, byte := 0x23, opcode := [0xED, 0x23] } := by
    rfl
  obtain ⟨hextensions, -⟩ := step_configured (.new .extended) {}
  obtain ⟨-, -, -, habsent⟩ := step_configured (.new .plain) { memory := (Memory.zero.set 0 0xED).set 1 0x23 }
  obtain ⟨-, -, hresult, -⟩ := habsent _ 0x00 hswap rfl rfl rfl
  exact ⟨(hextensions false hnop).1, hresult⟩

end Cpu

end Z80Machine
