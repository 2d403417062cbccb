import Z80Machine.Proofs.Opcodes

/-!
The frame of the control state. What an operation spares, the step that executes it spares, for fetching moves only the
program counter, R and WZ; and a step that fetches nothing leaves I, the mode, the flags and both banks alone. So each
change of the shadow bank, I, the interrupt state, an index register or F has its cause in the operation executed, in an
acceptance, or in a prefix, whether the step fails or not.
-/
namespace Z80Machine

open Microcode

theorem Part.content_of_ne {p : Part} (hp : p ≠ .counter) (i j : Nat) (s : Execution) :
    p.content i s = p.content j s := by
  cases p with
  | counter => exact absurd rfl hp
  | flags | shadow | index x => rfl

section Operations

variable {op : Operation}

/-- Only the exchanges touch the shadow bank. -/
theorem Operation.exchanges_of_touches (h : op.touches .shadow) :
    op = .transfer .exchangeAf ∨ op = .transfer .exchangeBanks := by
  cases op with
  | transfer t => cases t <;> simp_all [touches, Transfer.touches]
  | arithmetic a => cases a <;> simp [touches, Arithmetic.touches] at h
  | bit b => cases b <;> simp [touches, BitOperation.touches] at h
  | transmit t => cases t <;> simp [touches, Transmission.touches] at h
  | extension e => cases e <;> simp [touches, Extension.touches] at h
  | jump j | control o | block b => simp [touches] at h

theorem Operation.i_controlled (h : op ≠ .transfer .loadToI) (a : Byte) (k : Registers × Bool) :
    (op.controlled a k).1.i = k.1.i := by
  cases op with
  | transfer t =>
    cases t with
    | loadToI => exact absurd rfl h
    | _ => rfl
  | jump j => cases j <;> rfl
  | control o => cases o <;> rfl
  | _ => rfl

theorem Operation.im_controlled (h : ∀ mode, op ≠ .control (.interruptMode mode)) (a : Byte)
    (k : Registers × Bool) : (op.controlled a k).1.im = k.1.im := by
  cases op with
  | transfer t => cases t <;> rfl
  | jump j => cases j <;> rfl
  | control o =>
    cases o with
    | interruptMode mode => exact absurd rfl (h mode)
    | _ => rfl
  | _ => rfl

theorem Operation.halted_controlled (op : Operation) (a : Byte) (k : Registers × Bool) :
    (op.controlled a k).1.halted = (k.1.halted || op == .control .halt) := by
  cases op with
  | transfer t => cases t <;> exact (Bool.or_false _).symm
  | jump j => cases j <;> exact (Bool.or_false _).symm
  | control o =>
    cases o with
    | halt => exact (Bool.or_true _).symm
    | _ => exact (Bool.or_false _).symm
  | _ => exact (Bool.or_false _).symm

theorem Operation.enables_changed (op : Operation) (e : Enables) :
    ((op.enables e).iff1 ≠ e.iff1 →
        op = .control .enableInterrupts ∨ op = .control .disableInterrupts ∨ op = .jump .returnNmi) ∧
      ((op.enables e).iff2 ≠ e.iff2 → op = .control .enableInterrupts ∨ op = .control .disableInterrupts) := by
  cases op with
  | jump j => cases j <;> simp [Operation.enables]
  | control o => cases o <;> simp [Operation.enables]
  | _ => simp [Operation.enables]

end Operations

theorem Task.enables_changed (t : Task) (e : Enables) :
    ((t.enables e).iff1 ≠ e.iff1 → t = .nmi ∨ t = .interrupt) ∧
      ((t.enables e).iff2 ≠ e.iff2 → t = .interrupt) := by
  cases t <;> simp [Task.enables]

namespace Cpu

variable {β : Type} [Bus β] (c : Cpu) {bus : β}

/-- What the operation keeps, a step that fetches it keeps from its beginning. -/
theorem kept_of_resolution {δ : Type} {f : Execution → δ}
    (hf : ∀ (s : Execution) (pc : Word) (r : Byte) (wz : Word) (supply : Option (List Byte)),
      f { s with registers := { s.registers with pc := pc, r := r, wz := wz }, supply := supply } = f s)
    {o : Resolution} (ho : c.resolution? bus = some o)
    (hop : ∀ op, o.operation? = some op →
      ∀ s (bus' : β), f (on (op.execute c.config c.latch) s bus').value.2 = f s) :
    f (c.performed bus).value.2 = f c.entering := by
  have hsourced : f (c.sourced bus).value.2 = f c.entering := (c.keeps_sourcing hf).on _ _
  rw [c.value_sourced ho, ← hsourced]
  cases hq : o.operation? with
  | none => rfl
  | some op => exact hop op hq _ _

variable (bus) in
/-- Where the operation does not touch a part, the step leaves it alone. -/
theorem content_step {p : Part} (hp : p ≠ .counter)
    (hop : ∀ op, c.operation? bus = some op → op.touches p = false) :
    p.content 0 (c.performed bus).value.2 = p.content 0 c.starting := by
  cases ho : c.resolution? bus with
  | none =>
    obtain ⟨sp, pc, wz, iff1, iff2, halted, hregisters⟩ := c.registers_unfetched ho
    rcases p with _ | _ | (_ | _) | _
    case counter => exact absurd rfl hp
    all_goals
      simp only [Part.content, hregisters]
      rfl
  | some o =>
    have hentering : p.content 0 c.entering = p.content 0 c.starting := by
      rw [entering]
      rcases p with _ | _ | (_ | _) | _
      case counter => exact absurd rfl hp
      all_goals split <;> rfl
    rw [← hentering]
    refine c.kept_of_resolution (f := fun s => p.content 0 s) ?_ ho fun op hq s bus' => ?_
    · intro s pc r wz supply
      rcases p with _ | _ | (_ | _) | _
      case counter => exact absurd rfl hp
      all_goals rfl
    · have hspares : op.touches p = false := hop op ((operation?_of_resolution c ho).trans hq)
      exact ((op.spares hspares c.config c.latch).on s bus').trans (Part.content_of_ne hp ..)

variable (bus)

theorem shadow_step :
    let k := c.registers
    let k' := (c.step bus).cpu.registers
    (c.operation? bus ≠ some (.transfer .exchangeAf) → k'.shadow.a = k.shadow.a ∧ k'.shadow.f = k.shadow.f) ∧
      (c.operation? bus ≠ some (.transfer .exchangeBanks) →
        k'.shadow = { k.shadow with a := k'.shadow.a, f := k'.shadow.f }) := by
  intro k k'
  have hk' : k' = (c.performed bus).value.2.registers := c.registers_step bus
  have hsourced : (c.sourced bus).value.2.registers.shadow = k.shadow := by
    have hkept : (c.sourced bus).value.2.registers.shadow = c.entering.registers.shadow :=
      (c.keeps_sourcing (f := (·.registers.shadow)) fun _ _ _ _ _ => rfl).on _ _
    rw [hkept, entering]
    split <;> rfl
  by_cases hAf : c.operation? bus = some (.transfer .exchangeAf)
  · refine ⟨absurd hAf, fun _ => ?_⟩
    rw [hk', c.value_executed hAf, ← hsourced]
    rfl
  by_cases hBanks : c.operation? bus = some (.transfer .exchangeBanks)
  · refine ⟨fun _ => ?_, absurd hBanks⟩
    rw [hk', c.value_executed hBanks, ← hsourced]
    exact ⟨rfl, rfl⟩
  have hshadow : k'.shadow = k.shadow := by
    rw [hk']
    refine c.content_step bus (p := .shadow) (by decide) fun op hop => ?_
    refine Bool.eq_false_iff.2 fun htouches => ?_
    rcases Operation.exchanges_of_touches htouches with rfl | rfl
    · exact hAf hop
    · exact hBanks hop
  rw [hshadow]
  exact ⟨fun _ => ⟨rfl, rfl⟩, fun _ => rfl⟩

theorem controlled_step {δ : Type} {g : Registers → δ}
    (hg : ∀ (k : Registers) (r : Byte) (sp pc wz : Word) (iff1 iff2 halted : Bool),
      g { k with r, sp, pc, wz, iff1, iff2, halted } = g k)
    (hcontrol : ∀ k, g (Registers.withControl {} k) = g k)
    (hop : ∀ op, c.operation? bus = some op → ∀ a k, g (op.controlled a k).1 = g k.1) :
    g (c.step bus).cpu.registers = g c.registers := by
  rw [registers_step]
  cases ho : c.resolution? bus with
  | none =>
    obtain ⟨sp, pc, wz, iff1, iff2, halted, hregisters⟩ := c.registers_unfetched ho
    rw [hregisters]
    exact hg ..
  | some o =>
    have hentering : g c.entering.registers = g c.registers := by
      rw [entering]
      split
      · exact hg c.registers c.registers.r c.registers.sp c.registers.pc c.registers.wz false false false
      · rfl
    rw [← hentering]
    have hfetch (s : Execution) (pc : Word) (r : Byte) (wz : Word) (supply : Option (List Byte)) :
        g { s.registers with pc := pc, r := r, wz := wz } = g s.registers :=
      hg s.registers r s.registers.sp pc wz s.registers.iff1 s.registers.iff2 s.registers.halted
    refine c.kept_of_resolution (f := (g ·.registers)) hfetch ho fun op hq s bus' => ?_
    have hexecute := congrArg (g ·.1) (op.control_execute s bus' c.config c.latch)
    have hkept := hop op ((operation?_of_resolution c ho).trans hq) s.registers.a s.control
    exact (hcontrol _).symm.trans (hexecute.trans (hkept.trans (hcontrol _)))

/-- Whether a processor is still halted when a step has begun: an acceptance ends the halt. -/
def haltedOn : Bool :=
  match c.task with
  | .nmi | .interrupt => false
  | .instruction _ | .idle => c.registers.halted

theorem halted_step :
    (c.step bus).cpu.registers.halted = (c.haltedOn || c.operation? bus == some (.control .halt)) := by
  rw [registers_step, haltedOn]
  cases ho : c.resolution? bus with
  | none =>
    have hop : c.operation? bus = none := by
      rw [operation?, ho]
      rfl
    rw [hop, performed]
    cases ht : c.task with
    | instruction carried =>
      rw [resolution?, ht] at ho
      contradiction
    | nmi => rfl
    | interrupt => exact (c.value_acceptInterrupt bus (im_ne_zero ht ho)).2.2.1
    | idle => exact (Bool.or_false _).symm
  | some o =>
    have hsourced : (c.sourced bus).value.2.registers.halted = c.entering.registers.halted :=
      (c.keeps_sourcing (f := (·.registers.halted)) fun _ _ _ _ _ => rfl).on _ _
    have hexecuted : (c.performed bus).value.2.registers.halted =
        (c.entering.registers.halted || o.operation? == some (.control .halt)) := by
      rw [c.value_sourced ho, ← hsourced]
      cases hq : o.operation? with
      | none => exact (Bool.or_false _).symm
      | some op =>
        have hcontrol := op.control_execute (c.sourced bus).value.2 (c.sourced bus).bus c.config c.latch
        exact (congrArg (·.1.halted) hcontrol).trans (op.halted_controlled _ _)
    rw [hexecuted, operation?_of_resolution c ho, entering]
    cases ht : c.task with
    | nmi | idle =>
      rw [resolution?, ht] at ho
      contradiction
    | _ => rfl

theorem halted_changed :
    let k := c.registers
    let k' := (c.step bus).cpu.registers
    (k.halted = false → k'.halted = true → c.operation? bus = some (.control .halt)) ∧
      (k.halted = true → k'.halted = false → c.task = .nmi ∨ c.task = .interrupt) := by
  intro k k'
  have hhalted : k'.halted = (c.haltedOn || c.operation? bus == some (.control .halt)) := c.halted_step bus
  refine ⟨fun hrunning hnow => ?_, fun hbefore hnow => ?_⟩
  · have hon : c.haltedOn = false := by
      rw [haltedOn]
      split
      · rfl
      · rfl
      · exact hrunning
      · exact hrunning
    rw [hhalted, hon, Bool.false_or] at hnow
    exact eq_of_beq hnow
  · rw [hhalted, Bool.or_eq_false_iff, haltedOn] at hnow
    cases ht : c.task with
    | nmi => exact .inl rfl
    | interrupt => exact .inr rfl
    | instruction carried | idle =>
      rw [ht] at hnow
      exact absurd (hbefore.symm.trans hnow.1) (by decide)

theorem index_changed (i : Index) (hchanged : (c.step bus).cpu.registers.index i ≠ c.registers.index i) :
    c.Names (opcodeBytes (c.history bus)) i := by
  refine Classical.byContradiction fun hcause => hchanged ?_
  rw [registers_step]
  refine c.content_step bus (p := .index i) nofun fun op hop => Bool.eq_false_iff.2 fun htouches => hcause ?_
  obtain ⟨res, hres, hq⟩ := Option.bind_eq_some_iff.1 hop
  exact (c.opened_sourced hres).index op hq i htouches

theorem f_changed (hchanged : (c.step bus).cpu.registers.f ≠ c.registers.f) :
    ∃ op, c.operation? bus = some op ∧ op.movesFlags := by
  refine Classical.byContradiction fun hcause => hchanged ?_
  rw [registers_step]
  refine c.content_step bus (p := .flags) nofun fun op hop => Bool.eq_false_iff.2 fun htouches => hcause ?_
  obtain ⟨res, hres, hq⟩ := Option.bind_eq_some_iff.1 hop
  exact ⟨op, hop, (c.opened_sourced hres).flags op hq htouches⟩

theorem enables_changed :
    let k := c.registers
    let k' := (c.step bus).cpu.registers
    let o := c.operation? bus
    (k'.iff1 ≠ k.iff1 →
        o = some (.control .enableInterrupts) ∨ o = some (.control .disableInterrupts) ∨
          o = some (.jump .returnNmi) ∨ c.task = .nmi ∨ c.task = .interrupt) ∧
      (k'.iff2 ≠ k.iff2 →
        o = some (.control .enableInterrupts) ∨ o = some (.control .disableInterrupts) ∨ c.task = .interrupt) := by
  intro k k' o
  have hstep := c.enables_step bus
  have hiff1 : k'.iff1 = (c.step bus).cpu.enables.iff1 := rfl
  have hiff2 : k'.iff2 = (c.step bus).cpu.enables.iff2 := rfl
  obtain ⟨htask1, htask2⟩ := c.task.enables_changed c.enables
  have ho : o = c.operation? bus := rfl
  rw [hiff1, hiff2, hstep]
  cases hop : c.operation? bus with
  | none => exact ⟨fun h => .inr (.inr (.inr (htask1 h))), fun h => .inr (.inr (htask2 h))⟩
  | some op =>
    obtain ⟨hop1, hop2⟩ := op.enables_changed (c.task.enables c.enables)
    rw [ho, hop]
    refine ⟨fun h => ?_, fun h => ?_⟩
    · by_cases hfirst : (c.task.enables c.enables).iff1 = c.enables.iff1
      · rcases hop1 (hfirst ▸ h) with rfl | rfl | rfl
        · exact .inl rfl
        · exact .inr (.inl rfl)
        · exact .inr (.inr (.inl rfl))
      · exact .inr (.inr (.inr (htask1 hfirst)))
    · by_cases hfirst : (c.task.enables c.enables).iff2 = c.enables.iff2
      · rcases hop2 (hfirst ▸ h) with rfl | rfl
        · exact .inl rfl
        · exact .inr (.inl rfl)
      · exact .inr (.inr (htask2 hfirst))

/-- Whether it fails or not, a step changes A' and F' only by EX AF,AF' and the rest of the shadow bank only by EXX; I
only by LD I,A; the interrupt mode only by IM; IFF1 only by EI, DI, a return from an NMI or an acceptance, and IFF2 only
by EI, DI or the acceptance of an interrupt. Only HALT halts the processor, and only an acceptance wakes it. An index
register changes only where its prefix stands before the other opcode bytes or was carried into the step, and F only by
an operation that sets the flags, POP AF or EX AF,AF'. -/
theorem control_frame (c : Cpu) (bus : β) :
    let k := c.registers
    let k' := (c.step bus).cpu.registers
    let o := c.operation? bus
    (k'.shadow.a ≠ k.shadow.a ∨ k'.shadow.f ≠ k.shadow.f → o = some (.transfer .exchangeAf)) ∧
      (k'.shadow ≠ { k.shadow with a := k'.shadow.a, f := k'.shadow.f } → o = some (.transfer .exchangeBanks)) ∧
      (k'.i ≠ k.i → o = some (.transfer .loadToI)) ∧
      (k'.im ≠ k.im → ∃ mode, o = some (.control (.interruptMode mode))) ∧
      (k'.iff1 ≠ k.iff1 →
        o = some (.control .enableInterrupts) ∨ o = some (.control .disableInterrupts) ∨
          o = some (.jump .returnNmi) ∨ c.task = .nmi ∨ c.task = .interrupt) ∧
      (k'.iff2 ≠ k.iff2 →
        o = some (.control .enableInterrupts) ∨ o = some (.control .disableInterrupts) ∨ c.task = .interrupt) ∧
      (k.halted = false → k'.halted = true → o = some (.control .halt)) ∧
      (k.halted = true → k'.halted = false → c.task = .nmi ∨ c.task = .interrupt) ∧
      (∀ i, k'.index i ≠ k.index i →
        c.carried = some i ∨ i.prefixByte ∈ indexPrefixes (opcodeBytes (c.history bus))) ∧
      (k'.f ≠ k.f →
        ∃ op, o = some op ∧ (op.setsFlags ∨ op = .transfer (.pop .af) ∨ op = .transfer .exchangeAf)) := by
  intro k k' o
  obtain ⟨hAf, hBanks⟩ := c.shadow_step bus
  obtain ⟨hiff1, hiff2⟩ := c.enables_changed bus
  obtain ⟨hhalt, hwake⟩ := c.halted_changed bus
  refine ⟨?_, ?_, ?_, ?_, hiff1, hiff2, hhalt, hwake, c.index_changed bus, fun hchanged => ?_⟩
  · refine fun hchanged => Decidable.byContradiction fun ho => ?_
    obtain ⟨ha, hf⟩ := hAf ho
    exact hchanged.elim (absurd ha) (absurd hf)
  · exact fun hchanged => Decidable.byContradiction fun ho => hchanged (hBanks ho)
  · refine fun hchanged => Decidable.byContradiction fun ho => hchanged ?_
    refine c.controlled_step bus (g := (·.i)) (fun _ _ _ _ _ _ _ _ => rfl) (fun _ => rfl) fun op hop => ?_
    exact Operation.i_controlled fun he => ho (he ▸ hop)
  · refine fun hchanged => Classical.byContradiction fun ho => hchanged ?_
    refine c.controlled_step bus (g := (·.im)) (fun _ _ _ _ _ _ _ _ => rfl) (fun _ => rfl) fun op hop => ?_
    exact Operation.im_controlled fun mode he => ho ⟨mode, he ▸ hop⟩
  · obtain ⟨op, hop, hmoves⟩ := c.f_changed bus hchanged
    simp only [Operation.movesFlags, Bool.or_eq_true, beq_iff_eq, or_assoc] at hmoves
    exact ⟨op, hop, hmoves⟩

end Cpu

end Z80Machine
