import Z80Machine.Cpu.Fetch
import Z80Machine.Proofs.Execution
import Z80Machine.Proofs.Orderly

/-!
What microcode leaves alone. `Ends P` says of an activity that all its ways end in a value with `P`, whatever bytes
come in; microcode keeps what is read off an execution if that is the same at the end of all its ways. Fetching keeps
all but the program counter, R, WZ and the supply, and plain operations keep the control.
-/
namespace Z80Machine

open Microcode

namespace Activity

variable {α γ : Type}

/-- Every way ends in a value with `P`. -/
def Ends (P : α → Prop) : Activity α → Prop
  | .done a => P a
  | .receive _ next => ∀ v, (next v).Ends P
  | .send _ next => next.Ends P
  | .pause _ next => next.Ends P

theorem Ends.mono {P Q : α → Prop} (hPQ : ∀ a, P a → Q a) {m : Activity α} (h : m.Ends P) : m.Ends Q := by
  induction m with
  | done a => exact hPQ a h
  | receive c next ih =>
    intro v
    exact ih v (h v)
  | send c next ih => exact ih h
  | pause c next ih => exact ih h

theorem ends_bind {P : γ → Prop} (m : Activity α) (f : α → Activity γ) :
    (m.bind f).Ends P ↔ m.Ends fun a => (f a).Ends P := by
  induction m with
  | done a => exact Iff.rfl
  | receive c next ih =>
    constructor
    · intro h v
      exact (ih v).1 (h v)
    · intro h v
      exact (ih v).2 (h v)
  | send c next ih => exact ih
  | pause c next ih => exact ih

/-- A run goes one of the ways. -/
theorem Ends.run {β : Type} [Bus β] {P : α → Prop} {m : Activity α} (h : m.Ends P) (bus : β) :
    P (m.run bus).value := by
  induction m generalizing bus with
  | done a => exact h
  | receive c next ih => exact ih _ (h _) _
  | send c next ih => exact ih h _
  | pause c next ih => exact ih h _

end Activity

/-- Microcode keeps `f` if it reads the same off the execution at the end of all ways as at the beginning. -/
def Keeps {α δ : Type} (f : Execution → δ) (m : Microcode α) : Prop :=
  ∀ s, (m s).Ends fun p => f p.2 = f s

section Keeps

variable {α γ δ ε : Type} {f : Execution → δ}

theorem Keeps.on {β : Type} [Bus β] {m : Microcode α} (h : Keeps f m) (s : Execution) (bus : β) :
    f (on m s bus).value.2 = f s :=
  (h s).run bus

theorem keeps_pure (a : α) : Keeps f (pure a : Microcode α) := fun _ => rfl

theorem Keeps.bind {m : Microcode α} {g : α → Microcode γ} (hm : Keeps f m) (hg : ∀ a, Keeps f (g a)) :
    Keeps f (m >>= g) := by
  intro s
  have hbind : (m >>= g) s = (m s).bind fun p => g p.1 p.2 := rfl
  rw [hbind, Activity.ends_bind]
  refine (hm s).mono fun p hp => ?_
  rw [← hp]
  exact hg p.1 p.2

theorem keeps_registers : Keeps f registers := fun _ => rfl

/-- What is computed from something kept is kept. -/
theorem Keeps.comp {m : Microcode α} (h : Keeps f m) (g : δ → ε) : Keeps (fun s => g (f s)) m :=
  fun s => (h s).mono fun _ hp => congrArg g hp

end Keeps

section Control

/-- The interrupt state, I, R, the halt and the delay after enabling interrupts. -/
def Execution.control (s : Execution) : Registers × Bool := (Registers.withControl {} s.registers, s.eiDelay)

/-- Plain microcode keeps the control. -/
theorem Orderly.keeps_control {i j : Nat} {α : Type} {m : Microcode α} (h : Orderly true i j m) :
    Keeps Execution.control m := by
  induction h with
  | pure a => exact keeps_pure a
  | bind hm hf ihm ihf => exact ihm.bind ihf
  | look hcontrol hpc hf ih => exact keeps_registers.bind ih
  | @update i g hcontrol hpc =>
    intro s
    have hself : g s.registers = (g s.registers).withControl s.registers := hcontrol rfl s.registers s.registers
    change (Registers.withControl {} (g s.registers), s.eiDelay) = _
    rw [hself]
    rfl
  | enable h => contradiction
  | opcode h => contradiction
  | operand => rintro ⟨k, l, d, _ | bytes⟩ <;> first | exact fun v => rfl | rfl
  | receiveMemory a | receivePort a => exact fun s v => rfl
  | _ => exact fun s => rfl

end Control

section Fetch

variable {δ : Type} {f : Execution → δ} (extensions : Bool)
  (hf : ∀ (s : Execution) (pc : Word) (r : Byte) (wz : Word) (supply : Option (List Byte)),
    f { s with registers := { s.registers with pc := pc, r := r, wz := wz }, supply := supply } = f s)

include hf

theorem keeps_opcode : Keeps f opcode := by
  rintro ⟨k, l, d, _ | bytes⟩
  · intro v
    exact hf ⟨k, l, d, none⟩ (k.pc + 1) k.refreshed.r k.wz none
  · exact hf ⟨k, l, d, some bytes⟩ k.pc k.refreshed.r k.wz (some (supplied bytes).2)

theorem keeps_operand : Keeps f operand := by
  rintro ⟨k, l, d, _ | bytes⟩
  · intro v
    exact hf ⟨k, l, d, none⟩ (k.pc + 1) k.r k.wz none
  · exact hf ⟨k, l, d, some bytes⟩ k.pc k.r k.wz (some (supplied bytes).2)

theorem keeps_takeOpcode (v : Byte) : Keeps f (takeOpcode v) := fun s =>
  hf s s.registers.pc s.registers.refreshed.r s.registers.wz s.supply

theorem keeps_latchAddress (a : Word) : Keeps f (latchAddress a) := fun s =>
  hf s s.registers.pc s.registers.r a s.supply

theorem Opening.keeps_resolve (o : Opening) (seen : Window) : Keeps f (o.resolve extensions seen) := by
  cases o with
  | instruction i => exact keeps_pure _
  | lead l =>
    cases l with
    | bits => exact (keeps_opcode hf).bind fun v => keeps_pure _
    | extended =>
      refine (keeps_opcode hf).bind fun v => ?_
      cases extendedSlot extensions v with
      | some i => exact keeps_pure _
      | none => exact keeps_pure _
    | index i => exact keeps_pure _
    | indexedBits i =>
      refine (keeps_operand hf).bind fun d => ?_
      refine keeps_registers.bind fun k => ?_
      refine (keeps_latchAddress hf _).bind fun _ => ?_
      refine (keeps_operand hf).bind fun v => ?_
      have hpause : Keeps f (pause 2) := fun s => rfl
      exact hpause.bind fun _ => keeps_pure _

theorem keeps_fetchIndexed (seen : Window) (i : Index) : Keeps f (fetchIndexed extensions seen i) :=
  (keeps_opcode hf).bind fun _ => Opening.keeps_resolve extensions hf _ _

/-- Fetching from memory moves the program counter, R and WZ and keeps all else. -/
theorem keeps_fetch (carried : Option Index) : Keeps f (fetch extensions carried) := by
  cases carried with
  | some i => exact keeps_fetchIndexed extensions hf _ i
  | none =>
    refine (keeps_opcode hf).bind fun v => ?_
    split
    · exact keeps_fetchIndexed extensions hf _ _
    · exact Opening.keeps_resolve extensions hf _ _

/-- So does taking an instruction from a device, and it uses up the supply. -/
theorem keeps_fetchSupplied (seen : Window) (b : Base) (bytes : List Byte) :
    Keeps f (fetchSupplied extensions seen b bytes) := by
  induction bytes generalizing seen b with
  | nil => exact (keeps_takeOpcode hf 0xFF).bind fun _ => Opening.keeps_resolve extensions hf _ _
  | cons v rest ih =>
    refine (keeps_takeOpcode hf v).bind fun _ => ?_
    split
    · exact ih _ _
    · have hrest : Keeps f (modify fun s => { s with supply := some rest }) := fun s =>
        hf s s.registers.pc s.registers.r s.registers.wz (some rest)
      exact hrest.bind fun _ => Opening.keeps_resolve extensions hf _ _

end Fetch

end Z80Machine
