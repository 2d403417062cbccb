import Z80Machine.Microcode
import Z80Machine.Proofs.History

/-!
Carrying microcode out on a bus: the value, the execution, the bus and the cycles of each step from which
instructions are made, and of steps one after the other.
-/
namespace Z80Machine

/-- The refresh counter `n` opcode bytes later: its low seven bits have moved on and bit 7 has stayed. -/
def refreshedBy (n : Nat) (r : Byte) : Byte := r &&& 0x80 ||| (r + BitVec.ofNat 8 n) &&& 0x7F

theorem toNat_refreshedBy (n : Nat) (r : Byte) :
    (refreshedBy n r).toNat = 128 * (r.toNat / 128) + (r.toNat + n) % 128 := by
  have hh : ∀ r : Byte, (r &&& 0x80).toNat = 2 ^ 7 * (r.toNat / 128) := by decide
  have hl : ∀ r : Byte, (r &&& 0x7F).toNat = r.toNat % 128 := by decide
  rw [refreshedBy, BitVec.toNat_or, hh, hl, ← Nat.two_pow_add_eq_or_of_lt (Nat.mod_lt _ (by decide)),
    BitVec.toNat_add, BitVec.toNat_ofNat]
  omega

@[simp] theorem refreshedBy_zero (r : Byte) : refreshedBy 0 r = r := by
  apply BitVec.eq_of_toNat_eq
  rw [toNat_refreshedBy]
  omega

@[simp] theorem refreshedBy_refreshedBy (m n : Nat) (r : Byte) :
    refreshedBy m (refreshedBy n r) = refreshedBy (n + m) r := by
  apply BitVec.eq_of_toNat_eq
  have := r.isLt
  simp only [toNat_refreshedBy]
  omega

namespace Microcode

variable {α β γ : Type} [Bus β]

/-- Carries microcode out, from where an execution stands. -/
def on (m : Microcode α) (s : Execution) (bus : β) : Outcome β (α × Execution) := (m s).run bus

/-- The cycles of carrying microcode out. -/
def history (m : Microcode α) (s : Execution) (bus : β) : List Cycle := (m s).history bus

section Composition

variable (s : Execution) (bus : β)

@[simp] theorem on_pure (a : α) : on (pure a) s bus = ⟨(a, s), bus, 0⟩ := rfl

@[simp] theorem history_pure (a : α) : history (pure a) s bus = [] := rfl

theorem on_bind (m : Microcode α) (f : α → Microcode γ) :
    on (m >>= f) s bus =
      (on (f (on m s bus).value.1) (on m s bus).value.2 (on m s bus).bus).after (on m s bus).elapsed :=
  Activity.run_bind (m s) _ bus

theorem history_bind (m : Microcode α) (f : α → Microcode γ) :
    history (m >>= f) s bus =
      history m s bus ++ history (f (on m s bus).value.1) (on m s bus).value.2 (on m s bus).bus :=
  Activity.history_bind (m s) _ bus

theorem elapsed_bind (m : Microcode α) (f : α → Microcode γ) :
    (on (m >>= f) s bus).elapsed =
      (on m s bus).elapsed +
        (on (f (on m s bus).value.1) (on m s bus).value.2 (on m s bus).bus).elapsed := by
  rw [on_bind, Outcome.elapsed_after]

theorem history_map (g : α → γ) (m : Microcode α) : history (g <$> m) s bus = history m s bus :=
  (history_bind s bus m fun a => pure (g a)).trans (List.append_nil _)

theorem on_map (g : α → γ) (m : Microcode α) :
    on (g <$> m) s bus =
      ⟨(g (on m s bus).value.1, (on m s bus).value.2), (on m s bus).bus, (on m s bus).elapsed⟩ :=
  on_bind s bus m fun a => pure (g a)

@[simp] theorem elapsed_map (g : α → γ) (m : Microcode α) :
    (on (g <$> m) s bus).elapsed = (on m s bus).elapsed := by
  rw [on_map]

theorem elapsed_eq_history (m : Microcode α) :
    (on m s bus).elapsed = Cycle.duration (history m s bus) := Activity.elapsed_run (m s) bus

@[simp] theorem on_registers : on registers s bus = ⟨(s.registers, s), bus, 0⟩ := rfl

@[simp] theorem on_update (f : Registers → Registers) :
    on (update f) s bus = ⟨((), { s with registers := f s.registers }), bus, 0⟩ := rfl

@[simp] theorem on_setFlags (f : Flags) :
    on (setFlags f) s bus =
      ⟨((), { s with registers := { s.registers with f := f }, latch := f }), bus, 0⟩ := rfl

@[simp] theorem on_latchAddress (a : Word) :
    on (latchAddress a) s bus = ⟨((), { s with registers := { s.registers with wz := a } }), bus, 0⟩ := rfl

@[simp] theorem on_goTo (a : Word) :
    on (goTo a) s bus = ⟨((), { s with registers := { s.registers with pc := a, wz := a } }), bus, 0⟩ := rfl

@[simp] theorem on_receive (c : Receive) :
    on (receive c) s bus = ⟨((c.perform bus).1, s), Bus.tick (c.perform bus).2 c.time, c.time⟩ := rfl

@[simp] theorem on_send (c : Send) :
    on (send c) s bus = ⟨((), s), Bus.tick (c.perform bus) c.time, c.time⟩ := rfl

@[simp] theorem on_wait (c : Pause) : on (wait c) s bus = ⟨((), s), Bus.tick bus c.time, c.time⟩ := rfl

@[simp] theorem history_registers : history registers s bus = [] := rfl

@[simp] theorem history_update (f : Registers → Registers) : history (update f) s bus = [] := rfl

@[simp] theorem history_latchAddress (a : Word) : history (latchAddress a) s bus = [] := rfl

@[simp] theorem history_setFlags (f : Flags) : history (setFlags f) s bus = [] := rfl

@[simp] theorem history_receive (c : Receive) :
    history (receive c) s bus = [.received c (c.perform bus).1] := rfl

@[simp] theorem history_send (c : Send) : history (send c) s bus = [.sent c] := rfl

@[simp] theorem history_wait (c : Pause) : history (wait c) s bus = [.paused c] := rfl

@[simp] theorem on_pause (n : Nat) : on (pause n) s bus = ⟨((), s), Bus.tick bus n, n⟩ := rfl

@[simp] theorem history_pause (n : Nat) : history (pause n) s bus = [.paused (.internal n)] := rfl

@[simp] theorem on_readByte (a : Word) :
    on (readByte a) s bus =
      ⟨(((Receive.memory a).perform bus).1, s), Bus.tick ((Receive.memory a).perform bus).2 3, 3⟩ := rfl

@[simp] theorem on_writeByte (a : Word) (v : Byte) :
    on (writeByte a v) s bus = ⟨((), s), Bus.tick ((Send.memory a v).perform bus) 3, 3⟩ := rfl

@[simp] theorem on_inputByte (p : Word) :
    on (inputByte p) s bus =
      ⟨(((Receive.port p).perform bus).1, s), Bus.tick ((Receive.port p).perform bus).2 4, 4⟩ := rfl

@[simp] theorem on_outputByte (p : Word) (v : Byte) :
    on (outputByte p v) s bus = ⟨((), s), Bus.tick ((Send.port p v).perform bus) 4, 4⟩ := rfl

/-- Without a supply an opcode byte comes from memory. -/
@[simp] theorem on_opcode (k : Registers) (l : Flags) (d : Bool) :
    on opcode ⟨k, l, d, none⟩ bus =
      ⟨(((Receive.opcode k.pc).perform bus).1, ⟨{ k with pc := k.pc + 1, r := refreshedBy 1 k.r }, l, d, none⟩),
        Bus.tick ((Receive.opcode k.pc).perform bus).2 4, 4⟩ := rfl

@[simp] theorem history_opcode (k : Registers) (l : Flags) (d : Bool) :
    history opcode ⟨k, l, d, none⟩ bus =
      [.received (.opcode k.pc) ((Receive.opcode k.pc).perform bus).1] := rfl

/-- Without a supply an operand comes from memory. -/
@[simp] theorem on_operand (k : Registers) (l : Flags) (d : Bool) :
    on operand ⟨k, l, d, none⟩ bus =
      ⟨(((Receive.operand k.pc).perform bus).1, ⟨{ k with pc := k.pc + 1 }, l, d, none⟩),
        Bus.tick ((Receive.operand k.pc).perform bus).2 3, 3⟩ := rfl

@[simp] theorem history_operand (k : Registers) (l : Flags) (d : Bool) :
    history operand ⟨k, l, d, none⟩ bus =
      [.received (.operand k.pc) ((Receive.operand k.pc).perform bus).1] := rfl

end Composition

section Time

variable (s : Execution) (bus : β)

@[simp] theorem elapsed_operand : (on operand s bus).elapsed = 3 := by
  rcases s with ⟨k, l, d, _ | bytes⟩ <;> rfl

@[simp] theorem elapsed_operandWord : (on operandWord s bus).elapsed = 6 := by
  simp [operandWord, elapsed_bind]

@[simp] theorem elapsed_readWord (a : Word) : (on (readWord a) s bus).elapsed = 6 := by
  simp [readWord, elapsed_bind]

@[simp] theorem elapsed_writeWord (a w : Word) : (on (writeWord a w) s bus).elapsed = 6 := by
  simp [writeWord, elapsed_bind]

@[simp] theorem elapsed_pushWord (w : Word) : (on (pushWord w) s bus).elapsed = 6 := by
  simp [pushWord, elapsed_bind]

@[simp] theorem elapsed_popWord : (on popWord s bus).elapsed = 6 := by
  simp [popWord, elapsed_bind]

end Time

end Microcode

end Z80Machine
