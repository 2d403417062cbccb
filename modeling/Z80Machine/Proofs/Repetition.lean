import Z80Machine.Microcode.Operation
import Z80Machine.Proofs.Execution
import Z80Machine.Proofs.Sums

/-!
Repeating forms. One that has come to its end does what its single form does. Before that it also goes back to its own
opcode, which takes five T-states and, in a block, moves WZ and shows in the flags. `Repeats` says so of any two pieces
of microcode; it holds of the two forms because they differ in their last step only.
-/
namespace Z80Machine

open Microcode

/-- What ends a block, of the registers after an element: the counter is zero, or the byte `v` that has been compared
is the accumulator. -/
def BlockKind.Stops (kind : BlockKind) (v : Byte) (k : Registers) : Prop :=
  match kind with
  | .load => k.bc = 0
  | .compare => k.bc = 0 ∨ k.a = v
  | .input | .output => k.b = 0

def Execution.behind (s : Execution) : Execution :=
  { s with registers := { s.registers with pc := s.registers.pc - 2 } }

/-- Two bytes back, as a block leaves it: WZ is the address after, and Y and X are bits 13 and 11 of the program
counter. -/
def Execution.blockBehind (s : Execution) (half parity : Bool) : Execution :=
  let pc := s.registers.pc - 2
  let f := { s.registers.f with y := pc.getLsbD 13, x := pc.getLsbD 11, half, parity }
  { s with registers := { s.registers with pc, wz := pc + 1, f }, latch := f }

/-- A block goes back from `s` to `s'`. Half carry and parity change in blocks of input and output alone. -/
def BlockKind.Back (kind : BlockKind) (s s' : Execution) : Prop :=
  ∃ half parity, s' = s.blockBehind half parity ∧
    (kind = .load ∨ kind = .compare → half = s.registers.f.half ∧ parity = s.registers.f.parity)

section Repeats

variable {α β : Type} [Bus β]

/-- From `s`, `again` does what `once` does where that ends with `stops`. Elsewhere five T-states follow, and it gets
`back` from where `once` has ended. -/
structure Repeats (stops : Registers → Prop) (back : Execution → Execution → Prop) (once again : Microcode Unit)
    (s : Execution) (bus : β) : Prop where
  stop : stops (on once s bus).value.2.registers →
    on again s bus = on once s bus ∧ history again s bus = history once s bus
  back : ¬stops (on once s bus).value.2.registers →
    let o := on once s bus
    ∃ s', back o.value.2 s' ∧ on again s bus = ⟨((), s'), Bus.tick o.bus 5, o.elapsed + 5⟩ ∧
      history again s bus = history once s bus ++ [.paused (.internal 5)]

theorem Repeats.bind {stops : Registers → Prop} {back : Execution → Execution → Prop} (m : Microcode α)
    {once again : α → Microcode Unit} {s : Execution} {bus : β}
    (h : let o := on m s bus; Repeats stops back (once o.value.1) (again o.value.1) o.value.2 o.bus) :
    Repeats stops back (m >>= once) (m >>= again) s bus := by
  constructor
  · intro hstops
    simp only [on_bind, history_bind, Outcome.value_after] at hstops ⊢
    obtain ⟨hon, hhistory⟩ := h.stop hstops
    rw [hon, hhistory]
    exact ⟨rfl, rfl⟩
  · intro hstops
    simp only [on_bind, history_bind, Outcome.value_after] at hstops ⊢
    obtain ⟨s', hback, hon, hhistory⟩ := h.back hstops
    refine ⟨s', hback, ?_, ?_⟩
    · rw [hon, Outcome.after, Outcome.after, Nat.add_assoc]
    · rw [hhistory, List.append_assoc]

variable (d : Direction) (s : Execution) (bus : β)

/-- The end of an element. What `shown` and `last` agree on comes out alike; `hshown` is that this is all but the flags
that a block may change. -/
theorem repeats_finishBlock {kind : BlockKind} {v : Byte} {more : Bool} {shown last : Flags}
    (hmore : kind.Stops v s.registers ↔ more = false)
    (hshown : { shown with y := last.y, x := last.x } = { last with half := shown.half, parity := shown.parity })
    (hkept : kind = .load ∨ kind = .compare → shown.half = last.half ∧ shown.parity = last.parity) :
    Repeats (kind.Stops v) kind.Back (finishBlock (false && more) shown last) (finishBlock (true && more) shown last)
      s bus := by
  have hstops : kind.Stops v (on (finishBlock false shown last) s bus).value.2.registers ↔ more = false := by
    rw [← hmore]
    cases kind <;> rfl
  constructor
  · intro h
    rw [hstops.1 h]
    exact ⟨rfl, rfl⟩
  · intro h
    have hagain : more = true := by simpa using mt hstops.2 h
    subst hagain
    let pc := s.registers.pc - 2
    have hwz : s.registers.pc - 1 = pc + 1 := by
      show s.registers.pc - 1 = s.registers.pc - 2 + 1
      bv_omega
    have hf : shown.withXY pc.high =
        { last with y := pc.getLsbD 13, x := pc.getLsbD 11, half := shown.half, parity := shown.parity } := by
      rw [Flags.withXY, pc.getLsbD_high (by decide), pc.getLsbD_high (by decide)]
      exact congrArg (fun f : Flags => { f with y := pc.getLsbD 13, x := pc.getLsbD 11 }) hshown
    refine ⟨_, ⟨shown.half, shown.parity, rfl, hkept⟩, ?_, rfl⟩
    show (⟨((), { s with
        registers := { s.registers with pc, wz := s.registers.pc - 1, f := shown.withXY pc.high }
        latch := shown.withXY pc.high }), Bus.tick bus 5, 5⟩ : Outcome β (Unit × Execution)) = _
    rw [hwz, hf]
    rfl

theorem repeats_load (v : Byte) :
    Repeats (BlockKind.load.Stops v) BlockKind.load.Back (Block.load ⟨.load, d, false⟩) (Block.load ⟨.load, d, true⟩)
      s bus := by
  refine .bind _ (.bind _ (.bind _ (.bind _ (.bind _ (.bind _
    (repeats_finishBlock _ _ ?_ rfl fun _ => ⟨rfl, rfl⟩))))))
  simp [BlockKind.Stops]

theorem repeats_compare :
    Repeats (BlockKind.compare.Stops ((Receive.memory s.registers.hl).perform bus).1) BlockKind.compare.Back
      (Block.compare ⟨.compare, d, false⟩) (Block.compare ⟨.compare, d, true⟩) s bus := by
  refine .bind _ (.bind _ (.bind _ (.bind _ (.bind _ ?_))))
  dsimp only
  rw [Bool.and_assoc, Bool.and_assoc]
  refine repeats_finishBlock _ _ ?_ rfl fun _ => ⟨rfl, rfl⟩
  simp [BlockKind.Stops, zero_subtract, Decidable.or_iff_not_imp_left]

theorem repeats_finishPort {kind : BlockKind} (hkind : kind = .input ∨ kind = .output) (u v other : Byte) :
    Repeats (kind.Stops u) kind.Back (Block.finishPort ⟨kind, d, false⟩ v other)
      (Block.finishPort ⟨kind, d, true⟩ v other) s bus := by
  refine .bind _ (repeats_finishBlock _ _ ?_ rfl ?_)
  · rcases hkind with rfl | rfl <;> simp [BlockKind.Stops]
  · rcases hkind with rfl | rfl <;> exact nofun

theorem repeats_input (v : Byte) :
    Repeats (BlockKind.input.Stops v) BlockKind.input.Back (Block.input ⟨.input, d, false⟩)
      (Block.input ⟨.input, d, true⟩) s bus :=
  .bind _ (.bind _ (.bind _ (.bind _ (.bind _ (repeats_finishPort _ _ _ (.inl rfl) _ _ _)))))

theorem repeats_output (v : Byte) :
    Repeats (BlockKind.output.Stops v) BlockKind.output.Back (Block.output ⟨.output, d, false⟩)
      (Block.output ⟨.output, d, true⟩) s bus :=
  .bind _ (.bind _ (.bind _ (.bind _ (.bind _ (.bind _ (.bind _ (.bind _
    (repeats_finishPort _ _ _ (.inr rfl) _ _ _))))))))

theorem repeats_againWhileCounting :
    Repeats (·.bc = 0) (fun s s' => s' = s.behind) (pure ()) againWhileCounting s bus := by
  by_cases h : s.registers.bc = 0#16
  · have hon : on againWhileCounting s bus = ⟨((), s), bus, 0⟩ := by
      simp [againWhileCounting, on_bind, h, Outcome.after]
    have hhistory : history againWhileCounting s bus = [] := by simp [againWhileCounting, history_bind, h]
    exact ⟨fun _ => ⟨hon, hhistory⟩, fun hstops => absurd h hstops⟩
  · have hon : on againWhileCounting s bus = ⟨((), s.behind), Bus.tick bus 5, 5⟩ := by
      simp [againWhileCounting, on_bind, h, Outcome.after, Execution.behind]
    have hhistory : history againWhileCounting s bus = [.paused (.internal 5)] := by
      simp [againWhileCounting, history_bind, h]
    exact ⟨fun hstops => absurd hstops h, fun _ => ⟨_, rfl, hon, hhistory⟩⟩

theorem repeats_copy (config : Config) :
    Repeats (·.bc = 0) (fun s s' => s' = s.behind) ((Extension.copy d false).execute config)
      ((Extension.copy d true).execute config) s bus :=
  .bind _ (.bind _ (.bind _ (repeats_againWhileCounting _ _)))

/-- A repeating block and its single form do the same in everything where the block stops. Where it does not, it goes
back. So does a repeating copy, which leaves flags and WZ alone. -/
theorem repeating_form (config : Config) (previous : Flags) :
    (∀ kind : BlockKind,
      Repeats (kind.Stops ((Receive.memory s.registers.hl).perform bus).1) kind.Back
        ((Operation.block ⟨kind, d, false⟩).execute config previous)
        ((Operation.block ⟨kind, d, true⟩).execute config previous) s bus) ∧
    Repeats (·.bc = 0) (fun s s' => s' = s.behind)
      ((Operation.extension (.copy d false)).execute config previous)
      ((Operation.extension (.copy d true)).execute config previous) s bus := by
  refine ⟨fun kind => ?_, repeats_copy d s bus config⟩
  cases kind with
  | load => exact repeats_load ..
  | compare => exact repeats_compare ..
  | input => exact repeats_input ..
  | output => exact repeats_output ..

end Repeats

end Z80Machine
