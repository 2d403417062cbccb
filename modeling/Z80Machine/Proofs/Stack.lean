import Z80Machine.Proofs.Interruption

/-!
The stack. A word is pushed in the two bytes below the stack pointer, and popping takes it from there. Words pushed one
after the other and popped again come in the opposite order, at every stack pointer and up to a full 64 KiB, since the
addresses that they take are all different.
-/
namespace Z80Machine

open Microcode

/-- None of the `n` addresses below `sp`. -/
def Outside (sp : Word) (n : Nat) (a : Word) : Prop := ∀ i < n, a ≠ sp - BitVec.ofNat 16 (i + 1)

theorem sub_two_sub (sp : Word) (n : Nat) : sp - 2 - BitVec.ofNat 16 n = sp - BitVec.ofNat 16 (n + 2) := by
  rw [BitVec.sub_sub, Nat.add_comm, BitVec.ofNat_add]
  rfl

theorem add_two_add (a : Word) (n : Nat) : a + 2 + BitVec.ofNat 16 n = a + BitVec.ofNat 16 (n + 2) := by
  rw [BitVec.add_assoc, Nat.add_comm, BitVec.ofNat_add]
  rfl

/-- Outside of what lies below a stack one is outside of what a push takes and of what lies below the rest. -/
theorem Outside.spared {sp a : Word} {n : Nat} (h : Outside sp (n + 2) a) : Spared sp a ∧ Outside (sp - 2) n a := by
  refine ⟨⟨h 0 (by omega), h 1 (by omega)⟩, fun i hi => ?_⟩
  rw [sub_two_sub]
  exact h (i + 2) (by omega)

/-- The two bytes of a push lie outside of up to 65534 bytes below them. -/
theorem outside_below (sp : Word) {n : Nat} (hn : n ≤ 65534) :
    Outside (sp - 2) n (sp - 1) ∧ Outside (sp - 2) n (sp - 2) := by
  refine ⟨fun i hi h => ?_, fun i hi h => ?_⟩ <;> bv_omega

namespace Memory

/-- The word at an address, low byte first. -/
def word (m : Memory) (a : Word) : Word := Word.ofBytes (m.get (a + 1)) (m.get a)

/-- Words one behind the other from `a` on. -/
def words (m : Memory) (a : Word) : Nat → List Word
  | 0 => []
  | n + 1 => m.word a :: m.words (a + 2) n

/-- Words pushed one after the other on a stack at `sp`. -/
def stacked (m : Memory) (sp : Word) : List Word → Memory
  | [] => m
  | w :: ws => (m.pushed sp w).stacked (sp - 2) ws

theorem word_pushed (m : Memory) (sp w : Word) : (m.pushed sp w).word (sp - 2) = w := by
  have hhigh : sp - 2 + 1 = sp - 1 := by bv_omega
  rw [word, hhigh, get_pushed_high, get_pushed_low, Word.ofBytes_high_low]

theorem pushed_pushed_word (m : Memory) (sp w : Word) : (m.pushed sp w).pushed sp (m.word (sp - 2)) = m := by
  refine ext_get fun a => ?_
  have hhigh : sp - 2 + 1 = sp - 1 := by bv_omega
  by_cases h1 : a = sp - 1
  · rw [h1, get_pushed_high, word, hhigh, Word.high_ofBytes]
  by_cases h2 : a = sp - 2
  · rw [h2, get_pushed_low, word, Word.low_ofBytes]
  · rw [get_pushed_of_spared _ _ _ ⟨h1, h2⟩, get_pushed_of_spared _ _ _ ⟨h1, h2⟩]

theorem words_concat (m : Memory) (a : Word) (n : Nat) :
    m.words a (n + 1) = m.words a n ++ [m.word (a + BitVec.ofNat 16 (2 * n))] := by
  induction n generalizing a with
  | zero => simp [words]
  | succ n ih =>
    rw [words, ih, add_two_add]
    rfl

theorem get_stacked_of_outside (m : Memory) {sp a : Word} {ws : List Word} (h : Outside sp (2 * ws.length) a) :
    (m.stacked sp ws).get a = m.get a := by
  induction ws generalizing m sp with
  | nil => rfl
  | cons w ws ih =>
    obtain ⟨hspared, hrest⟩ := h.spared
    rw [stacked, ih _ hrest, get_pushed_of_spared _ _ _ hspared]

/-- Word `i` lies in the two bytes that `2 * i` bytes above it have left. -/
theorem get_stacked (m : Memory) (sp : Word) {ws : List Word} (hws : ws.length ≤ 32768) {i : Nat} (hi : i < ws.length) :
    (m.stacked sp ws).get (sp - BitVec.ofNat 16 (2 * i + 1)) = ws[i].high ∧
      (m.stacked sp ws).get (sp - BitVec.ofNat 16 (2 * i + 2)) = ws[i].low := by
  induction ws generalizing m sp i with
  | nil => contradiction
  | cons w ws ih =>
    rw [List.length_cons] at hws hi
    cases i with
    | zero =>
      obtain ⟨hhigh, hlow⟩ := outside_below sp (n := 2 * ws.length) (by omega)
      refine ⟨?_, ?_⟩
      · exact (get_stacked_of_outside _ hhigh).trans (get_pushed_high m sp w)
      · exact (get_stacked_of_outside _ hlow).trans (get_pushed_low m sp w)
    | succ i =>
      have hrest := ih (m.pushed sp w) (sp - 2) (by omega) (Nat.lt_of_succ_lt_succ hi)
      rw [sub_two_sub, sub_two_sub] at hrest
      exact hrest

theorem word_stacked (m : Memory) (sp : Word) {ws : List Word} (hws : ws.length ≤ 32768) {i : Nat}
    (hi : i < ws.length) : (m.stacked sp ws).word (sp - BitVec.ofNat 16 (2 * i + 2)) = ws[i] := by
  have hhigh : sp - BitVec.ofNat 16 (2 * i + 2) + 1 = sp - BitVec.ofNat 16 (2 * i + 1) := by bv_omega
  obtain ⟨hh, hl⟩ := m.get_stacked sp hws hi
  rw [word, hhigh, hh, hl, Word.ofBytes_high_low]

/-- Read from the bottom up, words that have been pushed stand in the opposite order. -/
theorem words_stacked (m : Memory) (sp : Word) {ws : List Word} (hws : ws.length ≤ 32768) :
    (m.stacked sp ws).words (sp - BitVec.ofNat 16 (2 * ws.length)) ws.length = ws.reverse := by
  induction ws generalizing m sp with
  | nil => rfl
  | cons w ws ih =>
    have htop : sp - BitVec.ofNat 16 (2 * (ws.length + 1)) + BitVec.ofNat 16 (2 * ws.length) = sp - 2 := by
      rw [Nat.mul_succ, ← sub_two_sub, BitVec.sub_add_cancel]
    have hword : (m.stacked sp (w :: ws)).word (sp - 2) = w := m.word_stacked sp hws (Nat.succ_pos _)
    rw [List.length_cons, words_concat, htop, hword, List.reverse_cons, Nat.mul_succ, ← sub_two_sub, stacked,
      ih _ _ (Nat.le_of_succ_le hws)]

end Memory

def Execution.withSp (s : Execution) (sp : Word) : Execution := { s with registers := { s.registers with sp } }

namespace Execution

variable (s : Execution) (a b : Word)

@[simp] theorem sp_withSp : (s.withSp a).registers.sp = a := rfl
@[simp] theorem withSp_withSp : (s.withSp a).withSp b = s.withSp b := rfl
@[simp] theorem withSp_sp : s.withSp s.registers.sp = s := rfl

end Execution

section Words

def pushWords : List Word → Microcode Unit
  | [] => return
  | w :: ws => do
    pushWord w
    pushWords ws

def popWords : Nat → Microcode (List Word)
  | 0 => return []
  | n + 1 => do
    let w ← popWord
    let ws ← popWords n
    return w :: ws

variable (s : Execution) (bus : FlatBus)

theorem value_pushWord (w : Word) : (on (pushWord w) s bus).value = ((), s.withSp (s.registers.sp - 2)) := rfl

theorem memory_pushWord (w : Word) :
    (on (pushWord w) s bus).bus.memory = bus.memory.pushed s.registers.sp w := rfl

theorem value_popWord :
    (on popWord s bus).value = (bus.memory.word s.registers.sp, s.withSp (s.registers.sp + 2)) := rfl

theorem memory_popWord : (on popWord s bus).bus.memory = bus.memory := rfl

theorem run_pushWords (ws : List Word) :
    let o := on (pushWords ws) s bus
    o.value = ((), s.withSp (s.registers.sp - BitVec.ofNat 16 (2 * ws.length))) ∧
      o.bus.memory = bus.memory.stacked s.registers.sp ws ∧ o.elapsed = 6 * ws.length := by
  induction ws generalizing s bus with
  | nil =>
    have hsp : s.registers.sp - BitVec.ofNat 16 0 = s.registers.sp := BitVec.sub_zero _
    refine ⟨?_, rfl, rfl⟩
    rw [List.length_nil, Nat.mul_zero, hsp]
    rfl
  | cons w ws ih =>
    obtain ⟨hvalue, hmemory, helapsed⟩ := ih (s.withSp (s.registers.sp - 2)) (on (pushWord w) s bus).bus
    simp only [pushWords, on_bind, value_pushWord, Outcome.value_after, Outcome.bus_after, Outcome.elapsed_after,
      elapsed_pushWord, hvalue, hmemory, helapsed, memory_pushWord, Memory.stacked, Execution.sp_withSp,
      Execution.withSp_withSp, sub_two_sub, List.length_cons, Nat.mul_succ, Nat.add_comm 6, and_self]

theorem run_popWords (n : Nat) :
    let o := on (popWords n) s bus
    o.value = (bus.memory.words s.registers.sp n, s.withSp (s.registers.sp + BitVec.ofNat 16 (2 * n))) ∧
      o.bus.memory = bus.memory ∧ o.elapsed = 6 * n := by
  induction n generalizing s bus with
  | zero =>
    have hsp : s.registers.sp + BitVec.ofNat 16 0 = s.registers.sp := BitVec.add_zero _
    refine ⟨?_, rfl, rfl⟩
    rw [Nat.mul_zero, hsp]
    rfl
  | succ n ih =>
    obtain ⟨hvalue, hmemory, helapsed⟩ := ih (s.withSp (s.registers.sp + 2)) (on popWord s bus).bus
    simp only [popWords, on_bind, on_pure, value_popWord, Outcome.value_after, Outcome.bus_after, Outcome.elapsed_after,
      elapsed_popWord, hvalue, hmemory, helapsed, memory_popWord, Memory.words, Execution.sp_withSp,
      Execution.withSp_withSp, add_two_add, Nat.mul_succ, Nat.add_comm 6, Nat.add_zero, and_self]

end Words

end Z80Machine
