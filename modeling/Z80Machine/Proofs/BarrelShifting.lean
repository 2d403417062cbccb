import Mathlib.Algebra.Group.Int.Defs
import Mathlib.Algebra.Group.Nat.Defs
import Z80Machine.Microcode.Operation
import Z80Machine.Proofs.Execution

/-!
Barrel shifts bit by bit and as arithmetic. The low five bits of a count are the places that it shifts by, and the
shifts are exact for all of them, but one: the double word out of which `rightFill` shifts has sixteen ones to fill
with, and by more places than that zeros follow the ones.
-/
namespace Z80Machine.BarrelShift

def places (count : Byte) : Nat := count.toNat % 32

theorem toNat_places (count : Byte) : (count &&& 0x1F).toNat = places count := by
  revert count
  decide

theorem toNat_turns (count : Byte) : (count &&& 0x0F).toNat = count.toNat % 16 := by
  revert count
  decide

theorem places_add {b c : Byte} (h : places b + places c ≤ 31) : places (b + c) = places b + places c := by
  simp only [places, BitVec.toNat_add] at h ⊢
  omega

section Places

variable (v : Word) (count : Byte)

theorem apply_left : left.apply v count = v <<< places count := by
  rw [← toNat_places]
  rfl

theorem apply_rightArithmetic : rightArithmetic.apply v count = v.sshiftRight (places count) := by
  rw [← toNat_places]
  rfl

theorem apply_rightLogical : rightLogical.apply v count = v >>> places count := by
  rw [← toNat_places]
  rfl

theorem getLsbD_rightFill {i : Nat} (hi : i < 16) :
    (rightFill.apply v count).getLsbD i =
      if places count + i < 16 then v.getLsbD (places count + i) else decide (places count + i < 32) := by
  have hones : ∀ j < 32, (0xFFFF0000 : BitVec 32).getLsbD j = decide (16 ≤ j) := by decide
  have hword (j : Nat) : (0xFFFF0000 ||| v.setWidth 32).getLsbD j =
      if j < 16 then v.getLsbD j else decide (j < 32) := by
    by_cases hj : j < 32
    · rw [BitVec.getLsbD_or, hones j hj, BitVec.getLsbD_setWidth]
      by_cases h16 : j < 16
      · simp [hj, h16, Nat.not_le_of_lt h16]
      · simp [hj, h16, Nat.le_of_not_lt h16]
    · simp [BitVec.getLsbD_of_ge _ j (Nat.le_of_not_lt hj), hj, show ¬ j < 16 by omega]
  simp only [apply, toNat_places, BitVec.getLsbD_setWidth, BitVec.getLsbD_ushiftRight, hi, decide_true,
    Bool.true_and, hword]

/-- The bits of a complement that is shifted and complemented back: ones come in without end. -/
theorem getLsbD_complemented {i : Nat} (hi : i < 16) :
    (~~~(rightLogical.apply (~~~v) count)).getLsbD i =
      if places count + i < 16 then v.getLsbD (places count + i) else true := by
  by_cases h : places count + i < 16 <;> simp [apply_rightLogical, hi, h]

theorem getLsbD_rotateLeft {i : Nat} (hi : i < 16) :
    (rotateLeft.apply v count).getLsbD ((i + count.toNat) % 16) = v.getLsbD i := by
  have hrotate : rotateLeft.apply v count = v.rotateLeft (count.toNat % 16) := by
    rw [← toNat_turns]
    rfl
  have hturns : count.toNat % 16 < 16 := Nat.mod_lt _ (by decide)
  rw [hrotate, BitVec.getLsbD_rotateLeft, Nat.mod_mod, Nat.add_mod]
  generalize count.toNat % 16 = n at hturns
  rw [Nat.mod_eq_of_lt hi]
  -- the bit has come round the end of the word, or it has not
  by_cases hround : i + n < 16
  · rw [Nat.mod_eq_of_lt hround]
    simp [hround, show ¬ i + n < n by omega]
  · have hmod : (i + n) % 16 = i + n - 16 := by omega
    rw [hmod]
    have hback : 16 - n + (i + n - 16) = i := by omega
    simp [hback, show i + n - 16 < n by omega]

end Places

section Fill

variable (v : Word) (b c : Byte)

/-- Filling with ones is the complement of a logical shift exactly up to sixteen places. -/
theorem rightFill_eq_complemented :
    rightFill.apply v c = ~~~(rightLogical.apply (~~~v) c) ↔ places c ≤ 16 := by
  constructor
  · intro h
    have htop := congrArg (·.getLsbD 15) h
    simp only [getLsbD_rightFill v c (by decide : 15 < 16), getLsbD_complemented v c (by decide : 15 < 16)] at htop
    split at htop
    · omega
    · simp only [decide_eq_true_eq] at htop
      omega
  · intro h
    refine BitVec.eq_of_getLsbD_eq fun i hi => ?_
    rw [getLsbD_rightFill v c hi, getLsbD_complemented v c hi]
    simp [show places c + i < 32 by omega]

theorem toNat_rightFill (h : 16 ≤ places c) : (rightFill.apply v c).toNat = 2 ^ (32 - places c) - 1 := by
  have hplaces : places c < 32 := Nat.mod_lt _ (by decide)
  have hones : rightFill.apply v c = BitVec.ofNat 16 (2 ^ (32 - places c) - 1) := by
    refine BitVec.eq_of_getLsbD_eq fun i hi => ?_
    rw [getLsbD_rightFill v c hi, BitVec.getLsbD_ofNat, Nat.testBit_two_pow_sub_one, if_neg (by omega)]
    simp only [hi, decide_true, Bool.true_and, decide_eq_decide]
    omega
  have hbound : 2 ^ (32 - places c) ≤ 2 ^ 16 := Nat.pow_le_pow_right (by decide) (by omega)
  have hpos : 0 < 2 ^ (32 - places c) := Nat.two_pow_pos _
  rw [hones, BitVec.toNat_ofNat, Nat.mod_eq_of_lt (by omega)]

/-- Two fills are one exactly if the ones last or one of the two does not shift at all. -/
theorem rightFill_rightFill (h : places b + places c ≤ 31) :
    rightFill.apply (rightFill.apply v b) c = rightFill.apply v (b + c) ↔
      places b + places c ≤ 16 ∨ places b = 0 ∨ places c = 0 := by
  have hbit {i : Nat} (hi : i < 16) :
      ((rightFill.apply (rightFill.apply v b) c).getLsbD i = (rightFill.apply v (b + c)).getLsbD i) ↔
        (16 ≤ places c + i → (places c + i < 32 ↔ places b + places c + i < 32)) := by
    rw [getLsbD_rightFill _ c hi, getLsbD_rightFill v (b + c) hi, places_add h]
    by_cases hc : places c + i < 16
    · rw [if_pos hc, getLsbD_rightFill v b hc, Nat.add_assoc]
      simp [show ¬ 16 ≤ places c + i by omega]
    · rw [if_neg hc, if_neg (by omega), decide_eq_decide]
      simp [Nat.le_of_not_lt hc]
  constructor
  · intro hv
    -- the lowest bit that can tell is the one that the last of the ones reaches
    have htell := (hbit (i := min 15 (31 - places c)) (by omega)).1 (by rw [hv])
    omega
  · intro hb
    refine BitVec.eq_of_getLsbD_eq fun i hi => (hbit hi).2 fun _ => ?_
    omega

end Fill

/-- Barrel shifts for every count. A shift to the left multiplies by a power of two modulo 2^16 and the logical and
arithmetic shifts to the right divide by it; a rotation moves every bit by the count modulo 16. Up to sixteen places
filling with ones is the complement of a logical shift of the complement, and beyond that it is not, as fewer and fewer
ones are left. Shifts by places that add up to less than 32 are one shift, fills only if the ones last or one of the two
does not shift at all. The instruction puts the word into DE and does nothing else. -/
theorem apply_exact (v : Word) (count : Byte) :
    let n := count.toNat % 32
    (left.apply v count).toNat = v.toNat * 2 ^ n % 2 ^ 16 ∧
    (rightLogical.apply v count).toNat = v.toNat / 2 ^ n ∧
    (rightArithmetic.apply v count).toInt = v.toInt / 2 ^ n ∧
    (∀ i < 16, (rotateLeft.apply v count).getLsbD ((i + count.toNat) % 16) = v.getLsbD i) ∧
    (rightFill.apply v count = ~~~(rightLogical.apply (~~~v) count) ↔ n ≤ 16) ∧
    (16 ≤ n → (rightFill.apply v count).toNat = 2 ^ (32 - n) - 1) ∧
    (∀ c : Byte, n + c.toNat % 32 ≤ 31 →
      (∀ op ∈ [left, rightLogical, rightArithmetic],
        op.apply (op.apply v count) c = op.apply v (count + c)) ∧
      (rightFill.apply (rightFill.apply v count) c = rightFill.apply v (count + c) ↔
        n + c.toNat % 32 ≤ 16 ∨ n = 0 ∨ c.toNat % 32 = 0)) ∧
    ∀ (op : BarrelShift) (config : Config) (previous : Flags) (s : Execution) {β : Type} [Bus β] (bus : β),
      Microcode.on ((Operation.extension (.barrel op)).execute config previous) s bus =
        ⟨((), { s with registers := s.registers.withDe (op.apply s.registers.de s.registers.b) }), bus, 0⟩ := by
  intro n
  refine ⟨?_, ?_, ?_, fun i hi => getLsbD_rotateLeft v count hi, rightFill_eq_complemented v count,
    toNat_rightFill v count, fun c hc => ⟨?_, rightFill_rightFill v count c hc⟩, fun _ _ _ _ _ _ _ => rfl⟩
  · rw [apply_left, BitVec.toNat_shiftLeft, Nat.shiftLeft_eq]
    rfl
  · rw [apply_rightLogical, BitVec.toNat_ushiftRight, Nat.shiftRight_eq_div_pow]
    rfl
  · rw [apply_rightArithmetic, BitVec.toInt_sshiftRight, Int.shiftRight_eq_div_pow]
    rfl
  · intro op hop
    have hsum : places (count + c) = places count + places c := places_add hc
    simp only [List.mem_cons, List.not_mem_nil, or_false] at hop
    rcases hop with rfl | rfl | rfl
    · simp only [apply_left, hsum, BitVec.shiftLeft_add]
    · simp only [apply_rightLogical, hsum, BitVec.shiftRight_add]
    · simp only [apply_rightArithmetic, hsum, BitVec.sshiftRight_add]

/-- Twenty places leave twelve ones, and a fill by sixteen and one by four leave sixteen. -/
theorem apply_exact_twenty :
    16 ≤ (20 : Byte).toNat % 32 ∧ (rightFill.apply 0x1234 20).toNat = 0xFFF ∧
      (16 : Byte).toNat % 32 + (4 : Byte).toNat % 32 ≤ 31 ∧
      rightFill.apply (rightFill.apply 0x1234 16) 4 ≠ rightFill.apply 0x1234 20 := by
  obtain ⟨-, -, -, -, -, hones, -⟩ := apply_exact 0x1234 20
  obtain ⟨-, -, -, -, -, -, hsum, -⟩ := apply_exact 0x1234 16
  have hlong : 16 ≤ (20 : Byte).toNat % 32 := by decide
  have hplaces : (16 : Byte).toNat % 32 + (4 : Byte).toNat % 32 ≤ 31 := by decide
  exact ⟨hlong, hones hlong, hplaces, fun h => absurd ((hsum 4 hplaces).2.1 h) (by decide)⟩

/-- By seventeen places a fill is no longer the complement of a logical shift: it brings in a zero. -/
theorem not_complemented_seventeen :
    ¬ ∀ (v : Word) (count : Byte), rightFill.apply v count = ~~~(rightLogical.apply (~~~v) count) := by
  intro h
  have hzero : rightFill.apply 0 17 = ~~~(rightLogical.apply (~~~0) 17) := h 0 17
  exact absurd hzero (by decide)

end Z80Machine.BarrelShift
