import Mathlib.Algebra.Group.Int.Defs
import Mathlib.Algebra.Group.Nat.Defs
import Z80Machine.Arithmetic.Sum

/-!
Sums and differences as numbers, at any width: the value and the carry together are the exact result, the half carry
is that of the low places, and overflow means that two's complement does not have the exact result. A difference is
the sum with the complement, with each carry a missing borrow. A word is two bytes, and its sum is that of the low
bytes and, with the carry of these, that of the high ones.
-/
namespace Z80Machine

/-- Two's complement of `w` bits has the number `z`. -/
def Representable (w : Nat) (z : Int) : Prop := -2 ^ (w - 1) ≤ z ∧ z < 2 ^ (w - 1)

instance (w : Nat) (z : Int) : Decidable (Representable w z) := inferInstanceAs (Decidable (_ ∧ _))

section Scaled

variable (k : Nat) {r : Int} (h0 : 0 ≤ r) (hr : r < 2 ^ k) (t : Int)
include h0 hr

/-- What stands above the low `k` places is found by division. -/
theorem ediv_scaled : (r + 2 ^ k * t) / 2 ^ k = t := by
  have hk : (2 : Int) ^ k ≠ 0 := Int.ne_of_gt (Int.pow_pos (by decide))
  rw [Int.add_mul_ediv_left _ _ hk, Int.ediv_eq_zero_of_lt h0 hr, Int.zero_add]

theorem representable_scaled {w : Nat} (hw : 0 < w) :
    Representable (w + k) (r + 2 ^ k * t) ↔ Representable w t := by
  have hk : (0 : Int) < 2 ^ k := Int.pow_pos (by decide)
  have hbound : (2 : Int) ^ (w + k - 1) = 2 ^ (w - 1) * 2 ^ k := by
    rw [← Int.pow_add, Nat.sub_add_comm hw]
  rw [Representable, Representable, hbound, ← Int.neg_mul, ← Int.le_ediv_iff_mul_le hk,
    ← Int.ediv_lt_iff_lt_mul hk, ediv_scaled k h0 hr t]

theorem scaled_neg : r + 2 ^ k * t < 0 ↔ t < 0 := by
  have hk : (0 : Int) < 2 ^ k := Int.pow_pos (by decide)
  rw [← ediv_scaled k h0 hr t, Int.ediv_lt_iff_lt_mul hk, Int.zero_mul, ediv_scaled k h0 hr t]

end Scaled

theorem Flags.ext {f g : Flags} (hsign : f.sign = g.sign) (hzero : f.zero = g.zero) (hy : f.y = g.y)
    (hhalf : f.half = g.half) (hx : f.x = g.x) (hparity : f.parity = g.parity) (hsubtract : f.subtract = g.subtract)
    (hcarry : f.carry = g.carry) : f = g := by
  cases f
  cases g
  simp_all

/-- The flags of a difference, from those of the sum with the complement. -/
def Flags.ofComplement (f : Flags) : Flags := { f with half := !f.half, subtract := true, carry := !f.carry }

section Width

variable {w : Nat} (a b : BitVec w) (c : Bool)

/-- Bit `i` of the carries tells that the sum carries into bit `i + 1`. -/
theorem getLsbD_carries {i : Nat} (hi : i < w) :
    (carries a b (a + b + (BitVec.ofBool c).setWidth w)).getLsbD i = BitVec.carry (i + 1) a b c := by
  rw [carries, BitVec.carry_succ]
  simp only [BitVec.getLsbD_or, BitVec.getLsbD_and, BitVec.getLsbD_not, hi, decide_true, Bool.true_and,
    BitVec.getLsbD_add_add_bool hi]
  cases a.getLsbD i <;> cases b.getLsbD i <;> cases BitVec.carry i a b c <;> rfl

theorem half_add (hw : 5 ≤ w) :
    (add a b c).flags.half =
      decide (2 ^ (w - 4) ≤ a.toNat % 2 ^ (w - 4) + b.toNat % 2 ^ (w - 4) + c.toNat) := by
  have hnext : w - 5 + 1 = w - 4 := by omega
  rw [add, getLsbD_carries a b c (by omega), hnext, BitVec.carry]

theorem toNat_not_mod {k : Nat} (hk : k ≤ w) : (~~~b).toNat % 2 ^ k = 2 ^ k - 1 - b.toNat % 2 ^ k := by
  rw [← BitVec.toNat_setWidth, BitVec.setWidth_not hk, BitVec.toNat_not, BitVec.toNat_setWidth]

theorem toNat_value_add : (add a b c).value.toNat = (a.toNat + b.toNat + c.toNat) % 2 ^ w := by
  simp [add, BitVec.toNat_add]

section Positive

variable (hw : 0 < w)
include hw

theorem carry_add : (add a b c).flags.carry = decide (2 ^ w ≤ a.toNat + b.toNat + c.toNat) := by
  have hlast : w - 1 + 1 = w := Nat.sub_add_cancel hw
  calc (add a b c).flags.carry
      = (carries a b (a + b + (BitVec.ofBool c).setWidth w)).getLsbD (w - 1) := BitVec.msb_eq_getLsbD_last _
    _ = BitVec.carry w a b c := by rw [getLsbD_carries a b c (Nat.sub_lt hw Nat.one_pos), hlast]
    _ = decide (2 ^ w ≤ a.toNat + b.toNat + c.toNat) := BitVec.carry_width

/-- What the value of a sum lacks is in the carry. -/
theorem value_add_carry :
    (add a b c).value.toNat + 2 ^ w * (add a b c).flags.carry.toNat = a.toNat + b.toNat + c.toNat := by
  have ha := a.isLt
  have hb := b.isLt
  have hc := c.toNat_le
  rw [toNat_value_add, carry_add a b c hw]
  by_cases h : 2 ^ w ≤ a.toNat + b.toNat + c.toNat
  · rw [Nat.mod_eq_sub_mod h, Nat.mod_eq_of_lt (by omega), decide_eq_true h, Bool.toNat_true]
    omega
  · rw [Nat.mod_eq_of_lt (by omega), decide_eq_false h, Bool.toNat_false]
    omega

theorem toInt_of_msb :
    a.toInt = a.toNat - (2 ^ (w - 1) * 2 * a.msb.toNat : Nat) ∧ (2 ^ (w - 1) ≤ a.toNat ↔ a.msb) ∧
      a.toNat < 2 ^ (w - 1) * 2 := by
  refine ⟨?_, ?_, (Nat.two_pow_pred_mul_two hw).symm ▸ a.isLt⟩
  · rw [BitVec.toInt_eq_msb_cond, ← Nat.two_pow_pred_mul_two hw]
    cases a.msb <;> simp
  · rw [BitVec.msb_eq_decide, decide_eq_true_iff]

theorem toInt_not : (~~~b).toInt = -b.toInt - 1 := by
  obtain ⟨hb, -, hblt⟩ := toInt_of_msb b hw
  obtain ⟨hn, -, -⟩ := toInt_of_msb (~~~b) hw
  rw [hb, hn, BitVec.msb_not, BitVec.toNat_not, ← Nat.two_pow_pred_mul_two hw, decide_eq_true hw, Bool.true_and]
  generalize 2 ^ (w - 1) = h at *
  cases b.msb <;> simp only [Bool.not_true, Bool.not_false, Bool.toNat_true, Bool.toNat_false] <;> omega

/-- The sign of a sum is right exactly if it has not overflowed. -/
theorem signed_add :
    (add a b c).flags.parity = !decide (Representable w (a.toInt + b.toInt + c.toNat)) ∧
      ((add a b c).flags.sign ^^ (add a b c).flags.parity) = decide (a.toInt + b.toInt + c.toNat < 0) := by
  have hexact := value_add_carry a b c hw
  obtain ⟨ha, hamsb, halt⟩ := toInt_of_msb a hw
  obtain ⟨hb, hbmsb, hblt⟩ := toInt_of_msb b hw
  obtain ⟨-, hrmsb, hrlt⟩ := toInt_of_msb (add a b c).value hw
  have hc := c.toNat_le
  have hcast : (2 : Int) ^ (w - 1) = ((2 ^ (w - 1) : Nat) : Int) := (Int.natCast_pow 2 (w - 1)).symm
  have hparity : (add a b c).flags.parity =
      ((a.msb ^^ (add a b c).value.msb) && (b.msb ^^ (add a b c).value.msb)) := by
    rw [← BitVec.msb_xor, ← BitVec.msb_xor, ← BitVec.msb_and]
    rfl
  have hsign : (add a b c).flags.sign = (add a b c).value.msb := rfl
  rw [hparity, hsign, Bool.eq_iff_iff, Bool.eq_iff_iff]
  simp only [Bool.not_eq_true', decide_eq_false_iff_not, Representable, ha, hb, hcast]
  rw [← Nat.two_pow_pred_mul_two hw] at hexact
  generalize (add a b c).value.toNat = r at *
  generalize 2 ^ (w - 1) = h at *
  -- the three signs and the carry settle where each of the numbers lies
  generalize (add a b c).flags.carry = q at *
  generalize (add a b c).value.msb = p at *
  generalize a.msb = m at *
  generalize b.msb = n at *
  cases m <;> cases n <;> cases p <;> cases q <;> simp at * <;> omega

/-- A difference is the sum with the complement, and it borrows where that sum does not carry. -/
theorem subtract_eq_add :
    subtract a b c = ⟨(add a (~~~b) (!c)).value, (add a (~~~b) (!c)).flags.ofComplement⟩ := by
  have hvalue := sub_sub_ofBool a b c
  have hborrows {i : Nat} (hi : i < w) :
      (borrows a b (a - b - (BitVec.ofBool c).setWidth w)).getLsbD i =
        !(carries a (~~~b) (a + ~~~b + (BitVec.ofBool !c).setWidth w)).getLsbD i := by
    rw [getLsbD_borrows a b c hi, getLsbD_carries a (~~~b) (!c) hi]
  refine congrArg₂ Result.mk hvalue (Flags.ext (congrArg BitVec.msb hvalue) (congrArg (· == 0) hvalue)
    (congrArg (BitVec.getLsbD · (w - 3)) hvalue) (hborrows (by omega)) (congrArg (BitVec.getLsbD · (w - 5)) hvalue)
    ?_ rfl ?_)
  · show ((a ^^^ b) &&& (a ^^^ (a - b - (BitVec.ofBool c).setWidth w))).msb =
      ((a ^^^ (a + ~~~b + (BitVec.ofBool !c).setWidth w)) &&&
        (~~~b ^^^ (a + ~~~b + (BitVec.ofBool !c).setWidth w))).msb
    rw [hvalue]
    generalize a + ~~~b + (BitVec.ofBool !c).setWidth w = r
    simp only [BitVec.msb_and, BitVec.msb_xor, BitVec.msb_not, decide_eq_true hw, Bool.true_and]
    cases a.msb <;> cases b.msb <;> cases r.msb <;> rfl
  · show (borrows a b (a - b - (BitVec.ofBool c).setWidth w)).msb =
      !(carries a (~~~b) (a + ~~~b + (BitVec.ofBool !c).setWidth w)).msb
    rw [BitVec.msb_eq_getLsbD_last, BitVec.msb_eq_getLsbD_last]
    exact hborrows (by omega)

theorem carry_subtract : (subtract a b c).flags.carry = decide (a.toNat < b.toNat + c.toNat) := by
  have hb := b.isLt
  have hc : (!c).toNat + c.toNat = 1 := by cases c <;> rfl
  rw [subtract_eq_add a b c hw, Flags.ofComplement, carry_add a (~~~b) (!c) hw, BitVec.toNat_not, ← decide_not,
    decide_eq_decide]
  omega

/-- A borrow makes up for what the minuend lacks. -/
theorem value_subtract_borrow :
    (subtract a b c).value.toNat + b.toNat + c.toNat = a.toNat + 2 ^ w * (subtract a b c).flags.carry.toNat := by
  have hexact := value_add_carry a (~~~b) (!c) hw
  have hb := b.isLt
  have hc : (!c).toNat + c.toNat = 1 := by cases c <;> rfl
  rw [BitVec.toNat_not] at hexact
  rw [subtract_eq_add a b c hw, Flags.ofComplement]
  cases h : (add a (~~~b) (!c)).flags.carry <;> simp [h] at hexact ⊢ <;> omega

theorem signed_subtract :
    (subtract a b c).flags.parity = !decide (Representable w (a.toInt - b.toInt - c.toNat)) ∧
      ((subtract a b c).flags.sign ^^ (subtract a b c).flags.parity) = decide (a.toInt - b.toInt - c.toNat < 0) := by
  have hsum : a.toInt - b.toInt - c.toNat = a.toInt + (~~~b).toInt + (!c).toNat := by
    rw [toInt_not b hw]
    cases c <;> simp <;> omega
  rw [subtract_eq_add a b c hw, hsum]
  exact signed_add a (~~~b) (!c) hw

end Positive

theorem half_subtract_borrow (hw : 5 ≤ w) :
    (subtract a b c).flags.half = decide (a.toNat % 2 ^ (w - 4) < b.toNat % 2 ^ (w - 4) + c.toNat) := by
  have hb : b.toNat % 2 ^ (w - 4) < 2 ^ (w - 4) := Nat.mod_lt _ (Nat.two_pow_pos _)
  have hc : (!c).toNat + c.toNat = 1 := by cases c <;> rfl
  rw [subtract_eq_add a b c (by omega), Flags.ofComplement, half_add a (~~~b) (!c) hw, toNat_not_mod b (by omega),
    ← decide_not, decide_eq_decide]
  omega

end Width

namespace Word

variable (w : Word)

theorem toNat_high : w.high.toNat = w.toNat / 256 := by
  have hw := w.isLt
  rw [high, BitVec.toNat_setWidth, BitVec.toNat_ushiftRight, Nat.shiftRight_eq_div_pow]
  omega

theorem toNat_low : w.low.toNat = w.toNat % 256 := BitVec.toNat_setWidth ..

theorem getLsbD_high {i : Nat} (hi : i < 8) : w.high.getLsbD i = w.getLsbD (8 + i) := by
  simp [high, hi]

theorem msb_high : w.high.msb = w.msb := by
  rw [BitVec.msb_eq_getLsbD_last, BitVec.msb_eq_getLsbD_last]
  exact w.getLsbD_high (by decide)

theorem toInt_eq_high_low : w.toInt = 256 * w.high.toInt + w.low.toNat := by
  rw [BitVec.toInt_eq_msb_cond, BitVec.toInt_eq_msb_cond, msb_high, toNat_high, toNat_low]
  split <;> omega

theorem low_not : (~~~w).low = ~~~w.low := BitVec.setWidth_not (by decide)

theorem high_not : (~~~w).high = ~~~w.high := by
  refine BitVec.eq_of_getLsbD_eq fun i hi => ?_
  rw [getLsbD_high _ hi, BitVec.getLsbD_not, BitVec.getLsbD_not, getLsbD_high _ hi]
  simp [hi, show 8 + i < 16 by omega]

end Word

/-- What the flags say about `v` in the place of the exact result `t`: sign, Y and X of the high byte, zero of the whole
word, and overflow if two's complement has no word for `t`. -/
def Flags.ofWord (v : Word) (t : Int) : Flags where
  sign := v.high.getLsbD 7
  zero := v == 0
  y := v.high.getLsbD 5
  x := v.high.getLsbD 3
  parity := decide (t < -32768 ∨ 32767 < t)

theorem Flags.ofResult_word (v : Word) :
    (ofResult v).sign = v.high.getLsbD 7 ∧ (ofResult v).y = v.high.getLsbD 5 ∧ (ofResult v).x = v.high.getLsbD 3 := by
  have hbit (i : Nat) (hi : i < 8) : v.getLsbD (8 + i) = v.high.getLsbD i := (v.getLsbD_high hi).symm
  exact ⟨(BitVec.msb_eq_getLsbD_last v).trans (hbit 7 (by decide)), hbit 5 (by decide), hbit 3 (by decide)⟩

section Bytes

variable (a b : Word) (c : Bool)

/-- A sum of words is that of their low bytes and, with its carry, that of their high bytes. -/
theorem add_bytes :
    let low := add a.low b.low c
    let high := add a.high b.high low.flags.carry
    (add a b c).value = Word.ofBytes high.value low.value ∧
      (add a b c).flags = { high.flags with zero := (add a b c).value == 0 } := by
  intro low high
  have hlow : low.value.toNat + 256 * low.flags.carry.toNat = a.low.toNat + b.low.toNat + c.toNat :=
    value_add_carry a.low b.low c (by decide)
  have hhigh : high.value.toNat + 256 * high.flags.carry.toNat =
      a.high.toNat + b.high.toNat + low.flags.carry.toNat :=
    value_add_carry a.high b.high low.flags.carry (by decide)
  have hword : (add a b c).value.toNat + 65536 * (add a b c).flags.carry.toNat = a.toNat + b.toNat + c.toNat :=
    value_add_carry a b c (by decide)
  have hl := low.value.isLt
  have hh := high.value.isLt
  have hw := (add a b c).value.isLt
  have hc := low.flags.carry.toNat_le
  rw [Word.toNat_low, Word.toNat_low] at hlow
  rw [Word.toNat_high, Word.toNat_high] at hhigh
  have hvaluelow : Word.low (add a b c).value = low.value := BitVec.eq_of_toNat_eq (by rw [Word.toNat_low]; omega)
  have hvaluehigh : Word.high (add a b c).value = high.value := BitVec.eq_of_toNat_eq (by rw [Word.toNat_high]; omega)
  have hbit (i : Nat) (hi : i < 8) : (add a b c).value.getLsbD (8 + i) = high.value.getLsbD i := by
    rw [← hvaluehigh, Word.getLsbD_high _ hi]
  have hsigned : a.toInt + b.toInt + c.toNat =
      low.value.toNat + 2 ^ 8 * (a.high.toInt + b.high.toInt + low.flags.carry.toNat) := by
    rw [a.toInt_eq_high_low, b.toInt_eq_high_low, Word.toNat_low, Word.toNat_low]
    omega
  refine ⟨?_, Flags.ext ?_ rfl (hbit 5 (by decide)) ?_ (hbit 3 (by decide)) ?_ rfl ?_⟩
  · rw [← hvaluehigh, ← hvaluelow, Word.ofBytes_high_low]
  · show (add a b c).value.msb = high.value.msb
    rw [← hvaluehigh, Word.msb_high]
  · rw [half_add a b c (by decide)]
    show _ = high.flags.half
    rw [half_add a.high b.high low.flags.carry (by decide), Word.toNat_high, Word.toNat_high, decide_eq_decide]
    omega
  · rw [(signed_add a b c (by decide)).1, hsigned]
    show _ = high.flags.parity
    rw [(signed_add a.high b.high low.flags.carry (by decide)).1]
    simp only [representable_scaled 8 (Int.natCast_nonneg _) (Int.ofNat_lt.2 hl) _ (w := 8) (by decide)]
  · show (add a b c).flags.carry = high.flags.carry
    rw [carry_add a b c (by decide), carry_add a.high b.high low.flags.carry (by decide), Word.toNat_high,
      Word.toNat_high, decide_eq_decide]
    omega

/-- A difference of words is that of their low bytes and, with its borrow, that of their high bytes. -/
theorem subtract_bytes :
    let low := subtract a.low b.low c
    let high := subtract a.high b.high low.flags.carry
    (subtract a b c).value = Word.ofBytes high.value low.value ∧
      (subtract a b c).flags = { high.flags with zero := (subtract a b c).value == 0 } := by
  intro low high
  obtain ⟨hvalue, hflags⟩ := add_bytes a (~~~b) (!c)
  rw [Word.low_not, Word.high_not] at hvalue hflags
  have hlow : low = _ := subtract_eq_add a.low b.low c (by decide)
  have hhigh : high = _ := subtract_eq_add a.high b.high low.flags.carry (by decide)
  have hcarry : (!low.flags.carry) = (add a.low (~~~b.low) (!c)).flags.carry := by
    rw [hlow]
    exact Bool.not_not _
  rw [hcarry] at hhigh
  rw [subtract_eq_add a b c (by decide), hhigh, hlow]
  refine ⟨hvalue, ?_⟩
  rw [hflags]
  rfl

theorem flags_add_word :
    let v : Word := (add a b c).value
    (add a b c).flags =
      { Flags.ofWord v (a.toInt + b.toInt + c.toNat) with
        half := decide (0xFFF < a.toNat % 0x1000 + b.toNat % 0x1000 + c.toNat)
        carry := decide (0xFFFF < a.toNat + b.toNat + c.toNat) } := by
  intro v
  obtain ⟨hsign, hy, hx⟩ := Flags.ofResult_word v
  refine Flags.ext hsign rfl hy (half_add a b c (by decide)) hx ?_ rfl (carry_add a b c (by decide))
  rw [(signed_add a b c (by decide)).1, ← decide_not, Flags.ofWord, decide_eq_decide, Representable]
  omega

theorem flags_subtract_word :
    let v : Word := (subtract a b c).value
    (subtract a b c).flags =
      { Flags.ofWord v (a.toInt - b.toInt - c.toNat) with
        half := decide (a.toNat % 0x1000 < b.toNat % 0x1000 + c.toNat)
        subtract := true
        carry := decide (a.toNat < b.toNat + c.toNat) } := by
  intro v
  obtain ⟨hsign, hy, hx⟩ := Flags.ofResult_word v
  refine Flags.ext hsign rfl hy (half_subtract_borrow a b c (by decide)) hx ?_ rfl (carry_subtract a b c (by decide))
  rw [(signed_subtract a b c (by decide)).1, ← decide_not, Flags.ofWord, decide_eq_decide, Representable]
  omega

theorem toNat_value_subtract :
    ((subtract a b c).value.toNat : Int) = ((a.toNat : Int) - b.toNat - c.toNat) % 65536 := by
  have hexact := value_subtract_borrow a b c (by decide)
  have hv := (subtract a b c).value.isLt
  omega

/-- Arithmetic on words is exact. A sum is right modulo 2^16, and so is a difference; carry and half carry go out of
bits 15 and 11, and parity is overflow. A difference without a borrow to begin with compares its two words: as numbers
by carry and zero, in two's complement by sign and parity. The sum that keeps some flags has the others of the sum
without carry. Words are added and subtracted like their bytes, the low ones first, with the carry going on to the high
ones, which leave all the flags but zero. -/
theorem word_arithmetic (f : Flags) :
    (let s := add a b c
     s.value.toNat = (a.toNat + b.toNat + c.toNat) % 65536 ∧
       s.flags =
        { Flags.ofWord s.value (a.toInt + b.toInt + c.toNat) with
          half := decide (0xFFF < a.toNat % 0x1000 + b.toNat % 0x1000 + c.toNat)
          carry := decide (0xFFFF < a.toNat + b.toNat + c.toNat) }) ∧
    (let s := subtract a b c
     (s.value.toNat : Int) = ((a.toNat : Int) - b.toNat - c.toNat) % 65536 ∧
       s.flags =
        { Flags.ofWord s.value (a.toInt - b.toInt - c.toNat) with
          half := decide (a.toNat % 0x1000 < b.toNat % 0x1000 + c.toNat)
          subtract := true
          carry := decide (a.toNat < b.toNat + c.toNat) }) ∧
    (let g := (subtract a b false).flags
     g.carry = decide (a.toNat < b.toNat) ∧ g.zero = decide (a = b) ∧
       (g.sign ^^ g.parity) = decide (a.toInt < b.toInt)) ∧
    (let s := addWord f a b
     s.value.toNat = (a.toNat + b.toNat) % 65536 ∧
       s.flags = { (add a b false).flags with sign := f.sign, zero := f.zero, parity := f.parity }) ∧
    (let low := add a.low b.low c
     let high := add a.high b.high low.flags.carry
     (add a b c).value = Word.ofBytes high.value low.value ∧
       (add a b c).flags = { high.flags with zero := (add a b c).value == 0 }) ∧
    (let low := subtract a.low b.low c
     let high := subtract a.high b.high low.flags.carry
     (subtract a b c).value = Word.ofBytes high.value low.value ∧
       (subtract a b c).flags = { high.flags with zero := (subtract a b c).value == 0 }) := by
  refine ⟨⟨toNat_value_add a b c, flags_add_word a b c⟩, ⟨toNat_value_subtract a b c, flags_subtract_word a b c⟩, ?_,
    ⟨toNat_value_add a b false, rfl⟩, add_bytes a b c, subtract_bytes a b c⟩
  have hsigned := (signed_subtract a b false (by decide)).2
  refine ⟨carry_subtract a b false (by decide), zero_subtract a b, hsigned.trans ?_⟩
  rw [decide_eq_decide, Bool.toNat_false]
  omega

end Bytes

end Z80Machine
