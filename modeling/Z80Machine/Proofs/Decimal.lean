import Z80Machine.Proofs.CarryChain

/-!
Decimal numbers of any length, two digits to a byte. The decimal adjustment turns the sum or the difference of two
such bytes into two digits again, and the carry into a decimal one.
-/
namespace Z80Machine

/-- Both halves of the byte are digits of ten. -/
def IsDecimal (v : Byte) : Prop := v.toNat / 16 ≤ 9 ∧ v.toNat % 16 ≤ 9

instance (v : Byte) : Decidable (IsDecimal v) := inferInstanceAs (Decidable (_ ∧ _))

def decimalByte (v : Byte) : Nat := 10 * (v.toNat / 16) + v.toNat % 16

/-- The number whose pairs of digits these are, the least significant one first. -/
def decimalNat (bs : List Byte) : Nat := numeral 100 decimalByte bs

def AccumulatorOp.adjusted (op : AccumulatorOp) (p : Byte × Byte) (c : Bool) : Result 8 :=
  let r := op.onPair p c
  decimalAdjusted r.flags r.value

section Digits

variable {v : Byte} {high low : Nat}

theorem IsDecimal.digits (h : IsDecimal v) :
    ∃ high ≤ 9, ∃ low ≤ 9, v.toNat = 16 * high + low ∧ decimalByte v = 10 * high + low :=
  ⟨_, h.1, _, h.2, (Nat.div_add_mod _ 16).symm, rfl⟩

theorem IsDecimal.of_digits (hhigh : high ≤ 9) (hlow : low ≤ 9) (h : v.toNat = 16 * high + low) :
    IsDecimal v ∧ decimalByte v = 10 * high + low := by
  rw [IsDecimal, decimalByte, h]
  omega

theorem IsDecimal.byte_lt (h : IsDecimal v) : decimalByte v < 100 := by
  obtain ⟨high, hhigh, low, hlow, -, hbyte⟩ := h.digits
  omega

variable {x y c : Nat}

theorem exists_digit_sum (hx : x ≤ 9) (hy : y ≤ 9) (hc : c ≤ 1) :
    ∃ k : Bool, ∃ z ≤ 9, x + y + c = 10 * k.toNat + z := by
  by_cases h : 10 ≤ x + y + c
  · exact ⟨true, x + y + c - 10, by omega, by rw [Bool.toNat_true]; omega⟩
  · exact ⟨false, x + y + c, by omega, by rw [Bool.toNat_false]; omega⟩

theorem exists_digit_difference (hx : x ≤ 9) (hy : y ≤ 9) (hc : c ≤ 1) :
    ∃ k : Bool, ∃ z ≤ 9, x + 10 * k.toNat = y + c + z := by
  by_cases h : x < y + c
  · exact ⟨true, x + 10 - (y + c), by omega, by rw [Bool.toNat_true]; omega⟩
  · exact ⟨false, x - (y + c), by omega, by rw [Bool.toNat_false]; omega⟩

variable {xh xl yh yl zh zl v : Nat} {b h l : Bool}

/-- The sum `v` of two bytes of digits, beside the decimal sum of the digits. Each digit is corrected by six exactly
where it carries in base ten, and is then the digit of the decimal sum. -/
theorem corrected_sum (hv : v < 256) (hzl : zl ≤ 9) (hzh : zh ≤ 9)
    (hbyte : v + 256 * b.toNat = 16 * xh + xl + (16 * yh + yl) + c) (hlow : xl + yl + c = 10 * l.toNat + zl)
    (hhigh : xh + yh + l.toNat = 10 * h.toNat + zh) :
    (decide (16 ≤ xl + yl + c) || decide (9 < v % 16)) = l ∧ (b || decide (0x99 < v)) = h ∧
      (v + (6 * l.toNat + 0x60 * h.toNat)) % 256 = 16 * zh + zl := by
  cases b <;> cases l <;> cases h <;> simp only [Bool.toNat_true, Bool.toNat_false] at * <;> simp <;> omega

theorem corrected_difference (hv : v < 256) (hxh : xh ≤ 9) (hxl : xl ≤ 9) (hzl : zl ≤ 9) (hzh : zh ≤ 9)
    (hbyte : v + (16 * yh + yl) + c = 16 * xh + xl + 256 * b.toNat) (hlow : xl + 10 * l.toNat = yl + c + zl)
    (hhigh : xh + 10 * h.toNat = yh + l.toNat + zh) :
    (decide (xl < yl + c) || decide (9 < v % 16)) = l ∧ (b || decide (0x99 < v)) = h ∧
      (256 - (6 * l.toNat + 0x60 * h.toNat) + v) % 256 = 16 * zh + zl := by
  cases b <;> cases l <;> cases h <;> simp only [Bool.toNat_true, Bool.toNat_false] at * <;> simp <;> omega

end Digits

/-- The two corrections do not overlap, so that they add up. -/
theorem toNat_decimalAdjusted (f : Flags) (a : Byte) :
    (decimalAdjusted f a).value.toNat =
      let correction := 6 * (f.half || decide (9 < a.toNat % 16)).toNat +
        0x60 * (f.carry || decide (0x99 < a.toNat)).toNat
      if f.subtract then (256 - correction + a.toNat) % 256 else (a.toNat + correction) % 256 := by
  have hdigit : (9 < a &&& 0x0F) = (9 < a.toNat % 16) := by
    rw [BitVec.lt_def, BitVec.toNat_and]
    exact congrArg (9 < ·) (Nat.and_two_pow_sub_one_eq_mod _ 4)
  have hexcess : (0x99 < a) = (0x99 < a.toNat) := rfl
  simp only [decimalAdjusted, hdigit, hexcess]
  cases f.half || decide (9 < a.toNat % 16) <;> cases f.carry || decide (0x99 < a.toNat) <;> cases f.subtract <;> rfl

/-- Where the corrections of `a` make it the digits `high` and `low`, it is decimal and stands for these. -/
theorem digits_decimalAdjusted {f : Flags} {a : Byte} {high low : Nat} {h l : Bool} (hhigh : high ≤ 9) (hlow : low ≤ 9)
    (hcorrected : (f.half || decide (9 < a.toNat % 16)) = l) (hcarry : (f.carry || decide (0x99 < a.toNat)) = h)
    (hvalue :
      (let correction := 6 * l.toNat + 0x60 * h.toNat
       if f.subtract then (256 - correction + a.toNat) % 256 else (a.toNat + correction) % 256) = 16 * high + low) :
    let r := decimalAdjusted f a
    IsDecimal r.value ∧ decimalByte r.value = 10 * high + low ∧ r.flags.carry = h := by
  intro r
  have hr : r.value.toNat = 16 * high + low := by
    rw [toNat_decimalAdjusted, hcorrected, hcarry]
    exact hvalue
  obtain ⟨hdecimal, hbyte⟩ := IsDecimal.of_digits hhigh hlow hr
  exact ⟨hdecimal, hbyte, hcarry⟩

section Byte

variable {x y : Byte} (hx : IsDecimal x) (hy : IsDecimal y) (c : Bool)
include hx hy

theorem adjusted_adc :
    let r := AccumulatorOp.adc.adjusted (x, y) c
    IsDecimal r.value ∧ (decimalByte r.value : Int) =
      decimalByte x + 1 * ((decimalByte y + c.toNat : Nat) - (100 : Nat) * r.flags.carry.toNat) := by
  intro r
  obtain ⟨xh, hxh, xl, hxl, hx, hxbyte⟩ := hx.digits
  obtain ⟨yh, hyh, yl, hyl, hy, hybyte⟩ := hy.digits
  -- `l` and `h` are the carries of the decimal digits, `zl` and `zh` the digits of their sum.
  obtain ⟨l, zl, hzl, hlow⟩ := exists_digit_sum hxl hyl c.toNat_le
  obtain ⟨h, zh, hzh, hhigh⟩ := exists_digit_sum hxh hyh l.toNat_le
  let s := add x y c
  have hhalf : s.flags.half = decide (16 ≤ xl + yl + c.toNat) := by
    rw [half_add x y c (by decide), hx, hy, decide_eq_decide]
    omega
  have hsum : s.value.toNat + 256 * s.flags.carry.toNat = 16 * xh + xl + (16 * yh + yl) + c.toNat := by
    rw [← hx, ← hy]
    exact value_add_carry x y c (by decide)
  obtain ⟨hcorrected, hcarry, hvalue⟩ := corrected_sum s.value.isLt hzl hzh hsum hlow hhigh
  rw [← hhalf] at hcorrected
  obtain ⟨hdecimal, hbyte, hr⟩ := digits_decimalAdjusted hzh hzl hcorrected hcarry hvalue
  refine ⟨hdecimal, ?_⟩
  rw [show r = decimalAdjusted s.flags s.value from rfl, hbyte, hr, hxbyte, hybyte]
  omega

theorem adjusted_sbc :
    let r := AccumulatorOp.sbc.adjusted (x, y) c
    IsDecimal r.value ∧ (decimalByte r.value : Int) =
      decimalByte x + -1 * ((decimalByte y + c.toNat : Nat) - (100 : Nat) * r.flags.carry.toNat) := by
  intro r
  obtain ⟨xh, hxh, xl, hxl, hx, hxbyte⟩ := hx.digits
  obtain ⟨yh, hyh, yl, hyl, hy, hybyte⟩ := hy.digits
  obtain ⟨l, zl, hzl, hlow⟩ := exists_digit_difference hxl hyl c.toNat_le
  obtain ⟨h, zh, hzh, hhigh⟩ := exists_digit_difference hxh hyh l.toNat_le
  let s := subtract x y c
  have hhalf : s.flags.half = decide (xl < yl + c.toNat) := by
    rw [half_subtract_borrow x y c (by decide), hx, hy, decide_eq_decide]
    omega
  have hdifference : s.value.toNat + (16 * yh + yl) + c.toNat = 16 * xh + xl + 256 * s.flags.carry.toNat := by
    rw [← hx, ← hy]
    exact value_subtract_borrow x y c (by decide)
  obtain ⟨hcorrected, hcarry, hvalue⟩ := corrected_difference s.value.isLt hxh hxl hzl hzh hdifference hlow hhigh
  rw [← hhalf] at hcorrected
  obtain ⟨hdecimal, hbyte, hr⟩ := digits_decimalAdjusted hzh hzl hcorrected hcarry hvalue
  refine ⟨hdecimal, ?_⟩
  rw [show r = decimalAdjusted s.flags s.value from rfl, hbyte, hr, hxbyte, hybyte]
  omega

end Byte

/-- Numbers of `n` bytes with two decimal digits each, the least significant first. With every byte adjusted before its
carry goes on, `adc` and `sbc` add and subtract them modulo `100 ^ n`, in decimal digits again, and leave the decimal
carry or borrow. -/
theorem decimal_arithmetic {n : Nat} {xs ys : List Byte} (hxs : xs.length = n) (hys : ys.length = n)
    (hx : ∀ v ∈ xs, IsDecimal v) (hy : ∀ v ∈ ys, IsDecimal v) (f : Flags) :
    let x := decimalNat xs
    let y := decimalNat ys
    let c := f.carry.toNat
    (let s := carryThrough AccumulatorOp.adc.adjusted f (xs.zip ys)
     s.1.length = n ∧ (∀ v ∈ s.1, IsDecimal v) ∧ decimalNat s.1 = (x + y + c) % 100 ^ n ∧
       s.2.carry = decide (100 ^ n ≤ x + y + c)) ∧
    (let s := carryThrough AccumulatorOp.sbc.adjusted f (xs.zip ys)
     s.1.length = n ∧ (∀ v ∈ s.1, IsDecimal v) ∧ (decimalNat s.1 : Int) = ((x : Int) - y - c) % 100 ^ n ∧
       s.2.carry = decide (x < y + c)) := by
  subst hxs
  intro x y c
  have hlen := hys.symm
  have hfits {bs : List Byte} (h : bs.length = xs.length) (hbs : ∀ v ∈ bs, IsDecimal v) :
      decimalNat bs < 100 ^ xs.length := by
    rw [← h]
    exact numeral_lt (by decide) fun v hv => (hbs v hv).byte_lt
  have hpair {p : Byte × Byte} (hp : p ∈ xs.zip ys) : IsDecimal p.1 ∧ IsDecimal p.2 :=
    ⟨hx _ (List.of_mem_zip hp).1, hy _ (List.of_mem_zip hp).2⟩
  constructor
  · have hn := (length_carryThrough AccumulatorOp.adc.adjusted f (xs.zip ys)).trans (length_zip_of_eq hlen)
    have hdigits := forall_mem_carryThrough (fun p hp c => (adjusted_adc (hpair hp).1 (hpair hp).2 c).1) f
    obtain ⟨hvalue, hcarry⟩ := residue_of_sum (hfits hn hdigits)
      (numeral_zip hlen 1 (fun a ha b hb c => (adjusted_adc (hx a ha) (hy b hb) c).2) f)
    exact ⟨hn, hdigits, hvalue, hcarry⟩
  · have hn := (length_carryThrough AccumulatorOp.sbc.adjusted f (xs.zip ys)).trans (length_zip_of_eq hlen)
    have hdigits := forall_mem_carryThrough (fun p hp c => (adjusted_sbc (hpair hp).1 (hpair hp).2 c).1) f
    obtain ⟨hvalue, hcarry⟩ := residue_of_difference (hfits hn hdigits)
      (numeral_zip hlen (-1) (fun a ha b hb c => (adjusted_sbc (hx a ha) (hy b hb) c).2) f)
    push_cast at hvalue
    exact ⟨hn, hdigits, hvalue, hcarry⟩

/-- One from 1000 is 999. -/
theorem decimal_arithmetic_two :
    let xs : List Byte := [0x00, 0x10]
    let s := carryThrough AccumulatorOp.sbc.adjusted { carry := true } (xs.zip [0, 0])
    xs.length = 2 ∧ ([0, 0] : List Byte).length = 2 ∧ (∀ v ∈ xs, IsDecimal v) ∧
      (∀ v ∈ ([0, 0] : List Byte), IsDecimal v) ∧ decimalNat s.1 = 999 ∧ s.2.carry = false := by
  have hxs : ∀ v ∈ ([0x00, 0x10] : List Byte), IsDecimal v := by decide
  have hys : ∀ v ∈ ([0, 0] : List Byte), IsDecimal v := by decide
  obtain ⟨-, -, -, hvalue, hcarry⟩ := @decimal_arithmetic 2 [0x00, 0x10] [0, 0] rfl rfl hxs hys { carry := true }
  exact ⟨rfl, rfl, hxs, hys, Int.ofNat_inj.1 (hvalue.trans (by decide)), hcarry.trans (by decide)⟩

end Z80Machine
