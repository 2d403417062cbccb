import Mathlib.Data.List.Basic
import Mathlib.Data.Nat.Digits.Defs
import Mathlib.Tactic.LinearCombination
import Z80Machine.Arithmetic.Accumulator
import Z80Machine.Arithmetic.Shift
import Z80Machine.Proofs.Sums

/-!
Numbers of any length, byte after byte. An operation carried through a list of bytes passes its carry on from each to
the next, and so adds, subtracts and shifts numbers of as many bytes as there are.
-/
namespace Z80Machine

/-- Works through a list in order: each operation gets the carry that the one before it has left, the first one that of
`f`. What comes out is the bytes in the same order, and the flags after the last. -/
def carryThrough {α : Type} (op : α → Bool → Result 8) (f : Flags) : List α → List Byte × Flags
  | [] => ([], f)
  | a :: as =>
    let r := op a f.carry
    let rest := carryThrough op r.flags as
    (r.value :: rest.1, rest.2)

def AccumulatorOp.onPair (op : AccumulatorOp) (p : Byte × Byte) (c : Bool) : Result 8 := op.apply p.1 p.2 c

/-- The number that the bytes of a list make in some base, the least significant one first, when a byte stands for the
digit that `digit` says. -/
def numeral (base : Nat) (digit : Byte → Nat) (bs : List Byte) : Nat := Nat.ofDigits base (bs.map digit)

def bytesNat (bs : List Byte) : Nat := numeral 256 BitVec.toNat bs

/-- The number that the bytes are in two's complement. -/
def bytesInt (bs : List Byte) : Int := (BitVec.ofNat (8 * bs.length) (bytesNat bs)).toInt

section Carry

variable {α : Type} (op : α → Bool → Result 8)

@[simp] theorem length_carryThrough (f : Flags) (as : List α) : (carryThrough op f as).1.length = as.length := by
  induction as generalizing f with
  | nil => rfl
  | cons a as ih => simp [carryThrough, ih]

theorem carryThrough_concat (f : Flags) (as : List α) (a : α) :
    carryThrough op f (as ++ [a]) =
      let s := carryThrough op f as
      let r := op a s.2.carry
      (s.1 ++ [r.value], r.flags) := by
  induction as generalizing f with
  | nil => rfl
  | cons b as ih => simp [carryThrough, ih]

variable {op}

/-- What holds of every byte that the operation gives holds of all that comes out. -/
theorem forall_mem_carryThrough {P : Byte → Prop} {as : List α} (h : ∀ a ∈ as, ∀ c, P (op a c).value) (f : Flags) :
    ∀ b ∈ (carryThrough op f as).1, P b := by
  induction as generalizing f with
  | nil => simp [carryThrough]
  | cons a as ih =>
    intro b hb
    rcases List.mem_cons.1 hb with rfl | hb
    · exact h a List.mem_cons_self f.carry
    · exact ih (fun a' ha' => h a' (List.mem_cons_of_mem _ ha')) _ b hb

variable (base : Nat) (digit : Byte → Nat)

/-- Where an operation works out `v + σ * (u + c)` exactly but for what it carries, the whole is so, too. It is a sum
when `σ` is one and a difference when `σ` is minus one. -/
theorem numeral_carryThrough (σ : Int) {u v : α → Nat} {as : List α}
    (hop : ∀ a ∈ as, ∀ c,
      (digit (op a c).value : Int) = v a + σ * ((u a + c.toNat : Nat) - base * (op a c).flags.carry.toNat))
    (f : Flags) :
    let s := carryThrough op f as
    (numeral base digit s.1 : Int) = Nat.ofDigits base (as.map v) +
      σ * ((Nat.ofDigits base (as.map u) + f.carry.toNat : Nat) - (base ^ as.length : Nat) * s.2.carry.toNat) := by
  induction as generalizing f with
  | nil => simp [carryThrough, numeral]
  | cons a as ih =>
    have hfirst := hop a List.mem_cons_self f.carry
    have hrest := ih (fun b hb => hop b (List.mem_cons_of_mem _ hb)) (op a f.carry).flags
    simp only [carryThrough, numeral, List.map_cons, Nat.ofDigits_cons, List.length_cons, pow_succ] at hrest ⊢
    push_cast at hfirst hrest ⊢
    linear_combination hfirst + base * hrest

/-- Carried down from the most significant byte, an operation that halves a byte with the carry on top halves the
number. -/
theorem numeral_carryThrough_half {op : Byte → Bool → Result 8}
    (hop : ∀ a c, 2 * digit (op a c).value + (op a c).flags.carry.toNat = digit a + base * c.toNat) (f : Flags)
    (as : List Byte) :
    2 * numeral base digit (carryThrough op f as).1.reverse + (carryThrough op f as).2.carry.toNat =
      numeral base digit as.reverse + base ^ as.length * f.carry.toNat := by
  induction as generalizing f with
  | nil => simp [carryThrough, numeral]
  | cons a as ih =>
    have hfirst := hop a f.carry
    have hrest := ih (op a f.carry).flags
    simp only [carryThrough, numeral, List.reverse_cons, List.map_append, List.map_cons, List.map_nil,
      Nat.ofDigits_append, Nat.ofDigits_singleton, List.length_map, List.length_reverse, length_carryThrough,
      List.length_cons, pow_succ] at hrest ⊢
    linear_combination hrest + base ^ as.length * hfirst

end Carry

section Residue

variable {r n x y c : Nat} {q : Bool} (hr : r < n)
include hr

/-- A sum that is exact but for a carry is right modulo the size of what holds it, and the carry tells whether it does
not fit. -/
theorem residue_of_sum (h : (r : Int) = x + 1 * ((y + c : Nat) - n * q.toNat)) :
    r = (x + y + c) % n ∧ q = decide (n ≤ x + y + c) := by
  cases q with
  | false =>
    rw [Bool.toNat_false] at h
    have hs : x + y + c = r := by omega
    rw [hs]
    exact ⟨(Nat.mod_eq_of_lt hr).symm, (decide_eq_false (Nat.not_le_of_lt hr)).symm⟩
  | true =>
    rw [Bool.toNat_true] at h
    have hs : x + y + c = r + n := by omega
    rw [hs]
    exact ⟨by rw [Nat.add_mod_right, Nat.mod_eq_of_lt hr], (decide_eq_true (Nat.le_add_left n r)).symm⟩

theorem residue_of_difference (h : (r : Int) = x + -1 * ((y + c : Nat) - n * q.toNat)) :
    (r : Int) = ((x : Int) - y - c) % n ∧ q = decide (x < y + c) := by
  have hexact : (x : Int) - y - c = r + n * (-q.toNat : Int) := by
    push_cast at h
    linear_combination -h
  constructor
  · rw [hexact, Int.add_mul_emod_self_left, Int.emod_eq_of_lt (by omega) (by omega)]
  · cases q with
    | false =>
      rw [Bool.toNat_false] at h
      exact (decide_eq_false (by omega)).symm
    | true =>
      rw [Bool.toNat_true] at h
      exact (decide_eq_true (by omega)).symm

end Residue

theorem half_of_twice {r x m : Nat} {q : Bool} (h : 2 * r + q.toNat = x + 2 * m) :
    r = x / 2 + m ∧ q = x.testBit 0 := by
  rw [Nat.testBit_zero]
  cases q with
  | false =>
    rw [Bool.toNat_false] at h
    exact ⟨by omega, (decide_eq_false (by omega)).symm⟩
  | true =>
    rw [Bool.toNat_true] at h
    exact ⟨by omega, (decide_eq_true (by omega)).symm⟩

theorem numeral_lt {base : Nat} {digit : Byte → Nat} {bs : List Byte} (hbase : 1 < base)
    (hdigit : ∀ b ∈ bs, digit b < base) : numeral base digit bs < base ^ bs.length := by
  rw [numeral, ← List.length_map (f := digit)]
  refine Nat.ofDigits_lt_base_pow_length hbase fun d hd => ?_
  obtain ⟨b, hb, rfl⟩ := List.mem_map.1 hd
  exact hdigit b hb

theorem length_zip_of_eq {xs ys : List Byte} (hlen : xs.length = ys.length) : (xs.zip ys).length = xs.length := by
  rw [List.length_zip, hlen, Nat.min_self]

/-- An operation that adds or subtracts digits adds or subtracts numbers of equal length. -/
theorem numeral_zip {base : Nat} {digit : Byte → Nat} {op : Byte × Byte → Bool → Result 8} {xs ys : List Byte}
    (hlen : xs.length = ys.length) (σ : Int)
    (hop : ∀ x ∈ xs, ∀ y ∈ ys, ∀ c,
      (digit (op (x, y) c).value : Int) =
        digit x + σ * ((digit y + c.toNat : Nat) - base * (op (x, y) c).flags.carry.toNat))
    (f : Flags) :
    let s := carryThrough op f (xs.zip ys)
    (numeral base digit s.1 : Int) = numeral base digit xs +
      σ * ((numeral base digit ys + f.carry.toNat : Nat) - (base ^ xs.length : Nat) * s.2.carry.toNat) := by
  intro s
  have hexact := numeral_carryThrough base digit σ (u := fun p => digit p.2) (v := fun p => digit p.1)
    (fun p hp => hop _ (List.of_mem_zip hp).1 _ (List.of_mem_zip hp).2) f
  have hfst : (xs.zip ys).map (fun p => digit p.1) = xs.map digit := by
    show (xs.zip ys).map (digit ∘ Prod.fst) = xs.map digit
    rw [← List.map_map, List.map_fst_zip hlen.le]
  have hsnd : (xs.zip ys).map (fun p => digit p.2) = ys.map digit := by
    show (xs.zip ys).map (digit ∘ Prod.snd) = ys.map digit
    rw [← List.map_map, List.map_snd_zip hlen.ge]
  rwa [hfst, hsnd, length_zip_of_eq hlen] at hexact

section TwosComplement

theorem bytesNat_concat (bs : List Byte) (b : Byte) :
    bytesNat (bs ++ [b]) = bytesNat bs + 2 ^ (8 * bs.length) * b.toNat := by
  rw [Nat.pow_mul]
  simp [bytesNat, numeral, Nat.ofDigits_append]

theorem bytesNat_lt (bs : List Byte) : bytesNat bs < 2 ^ (8 * bs.length) := by
  rw [Nat.pow_mul]
  exact numeral_lt (by decide) fun b _ => b.isLt

theorem Representable.bmod {w : Nat} (hw : 0 < w) {z : Int} (h : Representable w z) : z.bmod (2 ^ w) = z := by
  have hcast : ((2 ^ w : Nat) : Int) = 2 ^ (w - 1) * 2 := by
    rw [← Nat.two_pow_pred_mul_two hw]
    push_cast
    rfl
  obtain ⟨hlow, hhigh⟩ := h
  exact Int.bmod_eq_of_le_mul_two (by omega) (by omega)

theorem bytesInt_concat (bs : List Byte) (b : Byte) :
    bytesInt (bs ++ [b]) = bytesNat bs + 2 ^ (8 * bs.length) * b.toInt := by
  have hwidth : 8 * (bs ++ [b]).length = 8 + 8 * bs.length := by
    rw [List.length_append, List.length_singleton]
    omega
  have hlt : (bytesNat bs : Int) < 2 ^ (8 * bs.length) := by exact_mod_cast bytesNat_lt bs
  have hbyte : Representable 8 b.toInt := ⟨BitVec.le_toInt b, BitVec.toInt_lt⟩
  have hrange := (representable_scaled (8 * bs.length) (Int.natCast_nonneg _) hlt b.toInt (by decide)).2 hbyte
  have hunsigned : (b.toNat : Int) = b.toInt + 2 ^ 8 * b.msb.toNat := by
    rw [BitVec.toInt_eq_msb_cond]
    cases b.msb <;> simp
  have hexact : (bytesNat (bs ++ [b]) : Int) =
      bytesNat bs + 2 ^ (8 * bs.length) * b.toInt + (2 ^ (8 + 8 * bs.length) : Nat) * b.msb.toNat := by
    rw [bytesNat_concat]
    push_cast
    rw [hunsigned, pow_add]
    ring
  rw [bytesInt, BitVec.toInt_ofNat', hwidth, hexact, Int.add_mul_bmod_self_left, hrange.bmod (by omega)]

/-- Of a number of bytes the last one has the sign. -/
theorem bytesInt_neg (bs : List Byte) (b : Byte) : bytesInt (bs ++ [b]) < 0 ↔ b.toInt < 0 := by
  have hlt : (bytesNat bs : Int) < 2 ^ (8 * bs.length) := by exact_mod_cast bytesNat_lt bs
  rw [bytesInt_concat, scaled_neg (8 * bs.length) (Int.natCast_nonneg _) hlt]

theorem exists_last {xs ys : List Byte} (hlen : xs.length = ys.length) (hne : xs ≠ []) :
    ∃ xs' x ys' y, xs'.length = ys'.length ∧ xs = xs' ++ [x] ∧ ys = ys' ++ [y] ∧
      ∀ (op : Byte × Byte → Bool → Result 8) (f : Flags),
        let s := carryThrough op f (xs'.zip ys')
        carryThrough op f (xs.zip ys) =
          (s.1 ++ [(op (x, y) s.2.carry).value], (op (x, y) s.2.carry).flags) := by
  obtain rfl | ⟨xs', x, rfl⟩ := List.eq_nil_or_concat' xs
  · exact absurd rfl hne
  obtain rfl | ⟨ys', y, rfl⟩ := List.eq_nil_or_concat' ys
  · simp at hlen
  have hlen' : xs'.length = ys'.length := by simpa using hlen
  refine ⟨xs', x, ys', y, hlen', rfl, rfl, fun op f => ?_⟩
  rw [List.zip_append hlen']
  exact carryThrough_concat op f (xs'.zip ys') (x, y)

/-- An operation that works out `x + σ * (y + c)` on bytes, as far as bytes go, and says by sign and parity what has
become of it, says so of whole numbers with the last bytes. -/
theorem signed_zip {op : Byte × Byte → Bool → Result 8} (σ : Int)
    (hsign : ∀ p c, (op p c).flags.sign = (op p c).value.msb)
    (hparity : ∀ x y c,
      (op (x, y) c).flags.parity = !decide (Representable 8 (x.toInt + σ * (y.toInt + c.toNat))))
    (hexact : ∀ {xs ys : List Byte}, xs.length = ys.length → ∀ f,
      let s := carryThrough op f (xs.zip ys)
      (bytesNat s.1 : Int) =
        bytesNat xs + σ * ((bytesNat ys + f.carry.toNat : Nat) - (256 ^ xs.length : Nat) * s.2.carry.toNat))
    {xs ys : List Byte} (hlen : xs.length = ys.length) (hne : xs ≠ []) (f : Flags) :
    let s := carryThrough op f (xs.zip ys)
    s.2.sign = decide (bytesInt s.1 < 0) ∧
      s.2.parity = !decide (Representable (8 * xs.length) (bytesInt xs + σ * (bytesInt ys + f.carry.toNat))) := by
  obtain ⟨xs', x, ys', y, hlen', rfl, rfl, hlast⟩ := exists_last hlen hne
  have hbefore := hexact hlen' f
  have hlength : (carryThrough op f (xs'.zip ys')).1.length = xs'.length := by
    rw [length_carryThrough, length_zip_of_eq hlen']
  rw [hlast op f]
  generalize carryThrough op f (xs'.zip ys') = r at hbefore hlength
  have hlt : (bytesNat r.1 : Int) < 2 ^ (8 * xs'.length) := by
    rw [← hlength]
    exact_mod_cast bytesNat_lt r.1
  -- What the bytes before the last leave is below one unit of the last, so only the last decides.
  have hsum : bytesInt (xs' ++ [x]) + σ * (bytesInt (ys' ++ [y]) + f.carry.toNat) =
      bytesNat r.1 + 2 ^ (8 * xs'.length) * (x.toInt + σ * (y.toInt + r.2.carry.toNat)) := by
    rw [bytesInt_concat, bytesInt_concat, ← hlen', hbefore, pow_mul]
    push_cast
    ring
  have hwidth : 8 * (xs' ++ [x]).length = 8 + 8 * xs'.length := by
    rw [List.length_append, List.length_singleton]
    omega
  constructor
  · simp only [hsign, bytesInt_neg, BitVec.msb_eq_toInt]
  · simp only [hparity, hsum, hwidth,
      representable_scaled (8 * xs'.length) (Int.natCast_nonneg _) hlt _ (w := 8) (by decide)]

end TwosComplement

section Bytes

theorem rl_exact (v : Byte) (c : Bool) :
    (Shift.rl.apply v c).value.toNat + 256 * (Shift.rl.apply v c).flags.carry.toNat = 2 * v.toNat + c.toNat := by
  revert v c
  decide

theorem rr_exact (v : Byte) (c : Bool) :
    2 * (Shift.rr.apply v c).value.toNat + (Shift.rr.apply v c).flags.carry.toNat = v.toNat + 256 * c.toNat := by
  revert v c
  decide

theorem bytesNat_rl (xs : List Byte) (f : Flags) :
    let s := carryThrough Shift.rl.apply f xs
    (bytesNat s.1 : Int) =
      bytesNat xs + 1 * ((bytesNat xs + f.carry.toNat : Nat) - (256 ^ xs.length : Nat) * s.2.carry.toNat) := by
  refine numeral_carryThrough 256 BitVec.toNat 1 (u := BitVec.toNat) (v := BitVec.toNat) (fun v _ c => ?_) f
  have hexact := rl_exact v c
  omega

theorem bytesNat_rr (xs : List Byte) (f : Flags) :
    let s := carryThrough Shift.rr.apply f xs.reverse
    2 * bytesNat s.1.reverse + s.2.carry.toNat = bytesNat xs + 256 ^ xs.length * f.carry.toNat := by
  have hexact := numeral_carryThrough_half 256 BitVec.toNat rr_exact f xs.reverse
  rwa [List.reverse_reverse, List.length_reverse] at hexact

theorem testBit_top {v k : Nat} (hk : 0 < k) (hv : v < 2 ^ k) : v.testBit (k - 1) = decide (2 ^ (k - 1) ≤ v) := by
  have hlast : k - 1 + 1 = k := Nat.sub_add_cancel hk
  by_cases h : 2 ^ (k - 1) ≤ v
  · rw [Nat.testBit_of_two_pow_le_and_two_pow_add_one_gt h (hlast ▸ hv), decide_eq_true h]
  · rw [Nat.testBit_lt_two_pow (Nat.lt_of_not_le h), decide_eq_false h]

variable {xs ys : List Byte} (hlen : xs.length = ys.length)
include hlen

theorem bytesNat_adc (f : Flags) :
    let s := carryThrough AccumulatorOp.adc.onPair f (xs.zip ys)
    (bytesNat s.1 : Int) =
      bytesNat xs + 1 * ((bytesNat ys + f.carry.toNat : Nat) - (256 ^ xs.length : Nat) * s.2.carry.toNat) := by
  refine numeral_zip hlen 1 (fun x _ y _ c => ?_) f
  have hexact : (add x y c).value.toNat + 256 * _ = _ := value_add_carry x y c (by decide)
  show ((add x y c).value.toNat : Int) = _ + 1 * (_ - (256 : Nat) * (add x y c).flags.carry.toNat)
  omega

theorem bytesNat_sbc (f : Flags) :
    let s := carryThrough AccumulatorOp.sbc.onPair f (xs.zip ys)
    (bytesNat s.1 : Int) =
      bytesNat xs + -1 * ((bytesNat ys + f.carry.toNat : Nat) - (256 ^ xs.length : Nat) * s.2.carry.toNat) := by
  refine numeral_zip hlen (-1) (fun x _ y _ c => ?_) f
  have hexact : (subtract x y c).value.toNat + _ + _ = _ + 256 * _ := value_subtract_borrow x y c (by decide)
  show ((subtract x y c).value.toNat : Int) = _ + -1 * (_ - (256 : Nat) * (subtract x y c).flags.carry.toNat)
  omega

theorem signed_adc (hne : xs ≠ []) (f : Flags) :
    let s := carryThrough AccumulatorOp.adc.onPair f (xs.zip ys)
    s.2.sign = decide (bytesInt s.1 < 0) ∧
      s.2.parity = !decide (Representable (8 * xs.length) (bytesInt xs + bytesInt ys + f.carry.toNat)) := by
  have hplus (x y c : Int) : x + 1 * (y + c) = x + y + c := by ring
  have hparity (x y : Byte) (c : Bool) : (AccumulatorOp.adc.onPair (x, y) c).flags.parity =
      !decide (Representable 8 (x.toInt + 1 * (y.toInt + c.toNat))) := by
    rw [hplus]
    exact (signed_add x y c (by decide)).1
  have hsigned := signed_zip 1 (fun _ _ => rfl) hparity bytesNat_adc hlen hne f
  rwa [hplus] at hsigned

theorem signed_sbc (hne : xs ≠ []) (f : Flags) :
    let s := carryThrough AccumulatorOp.sbc.onPair f (xs.zip ys)
    s.2.sign = decide (bytesInt s.1 < 0) ∧
      s.2.parity = !decide (Representable (8 * xs.length) (bytesInt xs - bytesInt ys - f.carry.toNat)) := by
  have hminus (x y c : Int) : x + -1 * (y + c) = x - y - c := by ring
  have hparity (x y : Byte) (c : Bool) : (AccumulatorOp.sbc.onPair (x, y) c).flags.parity =
      !decide (Representable 8 (x.toInt + -1 * (y.toInt + c.toNat))) := by
    rw [hminus]
    exact (signed_subtract x y c (by decide)).1
  have hsigned := signed_zip (-1) (fun _ _ => rfl) hparity bytesNat_sbc hlen hne f
  rwa [hminus] at hsigned

end Bytes

/-- Numbers of `n` bytes, the least significant one first. `adc` and `sbc` carried through the pairs of their bytes add
and subtract them modulo `256 ^ n`, and leave the carry or borrow of the whole, its sign, and whether it overflows as a
signed number. `rl` carried up through the bytes of one doubles it, and `rr` carried down halves it; each lets the carry
in at one end and leaves the bit that drops out at the other. -/
theorem multiprecision {n : Nat} (hn : 0 < n) {xs ys : List Byte} (hxs : xs.length = n) (hys : ys.length = n)
    (f : Flags) :
    let x := bytesNat xs
    let y := bytesNat ys
    let c := f.carry.toNat
    (let s := carryThrough AccumulatorOp.adc.onPair f (xs.zip ys)
     s.1.length = n ∧ bytesNat s.1 = (x + y + c) % 256 ^ n ∧ s.2.carry = decide (256 ^ n ≤ x + y + c) ∧
       s.2.sign = decide (bytesInt s.1 < 0) ∧
       s.2.parity = !decide (Representable (8 * n) (bytesInt xs + bytesInt ys + c))) ∧
    (let s := carryThrough AccumulatorOp.sbc.onPair f (xs.zip ys)
     s.1.length = n ∧ (bytesNat s.1 : Int) = ((x : Int) - y - c) % 256 ^ n ∧ s.2.carry = decide (x < y + c) ∧
       s.2.sign = decide (bytesInt s.1 < 0) ∧
       s.2.parity = !decide (Representable (8 * n) (bytesInt xs - bytesInt ys - c))) ∧
    (let s := carryThrough Shift.rl.apply f xs
     s.1.length = n ∧ bytesNat s.1 = (2 * x + c) % 256 ^ n ∧ s.2.carry = x.testBit (8 * n - 1)) ∧
    (let s := carryThrough Shift.rr.apply f xs.reverse
     s.1.length = n ∧ bytesNat s.1.reverse = x / 2 + c * 2 ^ (8 * n - 1) ∧ s.2.carry = x.testBit 0) := by
  subst hxs
  intro x y c
  have hlen := hys.symm
  have hne : xs ≠ [] := List.ne_nil_of_length_pos hn
  have hfits (bs : List Byte) (h : bs.length = xs.length) : bytesNat bs < 256 ^ xs.length := by
    have hlt := bytesNat_lt bs
    rwa [Nat.pow_mul, h] at hlt
  have hx : x < 2 ^ (8 * xs.length) := bytesNat_lt xs
  have htwice : 256 ^ xs.length = 2 * 2 ^ (8 * xs.length - 1) := by
    rw [Nat.mul_comm, Nat.two_pow_pred_mul_two (by omega), Nat.pow_mul]
  have hc : c ≤ 1 := f.carry.toNat_le
  refine ⟨?_, ?_, ?_, ?_⟩
  · have hn := (length_carryThrough AccumulatorOp.adc.onPair f (xs.zip ys)).trans (length_zip_of_eq hlen)
    obtain ⟨hvalue, hcarry⟩ := residue_of_sum (hfits _ hn) (bytesNat_adc hlen f)
    exact ⟨hn, hvalue, hcarry, signed_adc hlen hne f⟩
  · have hn := (length_carryThrough AccumulatorOp.sbc.onPair f (xs.zip ys)).trans (length_zip_of_eq hlen)
    obtain ⟨hvalue, hcarry⟩ := residue_of_difference (hfits _ hn) (bytesNat_sbc hlen f)
    push_cast at hvalue
    exact ⟨hn, hvalue, hcarry, signed_sbc hlen hne f⟩
  · have hn := length_carryThrough Shift.rl.apply f xs
    obtain ⟨hvalue, hcarry⟩ := residue_of_sum (hfits _ hn) (bytesNat_rl xs f)
    rw [← Nat.two_mul] at hvalue hcarry
    refine ⟨hn, hvalue, hcarry.trans ?_⟩
    -- Doubled, the number carries exactly where its top bit is set.
    rw [testBit_top (by omega) hx, decide_eq_decide]
    omega
  · have hn := (length_carryThrough Shift.rr.apply f xs.reverse).trans List.length_reverse
    have hexact := bytesNat_rr xs f
    rw [htwice, Nat.mul_assoc] at hexact
    obtain ⟨hvalue, hcarry⟩ := half_of_twice hexact
    exact ⟨hn, by rw [hvalue, Nat.mul_comm c], hcarry⟩

/-- One more than 0x7FFF is a sum of two bytes that overflows as a signed one. -/
theorem multiprecision_two :
    let xs : List Byte := [0xFF, 0x7F]
    let s := carryThrough AccumulatorOp.adc.onPair { carry := true } (xs.zip [0, 0])
    0 < 2 ∧ xs.length = 2 ∧ ([0, 0] : List Byte).length = 2 ∧
      bytesNat s.1 = 0x8000 ∧ s.2.carry = false ∧ s.2.sign = true ∧ s.2.parity = true := by
  obtain ⟨⟨-, hvalue, hcarry, hsign, hparity⟩, -⟩ :=
    @multiprecision 2 (by decide) [0xFF, 0x7F] [0, 0] rfl rfl { carry := true }
  refine ⟨by decide, rfl, rfl, hvalue.trans ?_, hcarry.trans ?_, hsign.trans ?_, hparity.trans ?_⟩ <;> decide

end Z80Machine
