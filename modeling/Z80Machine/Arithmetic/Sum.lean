import Z80Machine.Flags

/-!
Addition and subtraction at any width. `carries a b r` has in bit `k` the carry out of bit `k` when
`r` is the sum of `a`, `b` and some carry in, and `borrows` likewise for differences; half carry and
carry are two bits of that word. Bytes and words use the same definitions.
-/
namespace Z80Machine

/-- What an operation leaves in its destination and in the flags. -/
structure Result (w : Nat) where
  value : BitVec w
  flags : Flags
  deriving DecidableEq, Repr

variable {w : Nat}

def carries (a b r : BitVec w) : BitVec w := a &&& b ||| (a ||| b) &&& ~~~r

def borrows (a b r : BitVec w) : BitVec w := ~~~a &&& b ||| (~~~a ||| b) &&& r

/-- The sum of `a`, `b` and the carry `c`. The half carry leaves bit 3 of the top byte. -/
def add (a b : BitVec w) (c : Bool) : Result w :=
  let r := a + b + (BitVec.ofBool c).setWidth w
  { value := r
    flags :=
      { Flags.ofResult r with
        half := (carries a b r).getLsbD (w - 5)
        parity := ((a ^^^ r) &&& (b ^^^ r)).msb
        carry := (carries a b r).msb } }

/-- The difference of `a` and `b` less the borrow `c`. -/
def subtract (a b : BitVec w) (c : Bool) : Result w :=
  let r := a - b - (BitVec.ofBool c).setWidth w
  { value := r
    flags :=
      { Flags.ofResult r with
        half := (borrows a b r).getLsbD (w - 5)
        parity := ((a ^^^ b) &&& (a ^^^ r)).msb
        subtract := true
        carry := (borrows a b r).msb } }

theorem zero_subtract (a b : BitVec w) : (subtract a b false).flags.zero = (a == b) := by
  have hz : a - b = 0#w ↔ a = b := by
    rw [BitVec.sub_eq_iff_eq_add, BitVec.zero_add]
  rw [Bool.eq_iff_iff]
  simpa [subtract, Flags.ofResult] using hz

theorem sign_subtract (a b : BitVec w) : (subtract a b false).flags.sign = (a - b).msb := by
  simp [subtract, Flags.ofResult]

/-- A difference is a sum with the complement, and a borrow is a missing carry. -/
theorem sub_sub_ofBool (a b : BitVec w) (c : Bool) :
    a - b - (BitVec.ofBool c).setWidth w = a + ~~~b + (BitVec.ofBool !c).setWidth w := by
  have hone : (BitVec.ofBool c).setWidth w + (BitVec.ofBool !c).setWidth w = 1#w := by
    apply BitVec.eq_of_toNat_eq
    cases c <;> simp
  rw [BitVec.sub_eq_add_neg a b, BitVec.neg_eq_not_add, ← hone, BitVec.sub_eq_iff_eq_add]
  ac_rfl

/-- Bit `i` of the borrows tells that the difference borrows from bit `i + 1`. -/
theorem getLsbD_borrows (a b : BitVec w) (c : Bool) {i : Nat} (hi : i < w) :
    (borrows a b (a - b - (BitVec.ofBool c).setWidth w)).getLsbD i = !BitVec.carry (i + 1) a (~~~b) (!c) := by
  rw [sub_sub_ofBool, borrows, BitVec.carry_succ]
  simp only [BitVec.getLsbD_or, BitVec.getLsbD_and, BitVec.getLsbD_not, hi, decide_true, Bool.true_and,
    BitVec.getLsbD_add_add_bool hi]
  cases a.getLsbD i <;> cases b.getLsbD i <;> cases BitVec.carry i a (~~~b) (!c) <;> rfl

theorem half_subtract (a b : BitVec 8) :
    (subtract a b false).flags.half = decide (a.toNat % 16 < b.toNat % 16) := by
  have hb := b.isLt
  rw [subtract, getLsbD_borrows a b false (by decide), BitVec.carry, Bool.eq_iff_iff]
  simp only [BitVec.toNat_not, Bool.not_eq_true', decide_eq_false_iff_not, decide_eq_true_eq, Bool.toNat_true,
    Bool.not_false]
  omega

/-- Adds one; the carry flag stays as it is in `f`. -/
def increment (f : Flags) (a : Byte) : Result 8 :=
  let s := add a 1 false
  { s with flags := { s.flags with carry := f.carry } }

/-- Subtracts one; the carry flag stays as it is in `f`. -/
def decrement (f : Flags) (a : Byte) : Result 8 :=
  let s := subtract a 1 false
  { s with flags := { s.flags with carry := f.carry } }

/-- The sum of two words; sign, zero and parity stay as they are in `f`. -/
def addWord (f : Flags) (a b : Word) : Result 16 :=
  let s := add a b false
  { s with flags := { s.flags with sign := f.sign, zero := f.zero, parity := f.parity } }

end Z80Machine
