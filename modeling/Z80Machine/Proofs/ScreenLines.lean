import Mathlib.Algebra.Group.Nat.Defs
import Mathlib.Logic.Function.Iterate
import Z80Machine.Proofs.Opcodes
import Z80Machine.Proofs.Rounds

/-!
The lines of the screen. An address has a column and the number of a line in it, the bits of the number not in their
order, and the address below has the next number, with a carry from one group of bits to the next. The address of a
pixel has the same layout, with the lines of pixels from 512 on.
-/
namespace Z80Machine

namespace Screen

/-- The column of eight pixels at an address. -/
def column (a : Word) : BitVec 5 := a.extractLsb' 0 5

/-- The line at an address, the three groups of its bits put in order. -/
def line (a : Word) : BitVec 11 := a.extractLsb' 11 5 ++ a.extractLsb' 5 3 ++ a.extractLsb' 8 3

/-- An address as digits: `t`, `g` and `r` are the groups of the line from the top one down, and `c` is the column. -/
structure Digits (a : Word) (t g r c : Nat) : Prop where
  value : a.toNat = 2048 * t + 256 * r + 32 * g + c
  middle : g < 8
  lowest : r < 8
  column : c < 32

section Layout

variable (a b : Word)

theorem toNat_column : (column a).toNat = a.toNat % 32 := by
  rw [column, BitVec.extractLsb'_toNat, Nat.shiftRight_zero]

theorem toNat_line :
    (line a).toNat = 64 * (a.toNat / 32 / 8 / 8) + 8 * (a.toNat / 32 % 8) + a.toNat / 32 / 8 % 8 := by
  have ha := a.isLt
  rw [line, BitVec.toNat_append, BitVec.toNat_append, ← Nat.shiftLeft_add_eq_or_of_lt (BitVec.isLt _),
    ← Nat.shiftLeft_add_eq_or_of_lt (BitVec.isLt _)]
  simp only [BitVec.extractLsb'_toNat, Nat.shiftLeft_eq, Nat.shiftRight_eq_div_pow, Nat.div_div_eq_div_mul]
  omega

theorem exists_digits : ∃ t g r c, Digits a t g r c :=
  ⟨a.toNat / 32 / 8 / 8, a.toNat / 32 % 8, a.toNat / 32 / 8 % 8, a.toNat % 32, by omega, by omega, by omega, by omega⟩

variable {a b}

theorem Digits.place {t g r c : Nat} (h : Digits a t g r c) :
    (Screen.column a).toNat = c ∧ (line a).toNat = 64 * t + 8 * g + r := by
  obtain ⟨hvalue, hg, hr, hc⟩ := h
  have hline : a.toNat / 32 = 64 * t + 8 * r + g := by omega
  have hupper : (64 * t + 8 * r + g) / 8 = 8 * t + r := by omega
  rw [toNat_column, toNat_line, hline, hupper]
  omega

/-- Column and line make up an address. -/
theorem eq_of_place (hcolumn : column a = column b) (hline : line a = line b) : a = b := by
  have hc := congrArg BitVec.toNat hcolumn
  have hl := congrArg BitVec.toNat hline
  rw [toNat_column, toNat_column] at hc
  rw [toNat_line, toNat_line] at hl
  refine BitVec.eq_of_toNat_eq ?_
  omega

end Layout

section Masks

variable {a m : Word}

/-- A mask of `k` ones from place `i` on shows whether these places are all set. -/
theorem and_ones_eq_iff {i k : Nat} (h : i + k ≤ 16) :
    a &&& BitVec.ofNat 16 ((2 ^ k - 1) <<< i) = BitVec.ofNat 16 ((2 ^ k - 1) <<< i) ↔
      a.toNat / 2 ^ i % 2 ^ k = 2 ^ k - 1 := by
  have hpos := Nat.two_pow_pos i
  have hmask : (2 ^ k - 1) * 2 ^ i < 2 ^ 16 := by
    have hle : 2 ^ k * 2 ^ i ≤ 2 ^ 16 := by
      rw [← Nat.pow_add, Nat.add_comm]
      exact Nat.pow_le_pow_right (by decide) h
    rw [Nat.sub_mul]
    omega
  have hplaces : a.toNat &&& (2 ^ k - 1) * 2 ^ i = a.toNat / 2 ^ i % 2 ^ k * 2 ^ i := by
    refine Nat.eq_of_testBit_eq fun j => ?_
    rw [Nat.testBit_and, Nat.testBit_mul_two_pow, Nat.testBit_mul_two_pow, Nat.testBit_two_pow_sub_one,
      Nat.testBit_mod_two_pow, Nat.testBit_div_two_pow]
    by_cases hj : i ≤ j
    · simp [hj, Bool.and_comm]
    · simp [hj]
  rw [← BitVec.toNat_inj, BitVec.toNat_and, BitVec.toNat_ofNat, Nat.shiftLeft_eq, Nat.mod_eq_of_lt hmask, hplaces]
  exact Nat.mul_left_inj (Nat.ne_of_gt hpos)

theorem and_not_eq_sub (h : a &&& m = m) : a &&& ~~~m = a - m := by
  have hdisjoint : (a &&& ~~~m) &&& m = 0#16 := by
    rw [BitVec.and_assoc, BitVec.and_comm (~~~m), BitVec.and_not_self]
    exact BitVec.and_zero
  have hsplit : (a &&& ~~~m) + m = a :=
    calc (a &&& ~~~m) + m
        = a &&& ~~~m ||| m := BitVec.add_eq_or_of_and_eq_zero _ _ hdisjoint
      _ = a &&& ~~~m ||| a &&& m := by rw [h]
      _ = a := by rw [← BitVec.and_or_distrib_left, BitVec.or_comm, BitVec.or_not_self, BitVec.and_allOnes]
  exact BitVec.eq_sub_iff_add_eq.2 hsplit

end Masks

section Below

/-- Further down the lowest group that is not full moves on, and those under it begin again. -/
theorem Digits.below {a : Word} {t g r c : Nat} (h : Digits a t g r c) :
    ∃ t' g' r', Digits (Screen.below a) t' g' r' c ∧ 64 * t' + 8 * g' + r' = (64 * t + 8 * g + r + 1) % 2048 := by
  obtain ⟨hvalue, hg, hr, hc⟩ := h
  have ha := a.isLt
  have hlowest : a &&& 0x0700 = 0x0700 ↔ r = 7 := by
    have hr' : a.toNat / 2 ^ 8 % 2 ^ 3 = r := by omega
    rw [← hr']
    exact and_ones_eq_iff (by decide : 8 + 3 ≤ 16)
  have hmiddle : a &&& 0x00E0 = 0x00E0 ↔ g = 7 := by
    have hg' : a.toNat / 2 ^ 5 % 2 ^ 3 = g := by omega
    rw [← hg']
    exact and_ones_eq_iff (by decide : 5 + 3 ≤ 16)
  have hboth (hr7 : r = 7) (hg7 : g = 7) : a &&& 0x07E0 = 0x07E0 := by
    have hrg : a.toNat / 2 ^ 5 % 2 ^ 6 = 63 := by omega
    exact (and_ones_eq_iff (by decide : 5 + 6 ≤ 16)).2 hrg
  by_cases hr7 : r = 7
  · by_cases hg7 : g = 7
    · have hbelow : Screen.below a = a - 0x07E0 + 0x0800 := by
        rw [Screen.below, if_neg (not_not_intro (hlowest.2 hr7)), if_neg (not_not_intro (hmiddle.2 hg7)),
          ← and_not_eq_sub (hboth hr7 hg7)]
        rfl
      refine ⟨(t + 1) % 32, 0, 0, ⟨?_, by decide, by decide, hc⟩, by omega⟩
      rw [hbelow]
      bv_omega
    · have hbelow : Screen.below a = a - 0x0700 + 0x0020 := by
        rw [Screen.below, if_neg (not_not_intro (hlowest.2 hr7)), if_pos (mt hmiddle.1 hg7),
          ← and_not_eq_sub (hlowest.2 hr7)]
        rfl
      refine ⟨t, g + 1, 0, ⟨?_, by omega, by decide, hc⟩, by omega⟩
      rw [hbelow]
      bv_omega
  · have hbelow : Screen.below a = a + 0x0100 := by rw [Screen.below, if_pos (mt hlowest.1 hr7)]
    refine ⟨t, g, r + 1, ⟨?_, hg, by omega, hc⟩, by omega⟩
    rw [hbelow]
    bv_omega

theorem place_below (a : Word) : column (below a) = column a ∧ line (below a) = line a + 1 := by
  obtain ⟨t, g, r, c, h⟩ := exists_digits a
  obtain ⟨t', g', r', h', hnext⟩ := h.below
  obtain ⟨hcolumn, hline⟩ := h.place
  obtain ⟨hcolumn', hline'⟩ := h'.place
  refine ⟨BitVec.eq_of_toNat_eq (hcolumn'.trans hcolumn.symm), BitVec.eq_of_toNat_eq ?_⟩
  rw [hline', hnext, BitVec.toNat_add, hline]
  rfl

theorem place_iterate_below (a : Word) (n : Nat) :
    column (below^[n] a) = column a ∧ line (below^[n] a) = line a + BitVec.ofNat 11 n := by
  induction n with
  | zero => exact ⟨rfl, (BitVec.add_zero _).symm⟩
  | succ n ih =>
    obtain ⟨hcolumn, hline⟩ := place_below (below^[n] a)
    rw [Function.iterate_succ_apply']
    refine ⟨hcolumn.trans ih.1, ?_⟩
    rw [hline, ih.2, BitVec.add_assoc, BitVec.ofNat_add]
    rfl

end Below

section Pixels

variable (y x : Byte)

theorem digits_address :
    Digits (address y x) (8 + y.toNat / 8 / 8) (y.toNat / 8 % 8) (y.toNat % 8) (x.toNat / 8) := by
  have hline : ∀ y : Byte,
      (0x4000 + (y.setWidth 16 &&& 0xC0) <<< 5 + (y.setWidth 16 &&& 0x07) <<< 8 +
        (y.setWidth 16 &&& 0x38) <<< 2 : Word).toNat =
      2048 * (8 + y.toNat / 8 / 8) + 256 * (y.toNat % 8) + 32 * (y.toNat / 8 % 8) := by decide
  have hcolumn : ((x >>> 3).setWidth 16).toNat = x.toNat / 8 := by
    have hx := x.isLt
    rw [BitVec.toNat_setWidth, BitVec.toNat_ushiftRight, Nat.shiftRight_eq_div_pow]
    omega
  have hx := x.isLt
  have hy := y.isLt
  refine ⟨?_, by omega, by omega, by omega⟩
  rw [address, BitVec.toNat_add, hline, hcolumn]
  omega

theorem place_address :
    (column (address y x)).toNat = x.toNat / 8 ∧ (line (address y x)).toNat = 512 + y.toNat := by
  obtain ⟨hcolumn, hline⟩ := (digits_address y x).place
  exact ⟨hcolumn, by omega⟩

theorem address_eq_iff (y' x' : Byte) : address y x = address y' x' ↔ y = y' ∧ x.toNat / 8 = x'.toNat / 8 := by
  obtain ⟨hcolumn, hline⟩ := place_address y x
  obtain ⟨hcolumn', hline'⟩ := place_address y' x'
  constructor
  · intro h
    rw [h] at hcolumn hline
    exact ⟨BitVec.eq_of_toNat_eq (by omega), by omega⟩
  · rintro ⟨rfl, hx⟩
    refine eq_of_place (BitVec.eq_of_toNat_eq ?_) (BitVec.eq_of_toNat_eq ?_)
    · rw [hcolumn, hcolumn', hx]
    · rw [hline, hline']

variable {y} in
/-- Further down from a pixel are the pixels under it, as far as there are any. -/
theorem iterate_below_address {n : Nat} (h : y.toNat + n ≤ 255) :
    below^[n] (address y x) = address (y + BitVec.ofNat 8 n) x := by
  obtain ⟨hbelow, hdown⟩ := place_iterate_below (address y x) n
  obtain ⟨hcolumn, hline⟩ := place_address y x
  obtain ⟨hcolumn', hline'⟩ := place_address (y + BitVec.ofNat 8 n) x
  refine eq_of_place (hbelow.trans (BitVec.eq_of_toNat_eq (hcolumn.trans hcolumn'.symm))) ?_
  refine hdown.trans (BitVec.eq_of_toNat_eq ?_)
  rw [BitVec.toNat_add, hline, hline', BitVec.toNat_add, BitVec.toNat_ofNat, BitVec.toNat_ofNat]
  omega

end Pixels

end Screen

section Execution

variable {β : Type} [Bus β]

theorem Cpu.hl_step_pixelBelow {c : Cpu} {bus : β} (h : c.operation? bus = some (.extension .pixelBelow)) :
    (c.step bus).cpu.registers.hl = Screen.below c.registers.hl := by
  rw [registers_step, c.value_executed h, ← c.bank_sourced bus]
  exact Registers.hl_withHl _ _

theorem Cpu.hl_step_pixelAddress {c : Cpu} {bus : β} (h : c.operation? bus = some (.extension .pixelAddress)) :
    (c.step bus).cpu.registers.hl = Screen.address c.registers.d c.registers.e := by
  rw [registers_step, c.value_executed h, ← c.bank_sourced bus]
  exact Registers.hl_withHl _ _

theorem Machine.hl_steps_pixelBelow (m : Machine β) {n : Nat}
    (h : ∀ i < n, (m.steps i).cpu.operation? (m.steps i).bus = some (.extension .pixelBelow)) :
    (m.steps n).cpu.registers.hl = Screen.below^[n] m.cpu.registers.hl := by
  induction n with
  | zero => rfl
  | succ n ih =>
    rw [Function.iterate_succ_apply', ← ih fun i hi => h i (Nat.lt_succ_of_lt hi), steps_succ]
    exact Cpu.hl_step_pixelBelow (h n (Nat.lt_succ_self n))

end Execution

namespace Screen

/-- Addresses one below the other are in one column and count its lines modulo 2048. Under a pixel are the pixels with
the next numbers, up to 255; two pixels share an address only in one line and one group of eight. The instruction that
finds a pixel puts its address in HL, and `n` steps that each move HL down one line move it down `n` lines. -/
theorem counts_lines (n : Nat) :
    (∀ a, column (below^[n] a) = column a ∧ (line (below^[n] a)).toNat = ((line a).toNat + n) % 2048) ∧
      (∀ y x : Byte, y.toNat + n ≤ 255 → below^[n] (address y x) = address (y + BitVec.ofNat 8 n) x) ∧
      (∀ y x y' x' : Byte, address y x = address y' x' ↔ y = y' ∧ x.toNat / 8 = x'.toNat / 8) ∧
      ∀ {β : Type} [Bus β] (m : Machine β),
        (m.cpu.operation? m.bus = some (.extension .pixelAddress) →
          (m.steps 1).cpu.registers.hl = address m.cpu.registers.d m.cpu.registers.e) ∧
        ((∀ i < n, (m.steps i).cpu.operation? (m.steps i).bus = some (.extension .pixelBelow)) →
          (m.steps n).cpu.registers.hl = below^[n] m.cpu.registers.hl) := by
  refine ⟨fun a => ?_, fun y x h => iterate_below_address x h, address_eq_iff, fun m => ⟨Cpu.hl_step_pixelAddress, ?_⟩⟩
  · obtain ⟨hcolumn, hline⟩ := place_iterate_below a n
    refine ⟨hcolumn, ?_⟩
    rw [hline, BitVec.toNat_add, BitVec.toNat_ofNat, Nat.add_mod_mod]
  · exact m.hl_steps_pixelBelow

/-- From line 62 two lines down are in the next third of the screen, and a program that finds a pixel in line 62 and goes
two lines down comes there. -/
theorem counts_lines_third :
    (62 : Byte).toNat + 2 ≤ 255 ∧ below^[2] (address 62 0) = 0x4800 ∧
      let cpu : Cpu := { registers := { d := 62 } }
      let bus : FlatBus := { memory := Memory.zero.load 0 [0xED, 0x94, 0xED, 0x93, 0xED, 0x93] }
      ((({ cpu, bus } : Machine FlatBus).steps 1).steps 2).cpu.registers.hl = 0x4800 := by
  obtain ⟨-, hpixels, -, hmachine⟩ := counts_lines 2
  have hend : address (62 + BitVec.ofNat 8 2) 0 = 0x4800 := by decide
  have hdown := (hpixels 62 0 (by decide)).trans hend
  refine ⟨by decide, hdown, ?_⟩
  intro cpu bus
  let m : Machine FlatBus := { cpu, bus }
  have hfind : (m.steps 1).cpu.registers.hl = address 62 0 := (hmachine m).1 (by decide +kernel)
  have hops : ∀ i < 2, ((m.steps 1).steps i).cpu.operation? ((m.steps 1).steps i).bus = some (.extension .pixelBelow)
    | 0, _ => by decide +kernel
    | 1, _ => by decide +kernel
  rw [← hdown, ← hfind]
  exact (hmachine (m.steps 1)).2 hops

end Screen

end Z80Machine
