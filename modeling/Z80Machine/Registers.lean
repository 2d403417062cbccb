import Z80Machine.Flags

/-!
The register file: a bank of eight registers with its shadow, the index registers, the pointers, the
address latch WZ and the interrupt state. `afterExx_afterExx` and its neighbours say that the
exchanges undo themselves.
-/
namespace Z80Machine

/-- The accumulator, its flags and the six general registers. -/
structure Bank where
  a : Byte := 0
  f : Flags := {}
  b : Byte := 0
  c : Byte := 0
  d : Byte := 0
  e : Byte := 0
  h : Byte := 0
  l : Byte := 0
  deriving DecidableEq, Repr

namespace Bank

def af (k : Bank) : Word := Word.ofBytes k.a k.f.toByte
def bc (k : Bank) : Word := Word.ofBytes k.b k.c
def de (k : Bank) : Word := Word.ofBytes k.d k.e
def hl (k : Bank) : Word := Word.ofBytes k.h k.l

def withAf (k : Bank) (w : Word) : Bank := { k with a := w.high, f := Flags.ofByte w.low }
def withBc (k : Bank) (w : Word) : Bank := { k with b := w.high, c := w.low }
def withDe (k : Bank) (w : Word) : Bank := { k with d := w.high, e := w.low }
def withHl (k : Bank) (w : Word) : Bank := { k with h := w.high, l := w.low }

@[simp] theorem af_withAf (k : Bank) (w : Word) : (k.withAf w).af = w := by simp [af, withAf]
@[simp] theorem bc_withBc (k : Bank) (w : Word) : (k.withBc w).bc = w := by simp [bc, withBc]
@[simp] theorem de_withDe (k : Bank) (w : Word) : (k.withDe w).de = w := by simp [de, withDe]
@[simp] theorem hl_withHl (k : Bank) (w : Word) : (k.withHl w).hl = w := by simp [hl, withHl]

@[simp] theorem withBc_bc (k : Bank) : k.withBc k.bc = k := by simp [bc, withBc]
@[simp] theorem withDe_de (k : Bank) : k.withDe k.de = k := by simp [de, withDe]
@[simp] theorem withHl_hl (k : Bank) : k.withHl k.hl = k := by simp [hl, withHl]

/-- Every register holds all ones. -/
def powerOn : Bank where
  a := 0xFF
  f := Flags.ofByte 0xFF
  b := 0xFF
  c := 0xFF
  d := 0xFF
  e := 0xFF
  h := 0xFF
  l := 0xFF

end Bank

structure Registers extends Bank where
  shadow : Bank := {}
  ix : Word := 0
  iy : Word := 0
  sp : Word := 0
  pc : Word := 0
  i : Byte := 0
  r : Byte := 0
  /-- The address that the last memory-addressing instruction left behind. -/
  wz : Word := 0
  iff1 : Bool := false
  iff2 : Bool := false
  im : Byte := 0
  halted : Bool := false
  deriving DecidableEq, Repr

namespace Registers

/-- The state after a hardware reset. -/
def powerOn : Registers where
  toBank := Bank.powerOn
  shadow := Bank.powerOn
  ix := 0xFFFF
  iy := 0xFFFF
  sp := 0xFFFF

def withAf (k : Registers) (w : Word) : Registers := { k with toBank := k.toBank.withAf w }
def withBc (k : Registers) (w : Word) : Registers := { k with toBank := k.toBank.withBc w }
def withDe (k : Registers) (w : Word) : Registers := { k with toBank := k.toBank.withDe w }
def withHl (k : Registers) (w : Word) : Registers := { k with toBank := k.toBank.withHl w }

@[simp] theorem bc_withBc (k : Registers) (w : Word) : (k.withBc w).bc = w := Bank.bc_withBc _ w
@[simp] theorem bc_withDe (k : Registers) (w : Word) : (k.withDe w).bc = k.bc := rfl
@[simp] theorem bc_withHl (k : Registers) (w : Word) : (k.withHl w).bc = k.bc := rfl
@[simp] theorem de_withDe (k : Registers) (w : Word) : (k.withDe w).de = w := Bank.de_withDe _ w
@[simp] theorem hl_withHl (k : Registers) (w : Word) : (k.withHl w).hl = w := Bank.hl_withHl _ w
@[simp] theorem withBc_bc (k : Registers) : k.withBc k.bc = k := by simp [withBc]
@[simp] theorem withDe_de (k : Registers) : k.withDe k.de = k := by simp [withDe]
@[simp] theorem withHl_hl (k : Registers) : k.withHl k.hl = k := by simp [withHl]
@[simp] theorem a_withBc (k : Registers) (w : Word) : (k.withBc w).a = k.a := rfl
@[simp] theorem a_withHl (k : Registers) (w : Word) : (k.withHl w).a = k.a := rfl
@[simp] theorem b_withHl (k : Registers) (w : Word) : (k.withHl w).b = k.b := rfl

/-- The accumulator and flags trade places with their shadows. -/
def afterExAf (k : Registers) : Registers :=
  { k with
    a := k.shadow.a, f := k.shadow.f
    shadow := { k.shadow with a := k.a, f := k.f } }

/-- The general registers trade places with their shadows. -/
def afterExx (k : Registers) : Registers :=
  { k with
    toBank := { k.shadow with a := k.a, f := k.f }
    shadow := { k.toBank with a := k.shadow.a, f := k.shadow.f } }

theorem afterExAf_afterExAf (k : Registers) : k.afterExAf.afterExAf = k := rfl

theorem afterExx_afterExx (k : Registers) : k.afterExx.afterExx = k := rfl

/-- The refresh counter moves on in its low seven bits and keeps bit 7. -/
def refreshed (k : Registers) : Registers := { k with r := k.r &&& 0x80 ||| (k.r + 1) &&& 0x7F }

end Registers

end Z80Machine
