import Z80Machine.Word

/-!
64 KiB of bytes. Every address holds one, and addresses wrap: `get_set` says that writing changes the
byte at its address and no other.
-/
namespace Z80Machine

structure Memory where
  bytes : Vector Byte 65536

namespace Memory

def ofFn (f : Word → Byte) : Memory := ⟨Vector.ofFn fun k => f (.ofFin k)⟩

/-- All bytes zero. -/
def zero : Memory := ⟨Vector.replicate 65536 0⟩

def get (m : Memory) (a : Word) : Byte := m.bytes[a.toNat]

def set (m : Memory) (a : Word) (v : Byte) : Memory := ⟨m.bytes.set a.toNat v a.isLt⟩

/-- Stores the bytes one after the other from address `a` on. -/
def load (m : Memory) (a : Word) : List Byte → Memory
  | [] => m
  | v :: vs => (m.set a v).load (a + 1) vs

/-- The `n` bytes from address `a` on. -/
def slice (m : Memory) (a : Word) : Nat → List Byte
  | 0 => []
  | n + 1 => m.get a :: m.slice (a + 1) n

theorem ext_get {m n : Memory} (h : ∀ a, m.get a = n.get a) : m = n := by
  rcases m with ⟨v⟩
  rcases n with ⟨w⟩
  refine congrArg Memory.mk (Vector.ext fun k hk => ?_)
  have := h (BitVec.ofNat 16 k)
  simpa [get, Nat.mod_eq_of_lt hk] using this

@[simp] theorem get_ofFn (f : Word → Byte) (a : Word) : (ofFn f).get a = f a := by
  simp [get, ofFn]

@[simp] theorem get_zero (a : Word) : zero.get a = 0 := by
  simp [get, zero]

theorem get_set (m : Memory) (a b : Word) (v : Byte) :
    (m.set a v).get b = if b = a then v else m.get b := by
  by_cases h : b = a
  · simp [h, get, set]
  · have : a.toNat ≠ b.toNat := fun e => h (BitVec.eq_of_toNat_eq e.symm)
    simp [h, get, set, this]

@[simp] theorem get_set_self (m : Memory) (a : Word) (v : Byte) : (m.set a v).get a = v := by
  simp [get_set]

@[simp] theorem length_slice (m : Memory) (a : Word) (n : Nat) : (m.slice a n).length = n := by
  induction n generalizing a with
  | zero => rfl
  | succ n ih => simp [slice, ih]

theorem slice_eq_cons {m : Memory} {a : Word} {n : Nat} {v : Byte} {vs : List Byte} :
    m.slice a n = v :: vs ↔ ∃ k, n = k + 1 ∧ m.get a = v ∧ m.slice (a + 1) k = vs := by
  cases n <;> simp [slice]

theorem get_set_of_ne (m : Memory) {a b : Word} (v : Byte) (h : b ≠ a) : (m.set a v).get b = m.get b := by
  simp [get_set, h]

end Memory

end Z80Machine
