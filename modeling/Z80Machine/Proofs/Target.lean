import Z80Machine.Cpu.Fetch
import Z80Machine.Proofs.Execution

/-!
Where the bytes of an instruction lead. `follow` says it of a memory, without fetching: CB, ED and the index
prefixes lead on, and any other byte ends in a slot of the page that was reached. `on_fetch` and `history_fetch`
say that fetching ends in that slot, with no other traffic than the bytes on the way.
-/
namespace Z80Machine

open Microcode

/-- The index register that a byte stands for as a prefix. -/
def Index.ofPrefix? (v : Byte) : Option Index :=
  if v = 0xDD then some .ix else if v = 0xFD then some .iy else none

theorem Index.ofPrefix?_eq_some {v : Byte} {i : Index} : Index.ofPrefix? v = some i ↔ v = i.prefixByte := by
  revert v
  cases i <;> decide

/-- The slot in which the bytes of an instruction end. -/
structure Target where
  /-- What stands in the place of HL: an index register after its prefix. -/
  base : Base
  page : Page
  byte : Byte
  /-- The opcode bytes fetched on the way, prefixes included. -/
  opcode : List Byte
  /-- The displacement and the operation byte on the page of indexed bits. -/
  operands : List Byte := []
  deriving DecidableEq, Repr

/-- Reads on at `a` with a base. -/
def followBase (m : Memory) (b : Base) (a : Word) : Target :=
  let v := m.get a
  if v = 0xED then { base := b, page := .extended, byte := m.get (a + 1), opcode := [v, m.get (a + 1)] }
  else if v = 0xCB then
    match b with
    | .hl => { base := b, page := .bits, byte := m.get (a + 1), opcode := [v, m.get (a + 1)] }
    | .index i =>
      { base := b, page := .indexedBits i, byte := m.get (a + 2), opcode := [v]
        operands := [m.get (a + 1), m.get (a + 2)] }
  else { base := b, page := .opening b, byte := v, opcode := [v] }

/-- Reads an instruction at `a`, after the index prefix carried from the last step if there is one. -/
def follow (m : Memory) (a : Word) : Option Index → Target
  | some i => followBase m (.index i) a
  | none => match Index.ofPrefix? (m.get a) with
    | none => followBase m .hl a
    | some i =>
      let t := followBase m (.index i) (a + 1)
      { t with opcode := m.get a :: t.opcode }

namespace Target

variable (t : Target)

/-- What a machine with or without extensions takes the slot for, when `seen` holds the bytes before. -/
def resolution (extensions : Bool) (seen : Window) : Resolution :=
  match t.page.slot t.byte with
  | .instruction i =>
    if extensions || !i.operation.isExtension then .instruction i
    else .undefined (t.opcode.foldl Window.push seen)
  | .lead (.index i) => .carry i
  | .lead _ | .undefined => .undefined (t.opcode.foldl Window.push seen)

/-- The registers once the bytes are fetched. -/
def fetched (k : Registers) : Registers :=
  { k with
    pc := k.pc + BitVec.ofNat 16 (t.opcode.length + t.operands.length)
    r := refreshedBy t.opcode.length k.r
    wz := match t.base, t.operands with
      | .index i, d :: _ => (k.index i).displace d
      | _, _ => k.wz }

/-- The cycles that bring in opcode bytes from `a` on. -/
def opcodeCycles (a : Word) : List Byte → List Cycle
  | [] => []
  | v :: vs => .received (.opcode a) v :: opcodeCycles (a + 1) vs

/-- The cycles of fetching from `a` on. -/
def cycles (a : Word) : List Cycle :=
  opcodeCycles a t.opcode ++
    let e := a + BitVec.ofNat 16 t.opcode.length
    match t.operands with
    | [d, o] => [.received (.operand e) d, .received (.operand (e + 1)) o, .paused (.internal 2)]
    | _ => []

/-- The time of fetching: four T-states an opcode byte, and eight for two operands and the wait after them. -/
def time : Nat :=
  4 * t.opcode.length + match t.operands with
    | [_, _] => 8
    | _ => 0

theorem duration_opcodeCycles (a : Word) (vs : List Byte) :
    Cycle.duration (opcodeCycles a vs) = 4 * vs.length := by
  induction vs generalizing a with
  | nil => rfl
  | cons v vs ih =>
    simp only [opcodeCycles, Cycle.duration, List.length_cons, ih, Cycle.time, Receive.time]
    omega

theorem dataAccesses_opcodeCycles (a : Word) (vs : List Byte) : dataAccesses (opcodeCycles a vs) = [] := by
  induction vs generalizing a with
  | nil => rfl
  | cons v vs ih => exact ih (a + 1)

theorem duration_cycles (a : Word) : Cycle.duration (t.cycles a) = t.time := by
  rw [cycles, Cycle.duration_append, duration_opcodeCycles, time]
  split <;> simp_all [Cycle.duration, Cycle.time, Receive.time, Pause.time]

theorem dataAccesses_cycles (a : Word) : dataAccesses (t.cycles a) = [] := by
  rw [cycles, dataAccesses_append, dataAccesses_opcodeCycles]
  split <;> rfl

theorem foldl_store_opcodeCycles (a : Word) (vs : List Byte) (m : Memory) :
    (opcodeCycles a vs).foldl Cycle.store m = m := by
  induction vs generalizing a with
  | nil => rfl
  | cons v vs ih => exact ih (a + 1)

theorem foldl_store_cycles (a : Word) (m : Memory) : (t.cycles a).foldl Cycle.store m = m := by
  rw [cycles, List.foldl_append, foldl_store_opcodeCycles]
  split <;> rfl

end Target

section Pages

theorem Base.opening_bits (b : Base) {v : Byte} (h : v = 0xCB) :
    b.opening v = .lead (match b with | .hl => .bits | .index i => .indexedBits i) := by
  subst h
  rcases b with _ | _ | _ <;> rfl

theorem Base.opening_extended (b : Base) {v : Byte} (h : v = 0xED) : b.opening v = .lead .extended := by
  subst h
  rcases b with _ | _ | _ <;> rfl

theorem Base.opening_prefixed (b : Base) {v : Byte} {i : Index} (h : v = i.prefixByte) :
    b.opening v = .lead (.index i) := by
  subst h
  rcases b with _ | _ | _ <;> cases i <;> rfl

def Opening.isPlain : Opening → Bool
  | .instruction i => !i.operation.isExtension
  | .lead _ => false

/-- All other bytes are instructions of the plain processor. -/
theorem Base.opening_plain (b : Base) {v : Byte} (hb : v ≠ 0xCB) (he : v ≠ 0xED)
    (hp : Index.ofPrefix? v = none) : ∃ i, b.opening v = .instruction i ∧ i.operation.isExtension = false := by
  have hplain : (b.opening v).isPlain := by
    revert v
    rcases b with _ | _ | _ <;> decide
  cases h : b.opening v with
  | instruction i => exact ⟨i, rfl, by simpa [Opening.isPlain, h] using hplain⟩
  | lead l => simp [Opening.isPlain, h] at hplain

theorem Base.opening_ne_index (b : Base) {v : Byte} (h : Index.ofPrefix? v = none) (i : Index) :
    b.opening v ≠ .lead (.index i) := by
  intro hl
  by_cases he : v = 0xED
  · simp [b.opening_extended he] at hl
  by_cases hb : v = 0xCB
  · rw [b.opening_bits hb] at hl
    cases b <;> simp at hl
  obtain ⟨j, hj, -⟩ := b.opening_plain hb he h
  simp [hj] at hl

end Pages

section Follow

variable (m : Memory) {a : Word}

theorem followBase_extended (b : Base) (h : m.get a = 0xED) :
    followBase m b a =
      { base := b, page := .extended, byte := m.get (a + 1), opcode := [m.get a, m.get (a + 1)] } := by
  simp only [followBase, h, ↓reduceIte]

theorem followBase_bits (h : m.get a = 0xCB) :
    followBase m .hl a =
      { base := .hl, page := .bits, byte := m.get (a + 1), opcode := [m.get a, m.get (a + 1)] } := by
  simp [followBase, h]

theorem followBase_indexedBits (i : Index) (h : m.get a = 0xCB) :
    followBase m (.index i) a =
      { base := .index i, page := .indexedBits i, byte := m.get (a + 2), opcode := [m.get a]
        operands := [m.get (a + 1), m.get (a + 2)] } := by
  simp [followBase, h]

theorem followBase_opening (b : Base) (he : m.get a ≠ 0xED) (hb : m.get a ≠ 0xCB) :
    followBase m b a = { base := b, page := .opening b, byte := m.get a, opcode := [m.get a] } := by
  simp only [followBase, he, hb, ↓reduceIte]

theorem followBase_prefixed (b : Base) {i : Index} (h : m.get a = i.prefixByte) :
    followBase m b a = { base := b, page := .opening b, byte := i.prefixByte, opcode := [i.prefixByte] } := by
  have he : m.get a ≠ 0xED := by
    rw [h]
    cases i <;> decide
  have hb : m.get a ≠ 0xCB := by
    rw [h]
    cases i <;> decide
  rw [followBase_opening m b he hb, h]

theorem Target.resolution_prefixed (b : Base) (i : Index) (opcode : List Byte) (extensions : Bool) (seen : Window) :
    Target.resolution { base := b, page := .opening b, byte := i.prefixByte, opcode } extensions seen =
      .carry i := by
  simp only [Target.resolution, Page.slot, b.opening_prefixed rfl]

theorem follow_carried (i : Index) : follow m a (some i) = followBase m (.index i) a := rfl

theorem follow_indexed {i : Index} (h : m.get a = i.prefixByte) :
    follow m a none =
      { followBase m (.index i) (a + 1) with
        opcode := m.get a :: (followBase m (.index i) (a + 1)).opcode } := by
  simp only [follow, Index.ofPrefix?_eq_some.2 h]

theorem follow_prefixes {i j : Index} (hi : m.get a = i.prefixByte) (hj : m.get (a + 1) = j.prefixByte) :
    follow m a none =
      { base := .index i, page := .opening (.index i), byte := j.prefixByte
        opcode := [i.prefixByte, j.prefixByte] } := by
  rw [follow_indexed _ hi, followBase_prefixed _ _ hj, hi]

theorem follow_plain (h : Index.ofPrefix? (m.get a) = none) : follow m a none = followBase m .hl a := by
  simp only [follow, h]

end Follow

section Fetch

variable (extensions : Bool) (bus : FlatBus) (k : Registers) (l : Flags) (d : Bool) (seen : Window)

/-- The next opcode byte and what it leads to. -/
def fetchBase (b : Base) : Microcode Resolution := do
  let v ← opcode
  (b.opening v).resolve extensions (seen.push v)

/-- Fetching with a base ends in the slot to which the bytes at the program counter lead. -/
theorem on_fetchBase (b : Base) :
    (on (fetchBase extensions seen b) ⟨k, l, d, none⟩ bus).value =
      ((followBase bus.memory b k.pc).resolution extensions seen,
        ⟨(followBase bus.memory b k.pc).fetched k, l, d, none⟩) := by
  by_cases he : bus.memory.get k.pc = 0xED
  · rw [followBase_extended _ b he]
    have hl := b.opening_extended he
    cases hx : extendedPage (bus.memory.get (k.pc + 1#16)) with
    | none =>
      simp [fetchBase, on_bind, FlatBus.answer, hl, Opening.resolve, extendedSlot, Page.slot, hx,
        Target.resolution, Target.fetched, BitVec.add_assoc]
    | some i =>
      by_cases ha : extensions = true ∨ i.operation.isExtension = false <;>
      simp [fetchBase, on_bind, FlatBus.answer, hl, Opening.resolve, extendedSlot, Page.slot, hx, ha,
        Option.filter, Target.resolution, Target.fetched, BitVec.add_assoc]
  by_cases hb : bus.memory.get k.pc = 0xCB
  · have hl := b.opening_bits hb
    rcases b with _ | i
    · rw [followBase_bits _ hb]
      simp [fetchBase, on_bind, on_map, FlatBus.answer, hl, Opening.resolve, bitsPage, Page.slot,
        Operation.isExtension, Target.resolution, Target.fetched, BitVec.add_assoc]
    · rw [followBase_indexedBits _ i hb]
      cases i <;>
      simp [fetchBase, on_bind, on_map, FlatBus.answer, hl, Opening.resolve, indexedBitsPage, Page.slot,
        Operation.isExtension, Registers.index, Target.resolution, Target.fetched, BitVec.add_assoc]
  rw [followBase_opening _ b he hb]
  cases hp : Index.ofPrefix? (bus.memory.get k.pc) with
  | some i =>
    have hi := b.opening_prefixed (Index.ofPrefix?_eq_some.1 hp)
    simp [fetchBase, on_bind, FlatBus.answer, hi, Opening.resolve, Target.resolution, Target.fetched, Page.slot]
  | none =>
    obtain ⟨i, hi, hx⟩ := b.opening_plain hb he hp
    simp [fetchBase, on_bind, FlatBus.answer, hi, hx, Opening.resolve, Target.resolution, Target.fetched, Page.slot]

theorem history_fetchBase (b : Base) :
    history (fetchBase extensions seen b) ⟨k, l, d, none⟩ bus = (followBase bus.memory b k.pc).cycles k.pc := by
  by_cases he : bus.memory.get k.pc = 0xED
  · rw [followBase_extended _ b he]
    have hl := b.opening_extended he
    cases hx : extendedSlot extensions (bus.memory.get (k.pc + 1#16)) <;>
    simp [fetchBase, history_bind, FlatBus.answer, hl, Opening.resolve, hx, Target.cycles, Target.opcodeCycles]
  by_cases hb : bus.memory.get k.pc = 0xCB
  · have hl := b.opening_bits hb
    rcases b with _ | i
    · rw [followBase_bits _ hb]
      simp [fetchBase, history_bind, history_map, FlatBus.answer, hl, Opening.resolve, Target.cycles,
        Target.opcodeCycles]
    · rw [followBase_indexedBits _ i hb]
      simp [fetchBase, history_bind, history_map, FlatBus.answer, hl, Opening.resolve, Target.cycles,
        Target.opcodeCycles, BitVec.add_assoc]
  rw [followBase_opening _ b he hb]
  cases hp : Index.ofPrefix? (bus.memory.get k.pc) with
  | some i =>
    have hi := b.opening_prefixed (Index.ofPrefix?_eq_some.1 hp)
    simp [fetchBase, history_bind, FlatBus.answer, hi, Opening.resolve, Target.cycles, Target.opcodeCycles]
  | none =>
    obtain ⟨i, hi, -⟩ := b.opening_plain hb he hp
    simp [fetchBase, history_bind, FlatBus.answer, hi, Opening.resolve, Target.cycles, Target.opcodeCycles]

theorem Target.fetched_cons (t : Target) (v : Byte) (k : Registers) :
    { t with opcode := v :: t.opcode }.fetched k =
      t.fetched { k with pc := k.pc + 1, r := refreshedBy 1 k.r } := by
  have hpc : BitVec.ofNat 16 (t.opcode.length + 1 + t.operands.length) =
      1 + BitVec.ofNat 16 (t.opcode.length + t.operands.length) := by
    rw [Nat.add_right_comm, Nat.add_comm, BitVec.ofNat_add]
    rfl
  have hi (i : Index) : Registers.index { k with pc := k.pc + 1, r := refreshedBy 1 k.r } i = k.index i := by
    cases i <;> rfl
  simp only [Target.fetched, List.length_cons, hpc, BitVec.add_assoc, refreshedBy_refreshedBy, hi,
    Nat.add_comm 1]

theorem Target.cycles_cons (t : Target) (v : Byte) (a : Word) :
    { t with opcode := v :: t.opcode }.cycles a = .received (.opcode a) v :: t.cycles (a + 1) := by
  simp only [Target.cycles, Target.opcodeCycles, List.length_cons, next_address, List.cons_append]

/-- The window in which an instruction begins: a carried prefix stands in it. -/
def seenBefore : Option Index → Window
  | some i => Window.empty.push i.prefixByte
  | none => .empty

/-- What is fetched after the first opcode byte `v`. -/
def fetchAfter (v : Byte) : Microcode Resolution :=
  match Index.ofPrefix? v with
  | some i => fetchBase extensions (Window.empty.push v) (.index i)
  | none => (Base.hl.opening v).resolve extensions (Window.empty.push v)

theorem fetch_eq : fetch extensions none = opcode >>= fetchAfter extensions := by
  refine congrArg (opcode >>= ·) (funext fun v => ?_)
  cases hp : Index.ofPrefix? v with
  | some i =>
    simp only [fetchAfter, hp, Base.opening_prefixed _ (Index.ofPrefix?_eq_some.1 hp)]
    rfl
  | none =>
    have hn := Base.hl.opening_ne_index hp
    simp only [fetchAfter, hp]

/-- Without an index prefix in front, fetching goes on with HL in its place. -/
theorem fetch_plain (h : Index.ofPrefix? (bus.memory.get k.pc) = none) :
    on (fetch extensions none) ⟨k, l, d, none⟩ bus =
        on (fetchBase extensions .empty .hl) ⟨k, l, d, none⟩ bus ∧
      history (fetch extensions none) ⟨k, l, d, none⟩ bus =
        history (fetchBase extensions .empty .hl) ⟨k, l, d, none⟩ bus := by
  rw [fetch_eq]
  simp [fetchBase, fetchAfter, on_bind, history_bind, FlatBus.answer, h]

variable (carried : Option Index)

/-- Fetching ends in the slot to which the bytes at the program counter lead. -/
theorem on_fetch :
    (on (fetch extensions carried) ⟨k, l, d, none⟩ bus).value =
      ((follow bus.memory k.pc carried).resolution extensions (seenBefore carried),
        ⟨(follow bus.memory k.pc carried).fetched k, l, d, none⟩) := by
  cases carried with
  | some i => exact on_fetchBase extensions bus k l d _ (.index i)
  | none =>
    cases hp : Index.ofPrefix? (bus.memory.get k.pc) with
    | some i =>
      have hv := Index.ofPrefix?_eq_some.1 hp
      rw [follow_indexed _ hv, Target.fetched_cons, fetch_eq]
      simp [on_bind, FlatBus.answer, fetchAfter, hp, on_fetchBase]
      rfl
    | none => rw [(fetch_plain extensions bus k l d hp).1, follow_plain _ hp, on_fetchBase]; rfl

theorem history_fetch :
    history (fetch extensions carried) ⟨k, l, d, none⟩ bus = (follow bus.memory k.pc carried).cycles k.pc := by
  cases carried with
  | some i => exact history_fetchBase extensions bus k l d _ (.index i)
  | none =>
    cases hp : Index.ofPrefix? (bus.memory.get k.pc) with
    | some i =>
      have hv := Index.ofPrefix?_eq_some.1 hp
      rw [follow_indexed _ hv, Target.cycles_cons, fetch_eq]
      simp [history_bind, FlatBus.answer, fetchAfter, hp, history_fetchBase]
    | none => rw [(fetch_plain extensions bus k l d hp).2, follow_plain _ hp, history_fetchBase]

end Fetch

end Z80Machine
