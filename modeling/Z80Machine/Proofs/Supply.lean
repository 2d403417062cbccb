import Z80Machine.Proofs.Orderly
import Z80Machine.Proofs.Step

/-!
Instructions that a device supplies. An execution that takes its bytes from a supply and one that takes the same
bytes from below the program counter go on in step, and once the bytes are taken they stand alike.
-/
namespace Z80Machine

open Microcode

section Count

variable {β : Type} [Bus β]

theorem Orderly.count_code {plain : Bool} {i j : Nat} {α : Type} {m : Microcode α} (h : Orderly plain i j m)
    {s : Execution} (hs : s.supply = none) (bus : β) :
    (on m s bus).value.2.supply = none ∧ ((history m s bus).filter Cycle.isCode).length + j = i := by
  induction h generalizing s bus with
  | @bind i j l α γ m f hm hf ihm ihf =>
    obtain ⟨hfirst, hcount⟩ := ihm hs bus
    obtain ⟨hsecond, hcount'⟩ := ihf (on m s bus).value.1 hfirst (on m s bus).bus
    rw [on_bind, history_bind]
    refine ⟨hsecond, ?_⟩
    rw [List.filter_append, List.length_append]
    omega
  | @look i j γ f hcontrol hpc hf ih =>
    have hbind := ih s.registers hs bus
    rw [on_bind, history_bind]
    exact hbind
  | opcode h | operand =>
    rcases s with ⟨k, l, d, _ | bytes⟩
    · exact ⟨rfl, Nat.add_comm ..⟩
    · contradiction
  | _ => exact ⟨hs, Nat.zero_add _⟩

end Count

/-- An execution with a supply against one that reads the next `i` bytes from memory `m`. -/
structure Fed (i : Nat) (m : Memory) (s s' : Execution) : Prop where
  registers : s.registers = { s'.registers with pc := s'.registers.pc + BitVec.ofNat 16 i }
  latch : s.latch = s'.latch
  eiDelay : s.eiDelay = s'.eiDelay
  unsupplied : s'.supply = none
  bytes : ∃ vs, s.supply = some vs ∧
    ∀ x < i, m.get (s'.registers.pc + BitVec.ofNat 16 x) = vs.getD x 0xFF

/-- Running `m` with a supply against running it from memory: it takes the bytes of its instruction from where `i`
are still to come to where `j` are, with the same result and the same data. -/
structure InStep (i j : Nat) {α : Type} (m : Microcode α) (s s' : Execution) (bus bus' : FlatBus) : Prop where
  value : (on m s bus).value.1 = (on m s' bus').value.1
  fed : Fed j (on m s' bus').bus.memory (on m s bus).value.2 (on m s' bus').value.2
  alike : (on m s bus).bus.Alike (on m s' bus').bus
  data : (history m s bus).filterMap Cycle.access? = dataAccesses (history m s' bus')
  elapsed : (on m s bus).elapsed = (on m s' bus').elapsed

section InStep

variable {α γ : Type} {i j l : Nat} {s s' : Execution} {bus bus' : FlatBus}

theorem InStep.bind {m : Microcode α} {f : α → Microcode γ} (hm : InStep i j m s s' bus bus')
    (hf : InStep j l (f (on m s' bus').value.1) (on m s bus).value.2 (on m s' bus').value.2 (on m s bus).bus
      (on m s' bus').bus) :
    InStep i l (m >>= f) s s' bus bus' := by
  rw [← hm.value] at hf
  have hvalue := hm.value
  constructor
  · rw [on_bind, on_bind, ← hvalue]
    exact hf.value
  · rw [on_bind, on_bind, ← hvalue]
    exact hf.fed
  · rw [on_bind, on_bind, ← hvalue]
    exact hf.alike
  · rw [history_bind, history_bind, ← hvalue, List.filterMap_append, dataAccesses_append, hm.data, hf.data]
  · rw [elapsed_bind, elapsed_bind, ← hvalue, hm.elapsed, hf.elapsed]

theorem InStep.congr {m m' : Microcode α} (hm : InStep i j m s s' bus bus') (h : m' s = m s) (h' : m' s' = m s') :
    InStep i j m' s s' bus bus' := by
  obtain ⟨hvalue, hfed, halike, hdata, helapsed⟩ := hm
  simp only [on, history, ← h, ← h'] at hvalue hfed halike hdata helapsed
  exact ⟨hvalue, hfed, halike, hdata, helapsed⟩

theorem supplied_fst (vs : List Byte) : (Microcode.supplied vs).1 = vs.getD 0 0xFF := by
  cases vs <;> rfl

theorem getD_supplied (vs : List Byte) (x : Nat) :
    (Microcode.supplied vs).2.getD x 0xFF = vs.getD (x + 1) 0xFF := by
  cases vs <;> rfl

theorem Fed.supplied (h : Fed (i + 1) bus'.memory s s') :
    ∃ vs, s.supply = some vs ∧ (Microcode.supplied vs).1 = bus'.memory.get s'.registers.pc ∧
      ∀ x < i, bus'.memory.get (s'.registers.pc + 1 + BitVec.ofNat 16 x) =
        (Microcode.supplied vs).2.getD x 0xFF := by
  obtain ⟨vs, hs, hbytes⟩ := h.bytes
  refine ⟨vs, hs, ?_, fun x hx => ?_⟩
  · rw [supplied_fst, ← hbytes 0 (by omega)]
    exact congrArg bus'.memory.get (BitVec.add_zero _)
  · rw [getD_supplied, ← next_address]
    exact hbytes (x + 1) (by omega)

theorem inStep_opcode (hs : Fed (i + 1) bus'.memory s s') (hb : bus.Alike bus') :
    InStep (i + 1) i opcode s s' bus bus' := by
  obtain ⟨vs, hvs, hfirst, hrest⟩ := hs.supplied
  rcases s with ⟨k, l, d, supply⟩
  rcases s' with ⟨k', l', d', supply'⟩
  obtain rfl : supply = some vs := hvs
  obtain rfl : supply' = none := hs.unsupplied
  obtain rfl : k = { k' with pc := k'.pc + BitVec.ofNat 16 (i + 1) } := hs.registers
  refine ⟨hfirst, ⟨?_, hs.latch, hs.eiDelay, rfl, _, rfl, hrest⟩, ⟨hb.memory, hb.ports⟩, rfl, rfl⟩
  simp only [next_address]
  rfl

theorem inStep_operand (hs : Fed (i + 1) bus'.memory s s') (hb : bus.Alike bus') :
    InStep (i + 1) i operand s s' bus bus' := by
  obtain ⟨vs, hvs, hfirst, hrest⟩ := hs.supplied
  rcases s with ⟨k, l, d, supply⟩
  rcases s' with ⟨k', l', d', supply'⟩
  obtain rfl : supply = some vs := hvs
  obtain rfl : supply' = none := hs.unsupplied
  obtain rfl : k = { k' with pc := k'.pc + BitVec.ofNat 16 (i + 1) } := hs.registers
  refine ⟨hfirst, ⟨?_, hs.latch, hs.eiDelay, rfl, _, rfl, hrest⟩, ⟨hb.memory, hb.ports⟩, rfl, rfl⟩
  simp only [next_address]
  rfl

theorem Fed.same {m : Memory} (hs : Fed 0 m s s') : s.registers = s'.registers := by
  rw [hs.registers, BitVec.add_zero]

/-- What a function of the registers gives does not depend on which of the two it is given, if it takes no notice of
the program counter while bytes are still to come. -/
theorem Fed.apply {m : Memory} (hs : Fed i m s s') {f : Registers → α}
    (hpc : i ≠ 0 → ∀ (k : Registers) (a : Word), f { k with pc := a } = f k) :
    f s.registers = f s'.registers := by
  rw [hs.registers]
  by_cases hi : i = 0
  · subst hi
    simp
  · exact hpc hi _ _

theorem Fed.update {m : Memory} (hs : Fed i m s s') {g : Registers → Registers}
    (hpc : i ≠ 0 → ∀ (k : Registers) (a : Word), g { k with pc := a } = { g k with pc := a }) :
    Fed i m { s with registers := g s.registers } { s' with registers := g s'.registers } := by
  obtain ⟨vs, hvs, hbytes⟩ := hs.bytes
  by_cases hi : i = 0
  · subst hi
    refine ⟨?_, hs.latch, hs.eiDelay, hs.unsupplied, vs, hvs, fun x hx => absurd hx (Nat.not_lt_zero x)⟩
    simp [hs.same]
  · have hkeep : g s'.registers = { g s'.registers with pc := s'.registers.pc } :=
      hpc hi s'.registers s'.registers.pc
    have hstay : (g s'.registers).pc = s'.registers.pc := by
      have hpcs := congrArg Registers.pc hkeep
      exact hpcs
    refine ⟨?_, hs.latch, hs.eiDelay, hs.unsupplied, vs, hvs, ?_⟩
    · simp only [hstay]
      rw [hs.registers, hpc hi]
    · simpa only [hstay] using hbytes

theorem Fed.done {m m' : Memory} (hs : Fed 0 m s s') : Fed 0 m' s s' := by
  obtain ⟨vs, hvs, -⟩ := hs.bytes
  exact ⟨hs.registers, hs.latch, hs.eiDelay, hs.unsupplied, vs, hvs, fun x hx => absurd hx (Nat.not_lt_zero x)⟩

theorem Orderly.inStep {plain : Bool} {m : Microcode α} (h : Orderly plain i j m) (hs : Fed i bus'.memory s s')
    (hb : bus.Alike bus') : InStep i j m s s' bus bus' := by
  induction h generalizing s s' bus bus' with
  | pure a => exact ⟨rfl, hs, hb, rfl, rfl⟩
  | bind hm hf ihm ihf =>
    have hfirst := ihm hs hb
    exact hfirst.bind (ihf _ hfirst.fed hfirst.alike)
  | @look i j γ f hcontrol hpc hf ih =>
    have hsame : f s.registers = f s'.registers := hs.apply hpc
    have hfirst : (Microcode.registers >>= f) s = f s'.registers s := congrFun hsame s
    exact (ih s'.registers hs hb).congr hfirst rfl
  | update hcontrol hpc => exact ⟨rfl, hs.update hpc, hb, rfl, rfl⟩
  | setFlags f =>
    have hupdate := hs.update (g := fun k => { k with f := f }) fun _ _ _ => rfl
    exact ⟨rfl, ⟨hupdate.registers, rfl, hs.eiDelay, hs.unsupplied, hupdate.bytes⟩, hb, rfl, rfl⟩
  | enable h => exact ⟨rfl, ⟨hs.registers, hs.latch, rfl, hs.unsupplied, hs.bytes⟩, hb, rfl, rfl⟩
  | opcode h => exact inStep_opcode hs hb
  | operand => exact inStep_operand hs hb
  | receiveMemory a =>
    refine ⟨hb.answer (.memory a), hs, hb.receive (.memory a) 3 3, ?_, rfl⟩
    simp [dataAccesses, Cycle.access?, Cycle.isCode, Receive.isCode, hb.answer]
  | receivePort a =>
    refine ⟨hb.answer (.port a), hs, hb.receive (.port a) 4 4, ?_, rfl⟩
    simp [dataAccesses, Cycle.access?, Cycle.isCode, Receive.isCode, hb.answer]
  -- nothing is stored while bytes are still to come, so the bytes of memory are those of the supply to the end
  | sendMemory a v => exact ⟨rfl, hs.done, hb.send (.memory a v) 3 3, rfl, rfl⟩
  | sendPort a v => exact ⟨rfl, hs, hb.send (.port a v) 4 4, rfl, rfl⟩
  | sendRegister h a v => exact ⟨rfl, hs, hb.send (.register a v) 3 3, rfl, rfl⟩
  | pause n => exact ⟨rfl, hs, hb.tick n n, rfl, rfl⟩

end InStep

section Fetch

variable (extensions : Bool)

def Opening.bytes : Opening → Nat
  | .instruction _ | .lead (.index _) => 0
  | .lead .bits | .lead .extended => 1
  | .lead (.indexedBits _) => 2

theorem Opening.orderly (o : Opening) (seen : Window) (i : Nat) :
    Orderly false (i + o.bytes) i (o.resolve extensions seen) := by
  cases o with
  | instruction n => exact .pure _
  | lead l =>
    cases l with
    | bits => exact .bind (.opcode rfl) fun v => .pure _
    | extended =>
      refine .bind (.opcode rfl) fun v => ?_
      cases extendedSlot extensions v <;> exact .pure _
    | index n => exact .pure _
    | indexedBits n =>
      refine .bind .operand fun d => ?_
      refine .look (fun _ _ _ => rfl) (fun _ _ _ => rfl) fun k => ?_
      refine .bind (.latchAddress _) fun _ => ?_
      refine .bind .operand fun v => ?_
      refine .bind (.pause 2) fun _ => ?_
      exact .pure _

def Target.bytes (t : Target) : Nat :=
  t.opcode.length + match t.operands with
    | [_, _] => 2
    | _ => 0

theorem Target.count_code (t : Target) (a : Word) : ((t.cycles a).filter Cycle.isCode).length = t.bytes := by
  have hopcode (a : Word) (vs : List Byte) : ((opcodeCycles a vs).filter Cycle.isCode).length = vs.length := by
    induction vs generalizing a with
    | nil => rfl
    | cons v vs ih => exact congrArg (· + 1) (ih (a + 1))
  rw [cycles, List.filter_append, List.length_append, hopcode, bytes]
  cases h : t.operands with
  | nil => rfl
  | cons d vs => rcases vs with _ | ⟨o, _ | _⟩ <;> rfl

theorem bytes_followBase (m : Memory) (b : Base) (a : Word) :
    (followBase m b a).bytes = (b.opening (m.get a)).bytes + 1 := by
  by_cases he : m.get a = 0xED
  · rw [followBase_extended _ b he, b.opening_extended he]
    rfl
  by_cases hb : m.get a = 0xCB
  · rw [b.opening_bits hb]
    rcases b with _ | i
    · rw [followBase_bits _ hb]
      rfl
    · rw [followBase_indexedBits _ i hb]
      rfl
  rw [followBase_opening _ b he hb]
  cases hp : Index.ofPrefix? (m.get a) with
  | some i =>
    rw [b.opening_prefixed (Index.ofPrefix?_eq_some.1 hp)]
    rfl
  | none =>
    obtain ⟨i, hi, -⟩ := b.opening_plain hb he hp
    rw [hi]
    rfl

theorem bytes_follow_indexed (m : Memory) {a : Word} {i : Index} (h : m.get a = i.prefixByte) :
    (follow m a none).bytes = ((Base.index i).opening (m.get (a + 1))).bytes + 1 + 1 := by
  rw [follow_indexed _ h, ← bytes_followBase]
  exact Nat.add_right_comm ..

theorem bytes_follow_pos (m : Memory) (a : Word) : 0 < (follow m a none).bytes := by
  cases hp : Index.ofPrefix? (m.get a) with
  | some i =>
    rw [bytes_follow_indexed m (Index.ofPrefix?_eq_some.1 hp)]
    exact Nat.succ_pos _
  | none =>
    rw [follow_plain m hp, bytes_followBase]
    exact Nat.succ_pos _

variable {i j : Nat} {s s' : Execution} {bus bus' : FlatBus}

theorem inStep_fetchBase (b : Base) (seen : Window) {v : Byte} (hv : bus'.memory.get s'.registers.pc = v)
    (hs : Fed (i + (b.opening v).bytes + 1) bus'.memory s s') (hb : bus.Alike bus') :
    InStep (i + (b.opening v).bytes + 1) i (fetchBase extensions seen b) s s' bus bus' := by
  have hfirst := inStep_opcode hs hb
  have hopcode : (on opcode s' bus').value.1 = v := by
    rcases s' with ⟨k, l, d, supply⟩
    obtain rfl : supply = none := hs.unsupplied
    exact hv
  refine hfirst.bind ?_
  rw [hopcode]
  exact (Opening.orderly extensions _ _ i).inStep hfirst.fed hfirst.alike

theorem inStep_fetch (hs : Fed (i + (follow bus'.memory s'.registers.pc none).bytes) bus'.memory s s')
    (hb : bus.Alike bus') :
    InStep (i + (follow bus'.memory s'.registers.pc none).bytes) i (fetch extensions none) s s' bus bus' := by
  rcases s' with ⟨k', l', d', supply'⟩
  obtain rfl : supply' = none := hs.unsupplied
  rw [fetch_eq]
  cases hp : Index.ofPrefix? (bus'.memory.get k'.pc) with
  | some n =>
    rw [bytes_follow_indexed _ (Index.ofPrefix?_eq_some.1 hp)] at hs ⊢
    have hfirst := inStep_opcode hs hb
    refine hfirst.bind ?_
    have hafter : fetchAfter extensions (on opcode ⟨k', l', d', none⟩ bus').value.1 =
        fetchBase extensions (Window.empty.push (bus'.memory.get k'.pc)) (.index n) := by
      simp only [on_opcode, FlatBus.perform_receive, FlatBus.answer, fetchAfter, hp]
    rw [hafter]
    exact inStep_fetchBase extensions _ _ rfl hfirst.fed hfirst.alike
  | none =>
    rw [follow_plain _ hp, bytes_followBase] at hs ⊢
    have hfirst := inStep_opcode hs hb
    refine hfirst.bind ?_
    have hafter : fetchAfter extensions (on opcode ⟨k', l', d', none⟩ bus').value.1 =
        (Base.hl.opening (bus'.memory.get k'.pc)).resolve extensions
          (Window.empty.push (bus'.memory.get k'.pc)) := by
      simp only [on_opcode, FlatBus.perform_receive, FlatBus.answer, fetchAfter, hp]
    rw [hafter]
    exact (Opening.orderly extensions _ _ i).inStep hfirst.fed hfirst.alike

theorem fetchSupplied_base (b : Base) (seen : Window) (vs : List Byte) (k : Registers) (l : Flags) (d : Bool)
    (hp : Index.ofPrefix? (supplied vs).1 = none) :
    fetchSupplied extensions seen b vs ⟨k, l, d, some []⟩ = fetchBase extensions seen b ⟨k, l, d, some vs⟩ := by
  cases vs with
  | nil => rfl
  | cons v rest =>
    have hbase : fetchBase extensions seen b ⟨k, l, d, some (v :: rest)⟩ =
        .pause (.opcode v) ((b.opening v).resolve extensions (seen.push v) ⟨k.refreshed, l, d, some rest⟩) := rfl
    have hn := b.opening_ne_index hp
    rw [hbase, fetchSupplied]
    cases ho : b.opening v with
    | instruction n => rfl
    | lead c =>
      cases c with
      | index i => exact absurd ho (hn i)
      | _ => rfl

/-- A supply is fetched from as memory would be, up to a second index prefix in a row. -/
theorem fetchSupplied_eq (vs : List Byte) (k : Registers) (l : Flags) (d : Bool)
    (hp : ∀ i : Index, (supplied vs).1 = i.prefixByte →
      Index.ofPrefix? (supplied (supplied vs).2).1 = none) :
    fetchSupplied extensions .empty .hl vs ⟨k, l, d, some []⟩ = fetch extensions none ⟨k, l, d, some vs⟩ := by
  -- past the end both give FF, which is no prefix
  cases vs with
  | nil => rfl
  | cons v rest =>
    have hfetch : fetch extensions none ⟨k, l, d, some (v :: rest)⟩ =
        .pause (.opcode v) (fetchAfter extensions v ⟨k.refreshed, l, d, some rest⟩) := by
      rw [fetch_eq]
      rfl
    rw [hfetch]
    cases hv : Index.ofPrefix? v with
    | none =>
      simp only [fetchSupplied_base extensions .hl .empty (v :: rest) k l d hv, fetchAfter, hv]
      rfl
    | some i =>
      have hi := Index.ofPrefix?_eq_some.1 hv
      simp only [fetchSupplied, fetchAfter, hv, Base.opening_prefixed _ hi]
      exact congrArg (Activity.pause (.opcode v))
        (fetchSupplied_base extensions (.index i) (Window.empty.push v) rest k.refreshed l d (hp i hi))

end Fetch

def Fault.movedTo (a : Word) : Fault → Fault
  | .undefinedOpcode _ opcode => .undefinedOpcode a opcode
  | f => f

/-- The bytes that what has been fetched is still to take. -/
def Resolution.operands : Resolution → Nat
  | .instruction i => i.operation.operands
  | .carry _ | .undefined _ => 0

namespace Cpu

section Complete

variable (c : Cpu) (a b : Word) (o : Resolution)

theorem complete_orderly : ∃ plain, Orderly plain o.operands 0 (c.complete a o) := by
  cases o with
  | instruction i => exact ⟨_, .bind (i.operation.orderly c.config c.latch) fun _ => .pure _⟩
  | carry i => exact ⟨false, .pure _⟩
  | undefined w =>
    refine ⟨false, ?_⟩
    cases h : c.config.undefined <;> simp only [complete, h] <;> exact .pure _

/-- Where an instruction began matters to a fault alone. -/
theorem complete_movedTo (s : Execution) (bus : FlatBus) :
    on (c.complete b o) s bus =
        ⟨((on (c.complete a o) s bus).value.1.mapError (Fault.movedTo b), (on (c.complete a o) s bus).value.2),
          (on (c.complete a o) s bus).bus, (on (c.complete a o) s bus).elapsed⟩ ∧
      Microcode.history (c.complete b o) s bus = Microcode.history (c.complete a o) s bus := by
  cases o with
  | instruction i => exact ⟨by simp only [complete, on_bind]; rfl, rfl⟩
  | carry i => exact ⟨rfl, rfl⟩
  | undefined w =>
    refine ⟨?_, ?_⟩ <;> cases h : c.config.undefined <;> simp only [complete, h] <;> rfl

end Complete

section Accept

variable (c : Cpu)

def accepted : Registers := { c.registers with halted := false, iff1 := false, iff2 := false }

/-- In mode 0 the device supplies an instruction, two T-states after the acknowledgement begins. -/
theorem acceptInterrupt_eq (hm : c.registers.im = 0) :
    c.acceptInterrupt c.starting =
      .pause (.internal 2) ((fetchSupplied c.config.extensions .empty .hl c.interruptData >>=
        c.complete c.registers.pc) ⟨c.accepted, .clear, false, some []⟩) := by
  have hzero : c.accepted.im = 0 := hm
  change (if c.accepted.im = 0 then _ else _ : Microcode Ending) ⟨c.accepted, .clear, false, none⟩ = _
  rw [if_pos hzero]
  rfl

/-- The response to an interrupt in modes 1 and 2, from its acknowledgement on. -/
def vectored : Microcode Ending := do
  update Registers.refreshed
  pause 7
  if c.registers.im = 1 then enter 0x0038
  else
    pushWord c.registers.pc
    goTo (← readWord (Word.ofBytes c.registers.i c.vectorByte))
  return .ok none

theorem acceptInterrupt_vectored (hm : c.registers.im ≠ 0) :
    c.acceptInterrupt c.starting = c.vectored ⟨c.accepted, .clear, false, none⟩ := by
  have hm' : c.accepted.im ≠ 0 := hm
  change (if c.accepted.im = 0 then _ else _ : Microcode Ending) ⟨c.accepted, .clear, false, none⟩ = _
  rw [if_neg hm']
  rfl

/-- In mode 0 the device's bytes are fetched and run in the place of the program's. -/
theorem acceptInterrupt_supplied (hm : c.registers.im = 0)
    (hp : ∀ i : Index, (supplied c.interruptData).1 = i.prefixByte →
      Index.ofPrefix? (supplied (supplied c.interruptData).2).1 = none) :
    c.acceptInterrupt c.starting =
      .pause (.internal 2) ((fetch c.config.extensions none >>= c.complete c.registers.pc)
        ⟨c.accepted, .clear, false, some c.interruptData⟩) := by
  have hfetch := fetchSupplied_eq c.config.extensions c.interruptData c.accepted .clear false hp
  rw [c.acceptInterrupt_eq hm]
  exact congrArg (fun m => Activity.pause (.internal 2) (m.bind fun p => c.complete c.registers.pc p.1 p.2)) hfetch

/-- The processor about to run from memory, `n` bytes back, what a device would have supplied. -/
def fromMemory (n : Nat) : Cpu :=
  { c with
    registers := { c.accepted with pc := c.registers.pc - BitVec.ofNat 16 n }
    interruptPending := false }

end Accept

section Supplied

theorem count_instruction (c : Cpu) (bus : FlatBus) (ht : c.task = .instruction c.carried) :
    ((c.history bus).filter Cycle.isCode).length =
      (c.target bus.memory).bytes +
        ((c.target bus.memory).resolution c.config.extensions (seenBefore c.carried)).operands := by
  obtain ⟨plain, horderly⟩ := c.complete_orderly c.start
    ((c.target bus.memory).resolution c.config.extensions (seenBefore c.carried))
  have hcount := horderly.count_code
    (s := { registers := (c.target bus.memory).fetched c.registers }) rfl (c.fetching bus).bus
  rw [history_instruction c bus ht, value_fetching, List.filter_append, List.length_append, Target.count_code,
    ← hcount.2, Nat.add_zero]

theorem inStep_run (c : Cpu) (a : Word) {n : Nat} {s s' : Execution} {bus bus' : FlatBus}
    (hn : n = ((follow bus'.memory s'.registers.pc none).resolution c.config.extensions .empty).operands +
      (follow bus'.memory s'.registers.pc none).bytes)
    (hs : Fed n bus'.memory s s') (hb : bus.Alike bus') :
    InStep n 0 (fetch c.config.extensions none >>= c.complete a) s s' bus bus' := by
  rw [hn] at hs ⊢
  have hfetch := inStep_fetch c.config.extensions hs hb
  refine hfetch.bind ?_
  have hvalue : (on (fetch c.config.extensions none) s' bus').value.1 =
      (follow bus'.memory s'.registers.pc none).resolution c.config.extensions .empty := by
    rcases s' with ⟨k, l, d, supply⟩
    obtain rfl : supply = none := hs.unsupplied
    rw [on_fetch]
    rfl
  rw [hvalue]
  obtain ⟨plain, horderly⟩ := c.complete_orderly a
    ((follow bus'.memory s'.registers.pc none).resolution c.config.extensions .empty)
  exact horderly.inStep hfetch.fed hfetch.alike

variable (c : Cpu) (bus : FlatBus) (n : Nat)

theorem afterStep_mapError (t : Task) (e : Ending) (f : Fault → Fault) (s : Execution) :
    c.afterStep t (e.mapError f) s = c.afterStep t e s := by
  cases e <;> rfl

theorem task_fromMemory (ht : c.task = .interrupt) : (c.fromMemory n).task = .instruction none := by
  obtain ⟨hc, hnmi, -⟩ := task_eq_interrupt.1 ht
  simp [task, fromMemory, accepted, hc, hnmi]

theorem not_prefix_of_carried (hc : c.carried = none) (ht : c.task = .instruction none)
    (hend : (c.step bus).cpu.carried = none) {i : Index} (hi : bus.memory.get c.registers.pc = i.prefixByte) :
    Index.ofPrefix? (bus.memory.get (c.registers.pc + 1)) = none := by
  cases hp : Index.ofPrefix? (bus.memory.get (c.registers.pc + 1)) with
  | none => rfl
  | some j =>
    have hj := Index.ofPrefix?_eq_some.1 hp
    rw [carried_step, performed_instruction c bus (by rw [ht, hc]), value_fetching, target, hc,
      follow_prefixes _ hi hj, Target.resolution_prefixed] at hend
    contradiction

theorem bytes_fromMemory (ht : c.task = .interrupt)
    (hn : (((c.fromMemory n).history bus).filter Cycle.isCode).length = n) :
    let t := follow bus.memory (c.fromMemory n).registers.pc none
    n = (t.resolution c.config.extensions .empty).operands + t.bytes := by
  have hc : (c.fromMemory n).carried = none := (task_eq_interrupt.1 ht).1
  have hcount := count_instruction (c.fromMemory n) bus (by rw [c.task_fromMemory n ht, hc])
  rw [hn, target, hc, Nat.add_comm] at hcount
  exact hcount

theorem inStep_supplied (ht : c.task = .interrupt)
    (hbytes : ∀ x < n, bus.memory.get (c.registers.pc - BitVec.ofNat 16 n + BitVec.ofNat 16 x) =
      c.interruptData.getD x 0xFF)
    (hn : (((c.fromMemory n).history bus).filter Cycle.isCode).length = n) :
    InStep n 0 (fetch c.config.extensions none >>= c.complete c.registers.pc)
      ⟨c.accepted, .clear, false, some c.interruptData⟩ (c.fromMemory n).starting (Bus.tick bus 2) bus := by
  refine inStep_run c c.registers.pc (c.bytes_fromMemory bus n ht hn) ?_ ⟨rfl, rfl⟩
  -- the program counter stands where the memory's bytes end
  refine ⟨?_, rfl, rfl, rfl, _, rfl, hbytes⟩
  have hpc : c.registers.pc = c.registers.pc - BitVec.ofNat 16 n + BitVec.ofNat 16 n :=
    (BitVec.sub_add_cancel _ _).symm
  exact congrArg (fun a => { c.accepted with pc := a }) hpc

/-- A supply that holds the bytes of memory has no second index prefix where memory has none. -/
theorem not_prefix_supplied {m : Memory} {a : Word} {vs : List Byte}
    (hbytes : ∀ x < (follow m a none).bytes, m.get (a + BitVec.ofNat 16 x) = vs.getD x 0xFF)
    (hmemory : ∀ i : Index, m.get a = i.prefixByte → Index.ofPrefix? (m.get (a + 1)) = none) (i : Index)
    (hi : (supplied vs).1 = i.prefixByte) : Index.ofPrefix? (supplied (supplied vs).2).1 = none := by
  have hfirst : m.get a = i.prefixByte := by
    rw [← hi, supplied_fst, ← hbytes 0 (bytes_follow_pos m a)]
    exact congrArg m.get (BitVec.add_zero a).symm
  have hsecond : m.get (a + 1) = (supplied (supplied vs).2).1 := by
    rw [supplied_fst, getD_supplied]
    refine hbytes 1 ?_
    rw [bytes_follow_indexed m hfirst]
    omega
  rw [← hsecond]
  exact hmemory i hfirst

theorem performed_supplied (ht : c.task = .interrupt) (hm : c.registers.im = 0)
    (hp : ∀ i : Index, (supplied c.interruptData).1 = i.prefixByte →
      Index.ofPrefix? (supplied (supplied c.interruptData).2).1 = none) :
    c.performed bus =
        (on (fetch c.config.extensions none >>= c.complete c.registers.pc)
          ⟨c.accepted, .clear, false, some c.interruptData⟩ (Bus.tick bus 2)).after 2 ∧
      c.history bus =
        .paused (.internal 2) :: Microcode.history (fetch c.config.extensions none >>= c.complete c.registers.pc)
          ⟨c.accepted, .clear, false, some c.interruptData⟩ (Bus.tick bus 2) := by
  have haccept := c.acceptInterrupt_supplied hm hp
  constructor
  · rw [performed, ht, perform, on, haccept]
    rfl
  · rw [history_eq, ht, perform, Microcode.history, haccept]
    rfl

/-- A fault apart, an instruction's step does not depend on where its fault would be found. -/
theorem performed_movedTo (a : Word) (hc : c.carried = none) (ht : c.task = .instruction none) :
    let o := on (fetch c.config.extensions none >>= c.complete a) c.starting bus
    c.performed bus =
        ⟨(o.value.1.mapError (Fault.movedTo c.registers.pc), o.value.2), o.bus, o.elapsed⟩ ∧
      c.history bus =
        Microcode.history (fetch c.config.extensions none >>= c.complete a) c.starting bus := by
  have ht' : c.task = .instruction c.carried := by rw [ht, hc]
  have hstart : c.start = c.registers.pc := by simp only [start, hc]
  have hmoved := c.complete_movedTo a c.start (c.fetching bus).value.1 (c.fetching bus).value.2 (c.fetching bus).bus
  rw [hstart] at hmoved
  have hfetching : c.fetching bus = on (fetch c.config.extensions none) c.starting bus := by rw [fetching, hc]
  have hcycles : (c.target bus.memory).cycles c.registers.pc =
      Microcode.history (fetch c.config.extensions none) c.starting bus := by
    rw [starting, history_fetch, target, hc]
  constructor
  · rw [performed_instruction c bus ht', hstart, hmoved.1, hfetching, on_bind]
    rfl
  · rw [history_instruction c bus ht', hstart, hmoved.2, hcycles, hfetching, Microcode.history_bind]

/-- An interrupt in mode 0 runs the device's bytes as they would run from memory, `n` of them standing below the
program counter: both steps end alike, with the same data and with two T-states for the acknowledgement. A fault names
the same bytes, and only where it is found differs. -/
theorem step_supplied (ht : c.task = .interrupt) (hm : c.registers.im = 0)
    (hbytes : ∀ x < n, bus.memory.get (c.registers.pc - BitVec.ofNat 16 n + BitVec.ofNat 16 x) =
      c.interruptData.getD x 0xFF)
    (hn : (((c.fromMemory n).history bus).filter Cycle.isCode).length = n)
    (hend : ((c.fromMemory n).step bus).cpu.carried = none) :
    let s := c.step bus
    let s' := (c.fromMemory n).step bus
    s'.result.map (· + 2) = s.result.mapError (Fault.movedTo (c.fromMemory n).registers.pc) ∧
      s.cpu = { s'.cpu with total := s'.cpu.total.later 2 } ∧
      s.bus.memory = s'.bus.memory ∧
      (c.history bus).filterMap Cycle.access? = dataAccesses ((c.fromMemory n).history bus) := by
  have ht' := c.task_fromMemory n ht
  have hc : (c.fromMemory n).carried = none := (task_eq_interrupt.1 ht).1
  have hrun := c.inStep_supplied bus n ht hbytes hn
  have hfew : (follow bus.memory (c.fromMemory n).registers.pc none).bytes ≤ n := by
    have hsum := c.bytes_fromMemory bus n ht hn
    omega
  have hp := not_prefix_supplied (fun x hx => hbytes x (Nat.lt_of_lt_of_le hx hfew)) fun i =>
    not_prefix_of_carried (c.fromMemory n) bus hc ht' hend
  obtain ⟨hsupplied, hhistory⟩ := c.performed_supplied bus ht hm hp
  obtain ⟨hmemory, hhistory'⟩ := (c.fromMemory n).performed_movedTo bus c.registers.pc hc ht'
  have hcomplete : (c.fromMemory n).complete = c.complete := rfl
  have hconfig : (c.fromMemory n).config = c.config := rfl
  simp only [hcomplete, hconfig] at hmemory hhistory'
  have hnmi : c.nmiPending = false := (task_eq_interrupt.1 ht).2.1
  refine ⟨?_, ?_, ?_, ?_⟩
  · simp only [result_step, hsupplied, hmemory, Outcome.value_after, Outcome.elapsed_after, hrun.value, hrun.elapsed,
      Nat.add_comm 2, BitVec.ofNat_add]
    cases (on (fetch c.config.extensions none >>= c.complete c.registers.pc) (c.fromMemory n).starting bus).value.1 <;>
      rfl
  · simp only [cpu_step, hsupplied, hmemory, afterStep_mapError, Outcome.value_after, Outcome.elapsed_after]
    simp only [afterStep, hrun.value, hrun.fed.same, hrun.fed.latch, hrun.fed.eiDelay, hrun.elapsed, Nat.add_comm 2,
      ← Ticks.later_later, ht, ht']
    simp [fromMemory, hnmi]
  · rw [bus_step, bus_step, hsupplied, hmemory]
    exact hrun.alike.memory
  · rw [hhistory, hhistory']
    exact hrun.data

/-- A device that supplies CALL 1234: the return address is the interrupted one, as it is for a CALL that stands right
below it. -/
theorem step_supplied_call :
    (Cpu.history
      { registers := { pc := 3, sp := 0x8000, iff1 := true }, interruptPending := true
        interruptData := [0xCD, 0x34, 0x12] }
      { memory := ((Memory.zero.set 0 0xCD).set 1 0x34).set 2 0x12 : FlatBus }).filterMap Cycle.access? =
      [(.memoryWrite, 0x7FFF, 0x00), (.memoryWrite, 0x7FFE, 0x03)] := by
  obtain ⟨-, -, -, hdata⟩ := step_supplied
    { registers := { pc := 3, sp := 0x8000, iff1 := true }, interruptPending := true
      interruptData := [0xCD, 0x34, 0x12] }
    { memory := ((Memory.zero.set 0 0xCD).set 1 0x34).set 2 0x12 } 3 rfl rfl
    (fun x hx => by
      match x, hx with
      | 0, _ => simp [Memory.get_set]
      | 1, _ => simp [Memory.get_set]
      | 2, _ => simp)
    rfl rfl
  rw [hdata]
  rfl
end Supplied

end Cpu

end Z80Machine
