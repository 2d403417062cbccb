import Z80Machine.Proofs.Rounds

/-!
A repeating block of input or output moves one byte between a port and memory in each round, as often as B says. The
counter is also the high byte of the port: for input before it is counted down, for output after. Before every round
the machine stands at the opcode, the ports have seen the elements so far, each once and in order, and an input has
stored them.
-/
namespace Z80Machine

open Microcode

/-- Which way the bytes of a port block go. -/
inductive Flow where
  | input
  | output
  deriving DecidableEq, Repr

namespace Flow

def kind : Flow → BlockKind
  | .input => .input
  | .output => .output

def block (w : Flow) (d : Direction) : Block := ⟨w.kind, d, true⟩

def code : Flow → Direction → Byte
  | .input, .up => 0xB2
  | .input, .down => 0xBA
  | .output, .up => 0xB3
  | .output, .down => 0xBB

/-- The port when the counter is `b` before the round. -/
def port (w : Flow) (b c : Byte) : Word :=
  match w with
  | .input => Word.ofBytes b c
  | .output => Word.ofBytes (b - 1) c

/-- The byte that goes from port `p` to address `a` or back. -/
def byte (w : Flow) (bus : FlatBus) (p a : Word) : Byte :=
  match w with
  | .input => bus.ports p
  | .output => bus.memory.get a

/-- The port of round `i` of a block that begins with registers `k`. -/
def portAt (w : Flow) (k : Registers) (i : Nat) : Word := w.port (k.b - BitVec.ofNat 8 i) k.c

/-- The byte of round `i` of a block that begins with registers `k` on a bus. -/
def element (w : Flow) (k : Registers) (bus : FlatBus) (d : Direction) (i : Nat) : Byte :=
  w.byte bus (w.portAt k i) (d.moved k.hl i)

def access : Flow → Access
  | .input => .portRead
  | .output => .portWrite

def accesses (w : Flow) (p a : Word) (v : Byte) : List (Access × Word × Byte) :=
  match w with
  | .input => [(.portRead, p, v), (.memoryWrite, a, v)]
  | .output => [(.memoryRead, a, v), (.portWrite, p, v)]

def store (w : Flow) (m : Memory) (a : Word) (v : Byte) : Memory :=
  match w with
  | .input => m.set a v
  | .output => m

/-- Memory after `n` rounds. -/
def stored (w : Flow) (m : Memory) (d : Direction) (a : Word) (v : Nat → Byte) (n : Nat) : Memory :=
  (List.range n).foldl (fun m i => w.store m (d.moved a i) (v i)) m

variable (w : Flow) (m : Memory) (d : Direction) (a : Word) (v : Nat → Byte)

@[simp] theorem stored_zero : w.stored m d a v 0 = m := rfl

theorem stored_succ (n : Nat) : w.stored m d a v (n + 1) = w.store (w.stored m d a v n) (d.moved a n) (v n) := by
  simp only [stored, List.range_succ, List.foldl_append, List.foldl_cons, List.foldl_nil]

@[simp] theorem stored_output (n : Nat) : Flow.output.stored m d a v n = m := by
  induction n with
  | zero => rfl
  | succ n ih => rw [stored_succ, store, ih]

theorem get_stored_of_ne {q : Word} {n : Nat} (h : w = .input → ∀ i < n, d.moved a i ≠ q) :
    (w.stored m d a v n).get q = m.get q := by
  induction n with
  | zero => rfl
  | succ n ih =>
    have hbefore := ih fun hw i hi => h hw i (by omega)
    rw [stored_succ]
    cases w with
    | input =>
      have hlast : q ≠ d.moved a n := (h rfl n (by omega)).symm
      rw [store, Memory.get_set_of_ne _ _ hlast, hbefore]
    | output => exact hbefore

end Flow

section Log

def Access.isPort : Access → Bool
  | .portRead | .portWrite => true
  | .memoryRead | .memoryWrite => false

/-- The port accesses in the log. -/
def FlatBus.portAccesses (b : FlatBus) : List (Access × Word × Byte) :=
  (b.log.toList.map fun e => (e.access, e.address, e.value)).filter (·.1.isPort)

theorem filter_dataAccesses (cs : List Cycle) :
    (dataAccesses cs).filter (·.1.isPort) = (cs.filterMap Cycle.access?).filter (·.1.isPort) := by
  induction cs with
  | nil => rfl
  | cons c cs ih =>
    cases c with
    | received c v => cases c <;> simp_all [dataAccesses, Cycle.isCode, Receive.isCode, Cycle.access?, Access.isPort]
    | sent c => cases c <;> simp_all [dataAccesses, Cycle.isCode, Cycle.access?, Access.isPort]
    | paused c => exact ih

theorem Cpu.log_step_isSome (c : Cpu) {bus : FlatBus} (h : bus.log?.isSome) : (c.step bus).bus.log?.isSome := by
  rw [log_step, Option.isSome_map, h]

theorem Cpu.portAccesses_step (c : Cpu) {bus : FlatBus} (h : bus.log?.isSome) :
    (c.step bus).bus.portAccesses = bus.portAccesses ++ (dataAccesses (c.history bus)).filter (·.1.isPort) := by
  obtain ⟨events, he⟩ := Option.isSome_iff_exists.1 h
  have hstep : (c.step bus).bus.log = events ++ (Cycle.logged bus.clock (c.history bus)).toArray := by
    rw [FlatBus.log, log_step, he]
    rfl
  have hbefore : bus.log = events := by
    rw [FlatBus.log, he]
    rfl
  rw [FlatBus.portAccesses, FlatBus.portAccesses, hstep, hbefore, filter_dataAccesses, ← Cycle.map_logged bus.clock,
    Array.toList_append, List.map_append, List.filter_append]

theorem Flow.filter_accesses (w : Flow) (p a : Word) (v : Byte) :
    (w.accesses p a v).filter (·.1.isPort) = [(w.access, p, v)] := by
  cases w <;> rfl

end Log

namespace Registers

variable (k : Registers)

/-- How often a block goes round that counts in B. -/
def portRounds : Nat := if k.b = 0 then 256 else k.b.toNat

theorem portRounds_eq : k.portRounds = (k.b - 1).toNat + 1 := by
  rw [portRounds]
  split
  · rw [‹k.b = 0›]
    rfl
  · bv_omega

theorem portRounds_pos : 0 < k.portRounds := by
  rw [portRounds_eq]
  exact Nat.succ_pos _

theorem ofNat_portRounds : BitVec.ofNat 8 k.portRounds = k.b := by
  rw [portRounds_eq, ofNat_countdown]

theorem b_counts_on {i : Nat} (hi : i < k.portRounds) :
    (k.b - BitVec.ofNat 8 i - 1 != 0) = decide (i + 1 < k.portRounds) := by
  rw [portRounds_eq] at hi ⊢
  exact counts_down k.b hi

/-- HL, B and R after `i` rounds. -/
def counted (d : Direction) (i : Nat) : Registers :=
  { k.withHl (d.moved k.hl i) with b := k.b - BitVec.ofNat 8 i, r := refreshedBy (2 * i) k.r }

@[simp] theorem hl_counted (d : Direction) (i : Nat) : (k.counted d i).hl = d.moved k.hl i := k.hl_withHl _

@[simp] theorem counted_zero (d : Direction) : k.counted d 0 = k := by
  simp [counted]

theorem counted_succ (d : Direction) (i : Nat) :
    let k' := k.counted d i
    { k'.withHl (d.next k'.hl) with b := k'.b - 1, r := refreshedBy 2 k'.r } = k.counted d (i + 1) := by
  intro k'
  have hhl : d.next k'.hl = d.moved k.hl (i + 1) := by rw [hl_counted, Direction.next_moved]
  have hb : k'.b - 1 = k.b - BitVec.ofNat 8 (i + 1) := by
    show k.b - BitVec.ofNat 8 i - 1 = _
    rw [BitVec.sub_sub, BitVec.ofNat_add]
    rfl
  have hr : refreshedBy 2 k'.r = refreshedBy (2 * (i + 1)) k.r := refreshedBy_refreshedBy 2 (2 * i) k.r
  rw [hhl, hb, hr]
  rfl

theorem finished_port (pc : Word) (hpc : k.pc = pc + 2) (again : Bool) (shown last : Flags)
    (hzero : shown.zero = last.zero) :
    ∃ f wz, k.finished again shown last = { k with pc := if again then pc else pc + 2, f, wz } ∧
      f.zero = last.zero := by
  cases again with
  | false =>
    refine ⟨last, k.wz, ?_, rfl⟩
    rw [← hpc]
    rfl
  | true =>
    have hback : k.pc - 2 = pc := by rw [hpc, BitVec.add_sub_cancel]
    refine ⟨shown.withXY pc.high, k.pc - 1, ?_, hzero⟩
    rw [finished, hback]
    rfl

end Registers

section Execution

variable (b : Block) (s : Execution) (bus : FlatBus)

@[simp] theorem accesses_finishBlock (again : Bool) (shown last : Flags) :
    dataAccesses (history (finishBlock again shown last) s bus) = [] := by
  cases again <;> rfl

theorem Block.registers_input :
    (on b.input s bus).value.2.registers =
      let k := s.registers
      let v := bus.ports k.bc
      let other := b.direction.next k.c
      let moved := { k.withHl (b.direction.next k.hl) with b := k.b - 1, wz := b.direction.next k.bc }
      moved.finished (b.repeating && k.b - 1 != 0) (portFlagsAgain v other (k.b - 1))
        (portFlags v other (k.b - 1)) := by
  simp only [input, finishPort, on_bind, on_registers, on_inputByte, on_writeByte, on_pause, on_update,
    Outcome.value_after, registers_finishBlock]
  rfl

theorem Block.memory_input :
    (on b.input s bus).bus.memory = bus.memory.set s.registers.hl (bus.ports s.registers.bc) := by
  simp only [input, finishPort, on_bind, on_registers, on_inputByte, on_writeByte, on_pause, on_update,
    Outcome.bus_after, memory_finishBlock]
  rfl

theorem Block.accesses_input :
    dataAccesses (history b.input s bus) =
      [(.portRead, s.registers.bc, bus.ports s.registers.bc),
        (.memoryWrite, s.registers.hl, bus.ports s.registers.bc)] := by
  simp only [input, finishPort, history_bind, on_registers, on_inputByte, on_writeByte, on_pause, on_update,
    dataAccesses_append, accesses_finishBlock]
  rfl

theorem Block.registers_output :
    (on b.output s bus).value.2.registers =
      let k := s.registers
      let v := bus.memory.get k.hl
      let counted := { k with b := k.b - 1 }
      let moved := { counted.withHl (b.direction.next k.hl) with wz := b.direction.next counted.bc }
      moved.finished (b.repeating && k.b - 1 != 0) (portFlagsAgain v moved.l (k.b - 1))
        (portFlags v moved.l (k.b - 1)) := by
  simp only [output, finishPort, on_bind, on_registers, on_readByte, on_outputByte, on_pause, on_update,
    Outcome.value_after, registers_finishBlock]
  rfl

theorem Block.memory_output : (on b.output s bus).bus.memory = bus.memory := by
  simp only [output, finishPort, on_bind, on_registers, on_readByte, on_outputByte, on_pause, on_update,
    Outcome.bus_after, memory_finishBlock]
  rfl

theorem Block.accesses_output :
    dataAccesses (history b.output s bus) =
      let k := s.registers
      let v := bus.memory.get k.hl
      [(.memoryRead, k.hl, v), (.portWrite, Word.ofBytes (k.b - 1) k.c, v)] := by
  simp only [output, finishPort, history_bind, on_registers, on_readByte, on_outputByte, on_pause, on_update,
    dataAccesses_append, accesses_finishBlock]
  rfl

end Execution

/-- A round of a port block. The zero flag tells whether B has run out. -/
theorem Cpu.step_flow {c : Cpu} {bus : FlatBus} {w : Flow} {d : Direction} (h : c.Ready)
    (hb : c.Faces bus.memory (w.block d)) :
    let k := c.registers
    let p := w.port k.b k.c
    let v := w.byte bus p k.hl
    let again := k.b - 1 != 0
    ∃ f wz, f.zero = !again ∧
      c.StepsTo bus (if again then 21 else 16)
        { k.withHl (d.next k.hl) with
          b := k.b - 1
          pc := if again then k.pc else k.pc + 2
          f, wz
          r := refreshedBy 2 k.r }
        (w.store bus.memory k.hl v) (w.accesses p k.hl v) := by
  intro k p v again
  let s : Execution := { registers := { k with pc := k.pc + 2, r := refreshedBy 2 k.r } }
  have htime : 8 + Operation.time (.block (w.block d)) + Operation.extra k bus.memory (.block (w.block d)) =
      if again then 21 else 16 := by
    have hrewinds : (w.block d).rewinds k bus.memory = again := by cases w <;> rfl
    show 8 + 8 + (if (w.block d).rewinds k bus.memory then 5 else 0) = _
    rw [hrewinds]
    split <;> rfl
  have hzero : (k.b - 1 == 0) = !again := (Bool.not_not _).symm
  cases w with
  | input =>
    let moved := { s.registers.withHl (d.next k.hl) with b := k.b - 1, wz := d.next k.bc }
    let shown := Block.portFlagsAgain v (d.next k.c) (k.b - 1)
    let last := Block.portFlags v (d.next k.c) (k.b - 1)
    obtain ⟨f, wz, hfinished, hf⟩ := moved.finished_port k.pc rfl again shown last rfl
    have hregisters := (Flow.input.block d).registers_input s bus
    exact ⟨f, wz, hf.trans hzero, (step_reached h hb.reaches).congr htime (hregisters.trans hfinished)
      (Block.memory_input ..) (Block.accesses_input ..)⟩
  | output =>
    let moved := { s.registers.withHl (d.next k.hl) with b := k.b - 1, wz := d.next (Word.ofBytes (k.b - 1) k.c) }
    let shown := Block.portFlagsAgain v moved.l (k.b - 1)
    let last := Block.portFlags v moved.l (k.b - 1)
    obtain ⟨f, wz, hfinished, hf⟩ := moved.finished_port k.pc rfl again shown last rfl
    have hregisters := (Flow.output.block d).registers_output s bus
    exact ⟨f, wz, hf.trans hzero, (step_reached h hb.reaches).congr htime (hregisters.trans hfinished)
      (Block.memory_output ..) (Block.accesses_output ..)⟩

/-- A machine that began a port block as `m` has gone `i` rounds in `t` T-states and stands at `pc`. The zero flag
belongs to the counter as soon as a round has set it. -/
structure Porting (w : Flow) (d : Direction) (m : Machine FlatBus) (i : Nat) (pc : Word) (t : Nat)
    (x : Machine FlatBus) : Prop where
  ready : x.cpu.Ready
  total : x.cpu.total = m.cpu.total.later t
  memory : x.bus.memory =
    w.stored m.bus.memory d m.cpu.registers.hl (w.element m.cpu.registers m.bus d) i
  ports : x.bus.ports = m.bus.ports
  logged : m.bus.log?.isSome → x.bus.log?.isSome
  accesses : m.bus.log?.isSome → x.bus.portAccesses = m.bus.portAccesses ++
    (List.range i).map fun j => (w.access, w.portAt m.cpu.registers j, w.element m.cpu.registers m.bus d j)
  registers : ∃ f wz, x.cpu.registers = { m.cpu.registers.counted d i with pc, f, wz }
  zero : 0 < i → x.cpu.registers.f.zero = (x.cpu.registers.b == 0)

namespace Porting

variable {w : Flow} {d : Direction} {m x : Machine FlatBus} {i t : Nat}

theorem start (h : m.cpu.Ready) : Porting w d m 0 m.cpu.registers.pc 0 m where
  ready := h
  total := (m.cpu.total.later_zero).symm
  memory := rfl
  ports := rfl
  logged := id
  accesses := fun _ => (List.append_nil _).symm
  registers := by
    rw [Registers.counted_zero]
    exact ⟨_, _, rfl⟩
  zero := fun h => absurd h (Nat.lt_irrefl 0)

theorem faces (h : Porting w d m i m.cpu.registers.pc t x)
    (hed : m.bus.memory.get m.cpu.registers.pc = 0xED)
    (hcode : m.bus.memory.get (m.cpu.registers.pc + 1) = w.code d)
    (hspare : w = .input → ∀ j < i, d.moved m.cpu.registers.hl j ≠ m.cpu.registers.pc ∧
      d.moved m.cpu.registers.hl j ≠ m.cpu.registers.pc + 1) :
    x.cpu.Faces x.bus.memory (w.block d) := by
  obtain ⟨f, wz, hregisters⟩ := h.registers
  have hpc : x.cpu.registers.pc = m.cpu.registers.pc := by rw [hregisters]
  constructor
  · rw [hpc, h.memory, w.get_stored_of_ne _ _ _ _ fun hw j hj => (hspare hw j hj).1]
    exact hed
  · rw [hpc, h.memory, w.get_stored_of_ne _ _ _ _ fun hw j hj => (hspare hw j hj).2, hcode]
    cases w <;> cases d <;> rfl

theorem round (h : Porting w d m i m.cpu.registers.pc t x) (hi : i < m.cpu.registers.portRounds)
    (hb : x.cpu.Faces x.bus.memory (w.block d)) :
    let k := m.cpu.registers
    let again := i + 1 < k.portRounds
    (x.cpu.step x.bus).result = .ok (if again then 21 else 16) ∧
      dataAccesses (x.cpu.history x.bus) =
        w.accesses (w.portAt k i) (d.moved k.hl i) (w.element k m.bus d i) ∧
      Porting w d m (i + 1) (if again then k.pc else k.pc + 2) (t + if again then 21 else 16) (x.after .step) := by
  intro k again
  obtain ⟨f, wz, hregisters⟩ := h.registers
  have hb' : x.cpu.registers.b = k.b - BitVec.ofNat 8 i := by
    rw [hregisters]
    rfl
  have hhl : x.cpu.registers.hl = d.moved k.hl i := by
    rw [hregisters]
    exact k.hl_counted d i
  have hport : w.port x.cpu.registers.b x.cpu.registers.c = w.portAt k i := by
    rw [hb', hregisters]
    rfl
  have hbyte : w.byte x.bus (w.portAt k i) (d.moved k.hl i) = w.element k m.bus d i := by
    cases w with
    | input => exact congrFun h.ports _
    | output =>
      show x.bus.memory.get _ = m.bus.memory.get _
      rw [h.memory, Flow.stored_output]
  have hagain : (x.cpu.registers.b - 1 != 0) = decide again := by rw [hb', k.b_counts_on hi]
  obtain ⟨f', wz', hzero, hstep⟩ := Cpu.step_flow h.ready hb
  rw [hport, hhl, hbyte, hagain] at hstep
  simp only [decide_eq_true_iff] at hstep
  have hround : (x.after .step).cpu.registers =
      { k.counted d (i + 1) with pc := if again then k.pc else k.pc + 2, f := f', wz := wz' } := by
    rw [← k.counted_succ d i]
    refine hstep.registers.trans ?_
    rw [hregisters]
    simp only [Registers.hl_counted]
    rfl
  refine ⟨?_, hstep.accesses, ?_⟩
  · rw [hstep.result]
    split <;> rfl
  · constructor
    · exact hstep.ready h.ready.interrupt h.ready.running
    · rw [← Ticks.later_later, ← h.total]
      exact hstep.total
    · rw [Flow.stored_succ, ← h.memory]
      exact hstep.memory
    · exact (x.cpu.ports_step x.bus).trans h.ports
    · exact fun hlog => x.cpu.log_step_isSome (h.logged hlog)
    · intro hlog
      rw [List.range_succ, List.map_append, ← List.append_assoc, ← h.accesses hlog]
      refine (x.cpu.portAccesses_step (h.logged hlog)).trans ?_
      rw [hstep.accesses, Flow.filter_accesses]
      rfl
    · exact ⟨f', wz', hround⟩
    · intro _
      have hcount : (x.after .step).cpu.registers.b = x.cpu.registers.b - 1 := by
        rw [hround, hb', BitVec.sub_sub]
        exact congrArg (k.b - ·) (BitVec.ofNat_add ..)
      rw [hcount, hround]
      exact hzero.trans (Bool.not_not _)

end Porting

namespace Machine

/-- A repeating port block moves as many bytes as B says, one in a step and in order; an input does so as long as it
does not write to its own opcode. Each byte goes between the address to which HL has moved and the port that B and C
name, B as it is before the round for input and after it for output, and a running log gains one port access for each.
Afterwards B is zero and the zero flag says so, HL has moved on by as much, and all else but the flags, WZ and R is as
it was. -/
theorem steps_port (m : Machine FlatBus) (w : Flow) (d : Direction) (hready : m.cpu.Ready)
    (hed : m.bus.memory.get m.cpu.registers.pc = 0xED)
    (hcode : m.bus.memory.get (m.cpu.registers.pc + 1) = w.code d)
    (hspare : w = .input → ∀ i < m.cpu.registers.portRounds,
      d.moved m.cpu.registers.hl i ≠ m.cpu.registers.pc ∧ d.moved m.cpu.registers.hl i ≠ m.cpu.registers.pc + 1) :
    let k := m.cpu.registers
    let n := k.portRounds
    let port i := w.portAt k i
    let byte i := w.element k m.bus d i
    (∀ i < n, ((m.steps i).cpu.step (m.steps i).bus).result = .ok (if i + 1 < n then 21 else 16)) ∧
      (∀ i < n, (m.steps i).cpu.registers.pc = k.pc) ∧
      (∀ i < n, dataAccesses ((m.steps i).cpu.history (m.steps i).bus) =
        w.accesses (port i) (d.moved k.hl i) (byte i)) ∧
      (m.bus.log?.isSome → (m.steps n).bus.portAccesses =
        m.bus.portAccesses ++ (List.range n).map fun i => (w.access, port i, byte i)) ∧
      (m.steps n).cpu.Ready ∧
      (m.steps n).cpu.total = m.cpu.total.later (21 * (n - 1) + 16) ∧
      (m.steps n).bus.memory = w.stored m.bus.memory d k.hl byte n ∧
      ∃ f wz, f.zero = true ∧ (m.steps n).cpu.registers =
        { k.withHl (d.moved k.hl n) with b := 0, pc := k.pc + 2, f, wz, r := refreshedBy (2 * n) k.r } := by
  intro k n port byte
  have hn : 0 < n := k.portRounds_pos
  have hfaces : ∀ i < n, ∀ x, Porting w d m i k.pc (21 * i) x → x.cpu.Faces x.bus.memory (w.block d) := by
    intro i hi x h
    exact h.faces hed hcode fun hw j hj => hspare hw j (Nat.lt_trans hj hi)
  have hporting : ∀ i < n, Porting w d m i k.pc (21 * i) (m.steps i) := by
    refine m.steps_of_rounds (.start hready) fun i x hi h => ?_
    have hin : i < n := Nat.lt_of_succ_lt hi
    obtain ⟨-, -, hnext⟩ := h.round hin (hfaces i hin x h)
    rwa [if_pos hi, if_pos hi] at hnext
  have hround i (hi : i < n) := (hporting i hi).round hi (hfaces i hi _ (hporting i hi))
  -- the last round starts from the invariant too, but leaves the opcode behind
  have hlast := (hround (n - 1) (by omega)).2.2
  have hsucc : n - 1 + 1 = n := by omega
  rw [← steps_succ, hsucc, if_neg (Nat.lt_irrefl n), if_neg (Nat.lt_irrefl n)] at hlast
  obtain ⟨f, wz, hregisters⟩ := hlast.registers
  have hb : k.b - BitVec.ofNat 8 n = 0 := by
    rw [k.ofNat_portRounds, BitVec.sub_self]
    rfl
  rw [Registers.counted, hb] at hregisters
  refine ⟨fun i hi => (hround i hi).1, ?_, fun i hi => (hround i hi).2.1, hlast.accesses, hlast.ready, hlast.total,
    hlast.memory, f, wz, ?_, ?_⟩
  · intro i hi
    obtain ⟨f, wz, hbefore⟩ := (hporting i hi).registers
    rw [hbefore]
  · have hzero := hlast.zero hn
    rw [hregisters] at hzero
    exact hzero
  · exact hregisters

/-- Two bytes come in, each from the port that has the counter in its high byte. -/
theorem steps_port_twice :
    let m : Machine FlatBus :=
      { cpu := { registers := { b := 2, c := 0xFE, h := 0x40 } }
        bus := { memory := (Memory.zero.set 0 0xED).set 1 0xB2, ports := fun p => p.high + 7, log? := some #[] } }
    (m.steps 2).bus.portAccesses = [(.portRead, 0x02FE, 9), (.portRead, 0x01FE, 8)] ∧
      (m.steps 2).bus.memory.get 0x4001 = 8 := by
  intro m
  have hn : m.cpu.registers.portRounds = 2 := by decide
  have hhl : m.cpu.registers.hl = 0x4000 := by decide
  have hspare : Flow.input = .input → ∀ i < m.cpu.registers.portRounds,
      Direction.up.moved m.cpu.registers.hl i ≠ m.cpu.registers.pc ∧
        Direction.up.moved m.cpu.registers.hl i ≠ m.cpu.registers.pc + 1 := by
    intro _
    rw [hn, hhl]
    decide
  obtain ⟨-, -, -, haccesses, -, -, hmemory, -⟩ := m.steps_port .input .up ⟨rfl, rfl, rfl, rfl⟩
    (by simp [m, Memory.get_set]) (by simp [m, Flow.code]) hspare
  rw [hn] at haccesses hmemory
  rw [hhl] at hmemory
  have hbyte : Flow.input.element m.cpu.registers m.bus .up 1 = 8 := by decide
  constructor
  · rw [haccesses rfl]
    decide
  · rw [hmemory]
    simp [Flow.stored_succ, Flow.store, Direction.moved, hbyte]

end Machine

end Z80Machine
