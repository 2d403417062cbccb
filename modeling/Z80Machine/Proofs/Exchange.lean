import Z80Machine.Microcode.Operation
import Z80Machine.Proofs.Lockstep

/-!
Registers that trade places. An exchange puts IX and IY, or HL and an index register, in each other's places, in the
registers and in the names of an operation. `Parallel` says of two microcodes that from registers that have traded places
they go on in lockstep and end so again. WZ may differ if it is hidden, and so a run that does not look at it can be
followed beside one with another WZ.
-/
namespace Z80Machine

open Microcode

def Index.other : Index → Index
  | .ix => .iy
  | .iy => .ix

/-- What trades places: nothing, the two index registers, or HL and one of them. -/
inductive Exchange where
  | nothing
  | indexes
  | hl (i : Index)
  deriving DecidableEq, Repr

/-- The byte registers that a base consists of. -/
def Base.high : Base → Register
  | .hl => .h
  | .index i => .high i

def Base.low : Base → Register
  | .hl => .l
  | .index i => .low i

/-- HL stays where it is. -/
def Exchange.KeepsHl : Exchange → Prop
  | .nothing | .indexes => True
  | .hl _ => False

section Names

variable (ρ : Exchange)

def Base.exchanged (b : Base) : Base :=
  match ρ, b with
  | .nothing, b => b
  | .indexes, .hl => .hl
  | .indexes, .index i => .index i.other
  | .hl i, .hl => .index i
  | .hl i, .index j => if i = j then .hl else .index j

/-- An index register that addresses memory gives way to the other one, and never to HL. -/
def Index.exchanged (i : Index) : Index :=
  match ρ with
  | .nothing | .hl _ => i
  | .indexes => i.other

def Register.exchanged : Register → Register
  | .h => (Base.hl.exchanged ρ).high
  | .l => (Base.hl.exchanged ρ).low
  | .high i => ((Base.index i).exchanged ρ).high
  | .low i => ((Base.index i).exchanged ρ).low
  | r => r

def Pair.exchanged : Pair → Pair
  | .hl => (Base.hl.exchanged ρ).pair
  | .index i => ((Base.index i).exchanged ρ).pair
  | p => p

def Pointer.exchanged : Pointer → Pointer
  | .hl => .hl
  | .displaced i => .displaced (i.exchanged ρ)
  | .latched i => .latched (i.exchanged ρ)

def Place.exchanged : Place → Place
  | .register r => .register (r.exchanged ρ)
  | .memory p => .memory (p.exchanged ρ)

def Source.exchanged : Source → Source
  | .place p => .place (p.exchanged ρ)
  | .immediate => .immediate

def Location.exchanged : Location → Location
  | .register r => .register (r.exchanged ρ)
  | .memory a => .memory a

def Transfer.exchanged : Transfer → Transfer
  | .load dst src => .load (dst.exchanged ρ) (src.exchanged ρ)
  | .storeImmediate b => .storeImmediate (b.exchanged ρ)
  | .loadPairImmediate p => .loadPairImmediate (p.exchanged ρ)
  | .loadPair p => .loadPair (p.exchanged ρ)
  | .storePair p => .storePair (p.exchanged ρ)
  | .loadStackPointer b => .loadStackPointer (b.exchanged ρ)
  | .push p => .push (p.exchanged ρ)
  | .pop p => .pop (p.exchanged ρ)
  | .exchangeStackTop b => .exchangeStackTop (b.exchanged ρ)
  | t => t

def Arithmetic.exchanged : Arithmetic → Arithmetic
  | .accumulate op src => .accumulate op (src.exchanged ρ)
  | .step d p => .step d (p.exchanged ρ)
  | .stepPair d p => .stepPair d (p.exchanged ρ)
  | .addTo dst src => .addTo (dst.exchanged ρ) (src.exchanged ρ)
  | .addCarry src => .addCarry (src.exchanged ρ)
  | .subtractCarry src => .subtractCarry (src.exchanged ρ)
  | a => a

def BitOperation.exchanged : BitOperation → BitOperation
  | .shift op p copy => .shift op (p.exchanged ρ) (copy.map (Register.exchanged ρ))
  | .test n p => .test n (p.exchanged ρ)
  | .reset n p copy => .reset n (p.exchanged ρ) (copy.map (Register.exchanged ρ))
  | .set n p copy => .set n (p.exchanged ρ) (copy.map (Register.exchanged ρ))
  | b => b

def Jump.exchanged : Jump → Jump
  | .toBase b => .toBase (b.exchanged ρ)
  | j => j

def Transmission.exchanged : Transmission → Transmission
  | .read r => .read (r.map (Register.exchanged ρ))
  | .write r => .write (r.map (Register.exchanged ρ))
  | t => t

def Extension.exchanged : Extension → Extension
  | .addAccumulator p => .addAccumulator (p.exchanged ρ)
  | .addImmediate p => .addImmediate (p.exchanged ρ)
  | e => e

/-- The operation with the names exchanged. -/
def Operation.exchanged : Operation → Operation
  | .transfer t => .transfer (t.exchanged ρ)
  | .arithmetic a => .arithmetic (a.exchanged ρ)
  | .bit b => .bit (b.exchanged ρ)
  | .jump j => .jump (j.exchanged ρ)
  | .control o => .control o
  | .transmit t => .transmit (t.exchanged ρ)
  | .block b => .block b
  | .extension e => .extension (e.exchanged ρ)

end Names

namespace Registers

/-- The registers after the exchange. -/
def exchanged (ρ : Exchange) (k : Registers) : Registers :=
  { k with
    h := match ρ with
      | .hl i => (k.index i).high
      | .nothing | .indexes => k.h
    l := match ρ with
      | .hl i => (k.index i).low
      | .nothing | .indexes => k.l
    ix := match ρ with
      | .indexes => k.iy
      | .hl .ix => k.hl
      | .nothing | .hl .iy => k.ix
    iy := match ρ with
      | .indexes => k.ix
      | .hl .iy => k.hl
      | .nothing | .hl .ix => k.iy }

/-- The registers after the exchange, with `w` in WZ. -/
def exchangedWith (ρ : Exchange) (w : Word) (k : Registers) : Registers := { k.exchanged ρ with wz := w }

variable (ρ : Exchange) (k : Registers) (w : Word)

@[simp] theorem exchanged_exchanged : (k.exchanged ρ).exchanged ρ = k := by
  rcases ρ with _ | _ | (_ | _) <;> simp [exchanged, index, Bank.hl]

@[simp] theorem get_exchanged (r : Register) : (k.exchangedWith ρ w).get (r.exchanged ρ) = k.get r := by
  rcases ρ with _ | _ | (_ | _) <;> rcases r with _ | _ | _ | _ | _ | _ | _ | (_ | _) | (_ | _) <;>
    simp [Register.exchanged, Base.exchanged, Index.other, Base.high, Base.low, exchangedWith, exchanged, get, index,
      Bank.hl]

@[simp] theorem pair_exchanged (p : Pair) : (k.exchangedWith ρ w).pair (p.exchanged ρ) = k.pair p := by
  rcases ρ with _ | _ | (_ | _) <;> rcases p with _ | _ | _ | _ | _ | (_ | _) <;>
    simp [Pair.exchanged, Base.exchanged, Index.other, Base.pair, exchangedWith, exchanged, pair, index, Bank.bc, Bank.de,
      Bank.hl, Bank.af]

@[simp] theorem base_exchanged (b : Base) : (k.exchangedWith ρ w).base (b.exchanged ρ) = k.base b := by
  rcases ρ with _ | _ | (_ | _) <;> rcases b with _ | (_ | _) <;>
    simp [Base.exchanged, Index.other, Base.pair, exchangedWith, exchanged, base, pair, index, Bank.hl]

theorem index_exchanged (hρ : ρ.KeepsHl) (i : Index) : (k.exchangedWith ρ w).index (i.exchanged ρ) = k.index i := by
  rcases ρ with _ | _ | _ <;> cases i <;> first | rfl | exact hρ.elim

theorem hl_exchanged (hρ : ρ.KeepsHl) : (k.exchangedWith ρ w).hl = k.hl := by
  rcases ρ with _ | _ | _ <;> first | rfl | exact hρ.elim

theorem set_exchanged (r : Register) (v : Byte) :
    (k.exchangedWith ρ w).set (r.exchanged ρ) v = (k.set r v).exchangedWith ρ w := by
  rcases ρ with _ | _ | (_ | _) <;> rcases r with _ | _ | _ | _ | _ | _ | _ | (_ | _) | (_ | _) <;>
    simp [Register.exchanged, Base.exchanged, Index.other, Base.high, Base.low, exchangedWith, exchanged, set, index,
      withIndex, Bank.hl]

theorem withPair_exchanged (p : Pair) (v : Word) :
    (k.exchangedWith ρ w).withPair (p.exchanged ρ) v = (k.withPair p v).exchangedWith ρ w := by
  rcases ρ with _ | _ | (_ | _) <;> rcases p with _ | _ | _ | _ | _ | (_ | _) <;>
    simp [Pair.exchanged, Base.exchanged, Index.other, Base.pair, exchangedWith, exchanged, withPair, withBc, withDe, withHl,
      withAf, Bank.withBc, Bank.withDe, Bank.withHl, Bank.withAf, index, withIndex, Bank.hl]

theorem wz_set (r : Register) (v : Byte) : (k.set r v).wz = k.wz := by
  rcases r with _ | _ | _ | _ | _ | _ | _ | (_ | _) | (_ | _) <;> rfl

theorem wz_withPair (p : Pair) (v : Word) : (k.withPair p v).wz = k.wz := by
  rcases p with _ | _ | _ | _ | _ | (_ | _) <;> rfl

end Registers

/-- Executions with the registers exchanged. Unless WZ is seen it may differ. -/
def Execution.Like (ρ : Exchange) (seen : Prop) (s s' : Execution) : Prop :=
  ∃ w, s' = { s with registers := s.registers.exchangedWith ρ w } ∧ (seen → w = s.registers.wz)

/-- From executions that are alike `m'` goes on in lockstep with `m`, to the same value and to executions alike. -/
def Parallel (ρ : Exchange) (seen : Prop) {α : Type} (m m' : Microcode α) : Prop :=
  ∀ s s', s.Like ρ seen s' → (m s).Lockstep (fun p p' => p'.1 = p.1 ∧ p.2.Like ρ seen p'.2) (m' s')

namespace Parallel

open Registers (exchangedWith exchanged)

variable {ρ : Exchange} {seen : Prop} {α γ δ : Type}

theorem pure (a : α) : Parallel ρ seen (Pure.pure a) (Pure.pure a) := fun _ _ h => .done ⟨rfl, h⟩

/-- What goes on in lockstep with what is done first may end in other values and other executions. -/
theorem lockstep_bind {m m' : Microcode α} {f : α → Microcode γ} {g : α → Microcode δ}
    {Q : γ × Execution → δ × Execution → Prop} {s s' : Execution} (hm : Parallel ρ seen m m') (h : s.Like ρ seen s')
    (hf : ∀ a t t', t.Like ρ seen t' → (f a t).Lockstep Q (g a t')) : ((m >>= f) s).Lockstep Q ((m' >>= g) s') := by
  refine (hm s s' h).bind ?_
  rintro ⟨a, t⟩ ⟨_, t'⟩ ⟨rfl, ht⟩
  exact hf _ t t' ht

/-- Runs on one bus go together if they do from where the first ones have led. -/
theorem together_bind {β : Type} [Bus β] {b : β} {m m' : Microcode α} {f : α → Microcode γ} {g : α → Microcode δ}
    {Q : γ × Execution → δ × Execution → Prop} {s s' : Execution} (hm : Parallel ρ seen m m') (h : s.Like ρ seen s')
    (hf : ∀ a t t', ((m s).run b).value = (a, t) → t.Like ρ seen t' →
      (f a t).Together Q ((m s).run b).bus (g a t')) :
    ((m >>= f) s).Together Q b ((m' >>= g) s') := by
  have hfirst := (hm s s' h).together b
  refine hfirst.bind ?_
  obtain ⟨hvalue, ht⟩ := hfirst.value
  rcases hp : ((m s).run b).value with ⟨a, t⟩
  rcases hp' : ((m' s').run b).value with ⟨a', t'⟩
  rw [hp, hp'] at hvalue ht
  obtain rfl : a' = a := hvalue
  exact hf a' t t' hp ht

theorem lockstep_look {f : Registers → Microcode γ} {g : Registers → Microcode δ}
    {Q : γ × Execution → δ × Execution → Prop} {s s' : Execution} (h : s.Like ρ seen s')
    (hf : ∀ w, (seen → w = s.registers.wz) →
      (f s.registers s).Lockstep Q (g (s.registers.exchangedWith ρ w) s')) :
    ((registers >>= f) s).Lockstep Q ((registers >>= g) s') := by
  obtain ⟨w, rfl, hw⟩ := h
  exact hf w hw

theorem bind {m m' : Microcode α} {f g : α → Microcode γ} (hm : Parallel ρ seen m m')
    (hf : ∀ a, Parallel ρ seen (f a) (g a)) : Parallel ρ seen (m >>= f) (m' >>= g) :=
  fun _ _ h => hm.lockstep_bind h fun a t t' ht => hf a t t' ht

/-- The registers that are looked at have been exchanged, and show another WZ unless that is seen. -/
theorem look {f g : Registers → Microcode γ}
    (hf : ∀ k w, (seen → w = k.wz) → Parallel ρ seen (f k) (g (k.exchangedWith ρ w))) :
    Parallel ρ seen (registers >>= f) (registers >>= g) :=
  fun _ _ h => lockstep_look h fun w hw => hf _ w hw _ _ h

theorem update {f g : Registers → Registers}
    (hf : ∀ k w, ∃ w', g (k.exchangedWith ρ w) = (f k).exchangedWith ρ w' ∧ (w = k.wz → w' = (f k).wz)) :
    Parallel ρ seen (Microcode.update f) (Microcode.update g) := by
  rintro s s' ⟨w, rfl, hw⟩
  obtain ⟨w', hg, hw'⟩ := hf s.registers w
  refine .done ⟨rfl, w', ?_, fun h => hw' (hw h)⟩
  exact congrArg (fun k => { s with registers := k }) hg

/-- A change that leaves IX, IY and WZ alone. -/
theorem aside (hρ : ρ.KeepsHl) {f : Registers → Registers}
    (hf : ∀ k x y w, f { k with ix := x, iy := y, wz := w } = { f k with ix := x, iy := y, wz := w }) :
    Parallel ρ seen (Microcode.update f) (Microcode.update f) := by
  have hindexes (k : Registers) : (f k).ix = k.ix ∧ (f k).iy = k.iy ∧ (f k).wz = k.wz := by
    have hk := hf k k.ix k.iy k.wz
    exact ⟨congrArg (·.ix) hk, congrArg (·.iy) hk, congrArg (·.wz) hk⟩
  refine .update fun k w => ⟨w, ?_, fun h => h.trans (hindexes k).2.2.symm⟩
  obtain ⟨hix, hiy, -⟩ := hindexes k
  rcases ρ with _ | _ | i
  · exact (hf k k.ix k.iy w).trans (by simp only [exchangedWith, exchanged, hix, hiy])
  · exact (hf k k.iy k.ix w).trans (by simp only [exchangedWith, exchanged, hix, hiy])
  · exact hρ.elim

theorem setFlags (f : Flags) : Parallel ρ seen (Microcode.setFlags f) (Microcode.setFlags f) := by
  rintro s s' ⟨w, rfl, hw⟩
  exact .done ⟨rfl, w, rfl, hw⟩

theorem enable : Parallel ρ seen (modify fun s => { s with eiDelay := true })
    (modify fun s => { s with eiDelay := true }) := by
  rintro s s' ⟨w, rfl, hw⟩
  exact .done ⟨rfl, w, rfl, hw⟩

theorem receive (c : Receive) : Parallel ρ seen (Microcode.receive c) (Microcode.receive c) :=
  fun _ _ h => .receive c fun _ => .done ⟨rfl, h⟩

theorem send (c : Send) : Parallel ρ seen (Microcode.send c) (Microcode.send c) :=
  fun _ _ h => .send c (.done ⟨rfl, h⟩)

theorem wait (c : Pause) : Parallel ρ seen (Microcode.wait c) (Microcode.wait c) :=
  fun _ _ h => .pause c (.done ⟨rfl, h⟩)

theorem ite {p : Prop} [Decidable p] {m m' n n' : Microcode α} (hm : Parallel ρ seen m m')
    (hn : Parallel ρ seen n n') : Parallel ρ seen (if p then m else n) (if p then m' else n') := by
  split
  · exact hm
  · exact hn

theorem opcode : Parallel ρ seen Microcode.opcode Microcode.opcode := by
  rintro ⟨k, l, d, _ | bytes⟩ s' ⟨w, rfl, hw⟩
  · exact .receive _ fun v => .done ⟨rfl, w, rfl, hw⟩
  · exact .pause _ (.done ⟨rfl, w, rfl, hw⟩)

theorem operand : Parallel ρ seen Microcode.operand Microcode.operand := by
  rintro ⟨k, l, d, _ | bytes⟩ s' ⟨w, rfl, hw⟩
  · exact .receive _ fun v => .done ⟨rfl, w, rfl, hw⟩
  · exact .pause _ (.done ⟨rfl, w, rfl, hw⟩)

theorem operandWord : Parallel ρ seen Microcode.operandWord Microcode.operandWord := by
  refine .bind .operand fun low => ?_
  refine .bind .operand fun high => ?_
  exact .pure _

theorem readWord (a : Word) : Parallel ρ seen (Microcode.readWord a) (Microcode.readWord a) := by
  refine .bind (.receive _) fun low => ?_
  refine .bind (.receive _) fun high => ?_
  exact .pure _

theorem writeWord (a w : Word) : Parallel ρ seen (Microcode.writeWord a w) (Microcode.writeWord a w) := by
  refine .bind (.send _) fun _ => ?_
  exact .send _

theorem pushWord (w : Word) : Parallel ρ seen (Microcode.pushWord w) (Microcode.pushWord w) := by
  refine .look fun k _ _ => ?_
  refine .bind (.update fun _ w => ⟨w, rfl, id⟩) fun _ => ?_
  refine .bind (.send _) fun _ => ?_
  exact .send _

theorem popWord : Parallel ρ seen Microcode.popWord Microcode.popWord := by
  refine .look fun k _ _ => ?_
  refine .bind (.update fun _ w => ⟨w, rfl, id⟩) fun _ => ?_
  exact .readWord _

theorem latchAddress (a : Word) : Parallel ρ seen (Microcode.latchAddress a) (Microcode.latchAddress a) :=
  .update fun _ _ => ⟨a, rfl, fun _ => rfl⟩

theorem goTo (a : Word) : Parallel ρ seen (Microcode.goTo a) (Microcode.goTo a) :=
  .update fun _ _ => ⟨a, rfl, fun _ => rfl⟩

theorem setRegister (r : Register) (v : Byte) :
    Parallel ρ seen (Microcode.update (·.set r v)) (Microcode.update (·.set (r.exchanged ρ) v)) := by
  refine .update fun k w => ⟨w, k.set_exchanged ρ w r v, fun h => ?_⟩
  rw [h, Registers.wz_set]

theorem setPair (p : Pair) (v : Word) :
    Parallel ρ seen (Microcode.update (·.withPair p v)) (Microcode.update (·.withPair (p.exchanged ρ) v)) := by
  refine .update fun k w => ⟨w, k.withPair_exchanged ρ w p v, fun h => ?_⟩
  rw [h, Registers.wz_withPair]

end Parallel

end Z80Machine
