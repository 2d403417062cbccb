import Z80Machine.Proofs.Latching
import Z80Machine.Proofs.Supply
import Z80Machine.Proofs.Timing

/-!
Which parts of the processor an operation touches: the flags, the shadow bank, an index register, the program counter.
Microcode spares a part if it stands at the end of all ways as at the beginning, where the program counter is seen from
behind the bytes of the instruction that are still to come. `Operation.spares` says that an operation spares the parts
that it does not touch, and `Page.touches_slot` finds in the tables what touches F and an index register. The control
state has its own few operations, and `Operation.controlled` says what each of them does to it.
-/
namespace Z80Machine

open Microcode

/-- What few operations touch. -/
inductive Part where
  | flags
  | shadow
  | index (i : Index)
  | counter
  deriving DecidableEq, Repr

/-- The address `n` bytes of the instruction further on; while a device supplies them the program counter stands. -/
def Execution.ahead (s : Execution) (n : Nat) : Word :=
  if s.supply.isSome then s.registers.pc else s.registers.pc + BitVec.ofNat 16 n

/-- The registers in which the parts are. -/
def Registers.parts (k : Registers) : Flags × Bank × Word × Word × Word := (k.f, k.shadow, k.ix, k.iy, k.pc)

namespace Part

def Content : Part → Type
  | .flags => Flags
  | .shadow => Bank
  | .index _ | .counter => Word

/-- What a part holds with `n` bytes of the instruction still to come. -/
def content (n : Nat) (s : Execution) : (p : Part) → p.Content
  | .flags => s.registers.f
  | .shadow => s.registers.shadow
  | .index i => s.registers.index i
  | .counter => s.ahead n

end Part

section Touches

def Register.touches : Register → Part → Bool
  | .high i, .index j | .low i, .index j => i == j
  | _, _ => false

def Pair.touches : Pair → Part → Bool
  | .index i, .index j => i == j
  | .af, .flags => true
  | _, _ => false

/-- Whether writing at the place touches the part. -/
def Place.touches (p : Part) : Place → Bool
  | .register r => r.touches p
  | .memory _ => false

def Location.touches (p : Part) : Location → Bool
  | .register r => r.touches p
  | .memory _ => false

def Transfer.touches (p : Part) : Transfer → Bool
  | .load dst _ => dst.touches p
  | .loadPairImmediate q | .loadPair q | .pop q => q.touches p
  | .exchangeStackTop b => b.pair.touches p
  | .loadFromI | .loadFromR => p == .flags
  | .exchangeAf => p == .flags || p == .shadow
  | .exchangeBanks => p == .shadow
  | _ => false

def Arithmetic.touches (p : Part) : Arithmetic → Bool
  | .step _ q => p == .flags || q.touches p
  | .stepPair _ q => q.touches p
  | .addTo dst _ => p == .flags || dst.pair.touches p
  | _ => p == .flags

def BitOperation.touches (p : Part) : BitOperation → Bool
  | .shift _ q copy => p == .flags || q.touches p || copy.any (·.touches p)
  | .reset _ q copy | .set _ q copy => q.touches p || copy.any (·.touches p)
  | _ => p == .flags

def Transmission.touches (p : Part) : Transmission → Bool
  | .read r => p == .flags || r.any (·.touches p)
  | _ => false

def Extension.touches (p : Part) : Extension → Bool
  | .test | .copyColumn => p == .flags
  | .addAccumulator q | .addImmediate q => q.touches p
  | .jumpInput | .copyPattern => p == .counter
  | .copy _ repeating => p == .counter && repeating
  | _ => false

def Operation.touches (p : Part) : Operation → Bool
  | .transfer t => t.touches p
  | .arithmetic a => a.touches p
  | .bit b => b.touches p
  | .jump _ => p == .counter
  | .control _ => false
  | .transmit t => t.touches p
  | .block b => p == .flags || p == .counter && b.repeating
  | .extension e => e.touches p

@[simp] theorem Register.touches_shadow (r : Register) : r.touches .shadow = false := by
  cases r <;> rfl

@[simp] theorem Register.touches_counter (r : Register) : r.touches .counter = false := by
  cases r <;> rfl

@[simp] theorem Pair.touches_shadow (q : Pair) : q.touches .shadow = false := by
  cases q <;> rfl

@[simp] theorem Pair.touches_counter (q : Pair) : q.touches .counter = false := by
  cases q <;> rfl

@[simp] theorem Place.touches_shadow (q : Place) : q.touches .shadow = false := by
  cases q with
  | register r => exact r.touches_shadow
  | memory a => rfl

@[simp] theorem Place.touches_counter (q : Place) : q.touches .counter = false := by
  cases q with
  | register r => exact r.touches_counter
  | memory a => rfl

end Touches

/-- Microcode that takes the bytes of an instruction from where `i` are still to come to where `j` are, and spares a
part meanwhile. -/
def Spares (p : Part) (i j : Nat) {α : Type} (m : Microcode α) : Prop :=
  ∀ s, (m s).Ends fun q => p.content j q.2 = p.content i s

section Spares

variable {α γ : Type} {p : Part} {i j l : Nat}

namespace Spares

theorem on {β : Type} [Bus β] {m : Microcode α} (h : Spares p i j m) (s : Execution) (bus : β) :
    p.content j (on m s bus).value.2 = p.content i s :=
  (h s).run bus

theorem pure (a : α) : Spares p i i (Pure.pure a : Microcode α) := fun _ => rfl

theorem bind {m : Microcode α} {g : α → Microcode γ} (hm : Spares p i j m) (hg : ∀ a, Spares p j l (g a)) :
    Spares p i l (m >>= g) := by
  intro s
  have hbind : (m >>= g) s = (m s).bind fun q => g q.1 q.2 := rfl
  rw [hbind, Activity.ends_bind]
  refine (hm s).mono fun q hq => ?_
  rw [← hq]
  exact hg q.1 q.2

theorem look {g : Registers → Microcode γ} (hg : ∀ k, Spares p i j (g k)) : Spares p i j (registers >>= g) :=
  fun s => hg s.registers s

/-- A change of registers spares what it spares in every execution. -/
theorem update {g : Registers → Registers}
    (h : ∀ s : Execution, p.content i { s with registers := g s.registers } = p.content i s) :
    Spares p i i (Microcode.update g) :=
  fun s => h s

/-- Changing the general registers, SP, I, R, WZ and the interrupt state spares all parts. -/
theorem plainUpdate {g : Registers → Registers} (h : ∀ k, (g k).parts = k.parts) :
    Spares p i i (Microcode.update g) := by
  refine .update fun s => ?_
  have hparts := h s.registers
  simp only [Registers.parts, Prod.mk.injEq] at hparts
  obtain ⟨hf, hshadow, hix, hiy, hpc⟩ := hparts
  rcases p with _ | _ | (_ | _) | _
  · exact hf
  · exact hshadow
  · exact hix
  · exact hiy
  · exact congrArg (fun a => if s.supply.isSome then a else a + BitVec.ofNat 16 i) hpc

theorem setFlags (h : p ≠ .flags) (f : Flags) : Spares p i i (Microcode.setFlags f) := by
  intro s
  cases p with
  | flags => exact absurd rfl h
  | index x => cases x <;> rfl
  | shadow | counter => rfl

theorem latchAddress (a : Word) : Spares p i i (Microcode.latchAddress a) :=
  .plainUpdate fun _ => rfl

theorem goTo (h : p ≠ .counter) (a : Word) : Spares p i i (Microcode.goTo a) := by
  intro s
  cases p with
  | counter => exact absurd rfl h
  | index x => cases x <;> rfl
  | flags | shadow => rfl

theorem receive (c : Receive) : Spares p i i (Microcode.receive c) := fun _ _ => rfl

theorem send (c : Send) : Spares p i i (Microcode.send c) := fun _ => rfl

theorem pause (n : Nat) : Spares p i i (Microcode.pause n) := fun _ => rfl

theorem operand : Spares p (i + 1) i Microcode.operand := by
  rintro ⟨k, latch, delay, _ | bytes⟩
  · intro v
    rcases p with _ | _ | (_ | _) | _
    case counter => exact (next_address k.pc i).symm
    all_goals rfl
  · rcases p with _ | _ | (_ | _) | _ <;> rfl

theorem operandWord : Spares p (i + 2) i Microcode.operandWord :=
  operand.bind fun _ => operand.bind fun _ => .pure _

theorem readWord (a : Word) : Spares p i i (Microcode.readWord a) := fun _ _ _ => rfl

theorem writeWord (a w : Word) : Spares p i i (Microcode.writeWord a w) := fun _ => rfl

theorem pushWord (w : Word) : Spares p i i (Microcode.pushWord w) := by
  refine .look fun k => ?_
  refine .bind (.plainUpdate fun _ => rfl) fun _ => ?_
  exact .bind (.send _) fun _ => .send _

theorem popWord : Spares p i i Microcode.popWord := by
  refine .look fun k => ?_
  exact .bind (.plainUpdate fun _ => rfl) fun _ => .readWord _

theorem setRegister {r : Register} (h : r.touches p = false) (v : Byte) :
    Spares p i i (Microcode.update (·.set r v)) := by
  refine .update fun s => ?_
  rcases r with _ | _ | _ | _ | _ | _ | _ | (_ | _) | (_ | _) <;> rcases p with _ | _ | (_ | _) | _ <;>
    first | rfl | contradiction

/-- A pair is set, with whatever value of WZ beside it. -/
theorem setPair {q : Pair} (h : q.touches p = false) {g : Registers → Registers}
    (hg : ∀ k, ∃ w wz, g k = { k.withPair q w with wz }) : Spares p i i (Microcode.update g) := by
  refine .update fun s => ?_
  obtain ⟨w, wz, heq⟩ := hg s.registers
  rw [heq]
  rcases q with _ | _ | _ | _ | _ | (_ | _) <;> rcases p with _ | _ | (_ | _) | _ <;> first | rfl | contradiction

end Spares

theorem Pointer.spares (q : Pointer) : Spares p (i + q.operands) i q.address := by
  cases q with
  | hl | latched n => exact .look fun k => .pure _
  | displaced n =>
    refine .bind .operand fun d => ?_
    refine .bind (.pause 5) fun _ => ?_
    refine .look fun k => ?_
    exact .bind (.latchAddress _) fun _ => .pure _

theorem Place.spares (q : Place) : Spares p (i + q.operands) i q.locate := by
  cases q with
  | register r => exact .pure _
  | memory q => exact .bind q.spares fun a => .pure _

theorem Location.spares_read (q : Location) : Spares p i i q.read := by
  cases q with
  | register r => exact .look fun k => .pure _
  | memory a => exact .receive _

theorem Source.spares (src : Source) : Spares p (i + src.operands) i src.read := by
  cases src with
  | place q => exact .bind q.spares fun a => a.spares_read
  | immediate => exact .operand

theorem Reach.spares (r : Reach) : Spares p (i + r.operands) i r.address := by
  cases r with
  | bc | de => exact .look fun k => .pure _
  | absolute => exact .operandWord

theorem Base.spares (b : Base) : Spares p (i + b.operands) i b.storeAddress := by
  cases b with
  | hl => exact .look fun k => .pure _
  | index n =>
    refine .bind .operand fun d => ?_
    refine .look fun k => ?_
    exact .bind (.latchAddress _) fun _ => .pure _

/-- Settling a place brings out a location that is touched in the same parts. -/
theorem Place.spares_locate (q : Place) {g : Location → Microcode γ}
    (hg : ∀ a : Location, a.touches p = q.touches p → Spares p i j (g a)) :
    Spares p (i + q.operands) j (q.locate >>= g) := by
  cases q with
  | register r => exact hg (.register r) rfl
  | memory q =>
    rw [Place.locate, bind_assoc]
    exact .bind q.spares fun a => hg (.memory a) rfl

theorem Location.spares_write {a : Location} (h : a.touches p = false) (v : Byte) : Spares p i i (a.write v) := by
  cases a with
  | register r => exact .setRegister h v
  | memory a => exact .send _

/-- Replacing a byte spares what writing it, copying it and finding the new one spare. -/
theorem Place.spares_modify {q : Place} (hq : q.touches p = false) (copy : Option Register)
    (hcopy : copy.any (·.touches p) = false) {f : Byte → Microcode Byte} (hf : ∀ v, Spares p 0 0 (f v)) :
    Spares p q.operands 0 (q.modify copy f) := by
  rw [← Nat.zero_add q.operands]
  refine q.spares_locate fun a ha => ?_
  refine .bind a.spares_read fun v => ?_
  cases q.isMemory
  case' true => refine .bind (.pause 1) fun _ => ?_
  all_goals
    refine .bind (hf v) fun v => ?_
    refine .bind (a.spares_write (ha.trans hq) v) fun _ => ?_
    cases copy with
    | none => exact .pure _
    | some r => exact .setRegister hcopy v

theorem spares_taken (q : Option Condition) : Spares p i i (taken q) := by
  cases q with
  | none => exact .pure _
  | some q => exact .look fun k => .pure _

theorem spares_copyMasked (a : Word) : Spares p i i (copyMasked a) := by
  have hlast : Spares p i i (do
      pause 2
      update fun k => (k.withDe (k.de + 1)).withBc (k.bc - 1)) :=
    .bind (.pause 2) fun _ => .plainUpdate fun _ => rfl
  refine .bind (.receive _) fun v => ?_
  refine .look fun k => ?_
  split
  · exact .bind (.pause 3) fun _ => hlast
  · exact .bind (.send _) fun _ => hlast

section Flags

variable (h : p ≠ .flags)

include h

theorem spares_toAccumulator (r : Result 8) : Spares p i i (toAccumulator r) :=
  .bind (.plainUpdate fun _ => rfl) fun _ => .setFlags h _

theorem spares_toBase {b : Base} (hb : b.pair.touches p = false) (r : Result 16) : Spares p i i (toBase b r) := by
  refine .look fun k => ?_
  refine .bind (.latchAddress _) fun _ => ?_
  exact .bind (.setPair hb fun k => ⟨r.value, (k.withPair b.pair r.value).wz, rfl⟩) fun _ => .setFlags h _

theorem spares_rotateDigits (f : Byte → Byte → Byte × Byte) : Spares p i i (rotateDigits f) := by
  refine .look fun k => ?_
  refine .bind (.receive _) fun m => ?_
  refine .bind (.pause 4) fun _ => ?_
  refine .bind (.send _) fun _ => ?_
  exact .bind (.plainUpdate fun _ => rfl) fun _ => .setFlags h _

theorem spares_loadSpecial (f : Registers → Byte) : Spares p i i (loadSpecial f) := by
  refine .bind (.pause 1) fun _ => ?_
  refine .bind (.plainUpdate fun _ => rfl) fun _ => ?_
  exact .look fun k => .setFlags h _

end Flags

section Counter

variable (h : p ≠ .counter)

include h

theorem spares_goBack : Spares p i i goBack := Spares.popWord.bind fun a => .goTo h a

theorem spares_enter (a : Word) : Spares p i i (enter a) := .look fun _ => .bind (.pushWord _) fun _ => .goTo h a

theorem spares_jumpRelative (d : Byte) : Spares p i i (jumpRelative d) :=
  .bind (.pause 5) fun _ => .look fun _ => .goTo h _

/-- Going back moves the program counter and WZ alone. -/
theorem spares_back (n : Word) (wz : Registers → Word) :
    Spares p i i (update fun k => { k with pc := k.pc - n, wz := wz k }) := by
  intro s
  cases p with
  | counter => exact absurd rfl h
  | index x => cases x <;> rfl
  | flags | shadow => rfl

theorem spares_againWhileCounting : Spares p i i againWhileCounting := by
  refine .look fun k => ?_
  split
  · exact .bind (.pause 5) fun _ => spares_back h 2 (·.wz)
  · exact .pure _

end Counter

theorem spares_finishBlock {again : Bool} (hf : p ≠ .flags) (hpc : again = true → p ≠ .counter)
    (shown last : Flags) : Spares p i i (finishBlock again shown last) := by
  cases again with
  | false => exact .setFlags hf last
  | true =>
    refine .bind (.bind (.pause 5) fun _ => spares_back (hpc rfl) 2 (·.pc - 1)) fun _ => ?_
    exact .look fun k => .setFlags hf _

end Spares

section Families

variable {p : Part}

theorem Part.ne_of_beq {q : Part} (h : (p == q) = false) : p ≠ q := by
  simpa using h

theorem Part.ne_of_beq_or {q : Part} {rest : Bool} (h : (p == q || rest) = false) : p ≠ q ∧ rest = false := by
  simpa using h

theorem Transfer.spares {t : Transfer} (h : t.touches p = false) : Spares p t.operands 0 t.execute := by
  cases t with
  | load dst src =>
    refine .bind src.spares fun v => ?_
    have hdst : Spares p (0 + dst.operands) 0 (dst.locate >>= (·.write v)) :=
      dst.spares_locate fun a ha => a.spares_write (ha.trans h) v
    rwa [Nat.zero_add] at hdst
  | storeImmediate b =>
    have hb : Spares p (b.operands + 1) 1 b.storeAddress := by
      simpa only [Nat.add_comm] using b.spares (i := 1)
    refine .bind hb fun a => ?_
    refine .bind .operand fun v => ?_
    cases b with
    | hl => exact .send _
    | index n => exact .bind (.pause 2) fun _ => .send _
  | loadAccumulator r =>
    have hr : Spares p r.operands 0 r.address := by
      simpa only [Nat.zero_add] using r.spares (i := 0)
    refine .bind hr fun a => ?_
    exact .bind (.receive _) fun v => .plainUpdate fun _ => rfl
  | storeAccumulator r =>
    have hr : Spares p r.operands 0 r.address := by
      simpa only [Nat.zero_add] using r.spares (i := 0)
    refine .bind hr fun a => ?_
    refine .look fun k => ?_
    exact .bind (.send _) fun _ => .plainUpdate fun _ => rfl
  | loadPairImmediate q => exact .bind .operandWord fun w => .setPair h fun k => ⟨w, (k.withPair q w).wz, rfl⟩
  | loadPair q =>
    refine .bind .operandWord fun a => ?_
    exact .bind (.readWord a) fun w => .setPair h fun k => ⟨w, a + 1, rfl⟩
  | storePair q =>
    refine .bind .operandWord fun a => ?_
    refine .look fun k => ?_
    exact .bind (.writeWord _ _) fun _ => .latchAddress _
  | loadStackPointer b => exact .bind (.pause 2) fun _ => .plainUpdate fun _ => rfl
  | loadFromI | loadFromR => exact spares_loadSpecial (Part.ne_of_beq h) _
  | loadToI | loadToR => exact .bind (.pause 1) fun _ => .plainUpdate fun _ => rfl
  | push q =>
    refine .bind (.pause 1) fun _ => ?_
    exact .look fun k => .pushWord _
  | pop q => exact .bind .popWord fun w => .setPair h fun k => ⟨w, (k.withPair q w).wz, rfl⟩
  | exchangeDeHl => exact .plainUpdate fun _ => rfl
  | exchangeAf =>
    rcases p with _ | _ | (_ | _) | _ <;> first | exact fun _ => rfl | contradiction
  | exchangeBanks =>
    rcases p with _ | _ | (_ | _) | _ <;> first | exact fun _ => rfl | contradiction
  | exchangeStackTop b =>
    refine .look fun k => ?_
    refine .bind (.readWord _) fun w => ?_
    refine .bind (.pause 1) fun _ => ?_
    refine .bind (.send _) fun _ => ?_
    refine .bind (.send _) fun _ => ?_
    exact .bind (.pause 2) fun _ => .setPair h fun k => ⟨w, w, rfl⟩

theorem Arithmetic.spares {a : Arithmetic} (h : a.touches p = false) (previous : Flags) :
    Spares p a.operands 0 (a.execute previous) := by
  cases a with
  | accumulate op src =>
    have hsrc : Spares p src.operands 0 src.read := by
      simpa only [Nat.zero_add] using src.spares (i := 0)
    refine .bind hsrc fun v => ?_
    exact .look fun k => spares_toAccumulator (Part.ne_of_beq h) _
  | step d q =>
    obtain ⟨hflags, hq⟩ := Part.ne_of_beq_or h
    refine q.spares_modify hq none rfl fun v => ?_
    exact .look fun k => .bind (.setFlags hflags _) fun _ => .pure _
  | stepPair d q =>
    exact .bind (.pause 2) fun _ => .setPair h fun k => ⟨d.next (k.pair q), (k.withPair q _).wz, rfl⟩
  | addTo dst src =>
    obtain ⟨hflags, hdst⟩ := Part.ne_of_beq_or h
    refine .bind (.pause 7) fun _ => ?_
    exact .look fun k => spares_toBase hflags hdst _
  | addCarry src | subtractCarry src => 
    refine .bind (.pause 7) fun _ => ?_
    exact .look fun k => spares_toBase (Part.ne_of_beq h) rfl _
  | decimalAdjust | complement | negate => exact .look fun k => spares_toAccumulator (Part.ne_of_beq h) _
  | setCarry | complementCarry => exact .look fun k => .setFlags (Part.ne_of_beq h) _

theorem BitOperation.spares {b : BitOperation} (h : b.touches p = false) : Spares p b.operands 0 b.execute := by
  cases b with
  | rotateAccumulator op =>
    refine .look fun k => ?_
    exact .bind (.plainUpdate fun _ => rfl) fun _ => .setFlags (Part.ne_of_beq h) _
  | shift op q copy =>
    obtain ⟨hq, hcopy⟩ := Bool.or_eq_false_iff.1 h
    obtain ⟨hflags, hq⟩ := Part.ne_of_beq_or hq
    refine q.spares_modify hq copy hcopy fun v => ?_
    exact .look fun k => .bind (.setFlags hflags _) fun _ => .pure _
  | test n q =>
    have hexamine : Spares p q.operands 0 q.examine := by
      cases q with
      | register r => exact .look fun k => .pure _
      | memory q =>
        have hq : Spares p q.operands 0 q.address := by
          simpa only [Nat.zero_add] using q.spares (i := 0)
        refine .bind hq fun a => ?_
        refine .bind (.receive _) fun v => ?_
        exact .bind (.pause 1) fun _ => .look fun k => .pure _
    refine .bind hexamine fun v => ?_
    exact .look fun k => .setFlags (Part.ne_of_beq h) _
  | reset n q copy | set n q copy =>
    obtain ⟨hq, hcopy⟩ := Bool.or_eq_false_iff.1 h
    exact q.spares_modify hq copy hcopy fun v => .pure _
  | rotateDigitsRight => exact spares_rotateDigits (Part.ne_of_beq h) digitsRight
  | rotateDigitsLeft => exact spares_rotateDigits (Part.ne_of_beq h) digitsLeft

theorem Jump.spares (h : p ≠ .counter) (j : Jump) : Spares p j.operands 0 j.execute := by
  cases j with
  | absolute q =>
    refine .bind .operandWord fun a => ?_
    refine .bind (.latchAddress a) fun _ => ?_
    refine .bind (spares_taken q) fun t => ?_
    cases t with
    | false => exact .pure _
    | true => exact .goTo h a
  | toBase b =>
    intro s
    cases p with
    | counter => exact absurd rfl h
    | index x => cases x <;> rfl
    | flags | shadow => rfl
  | relative q =>
    refine .bind .operand fun d => ?_
    refine .bind (spares_taken q) fun t => ?_
    cases t with
    | false => exact .pure _
    | true => exact spares_jumpRelative h d
  | countdown =>
    refine .bind (.pause 1) fun _ => ?_
    refine .bind .operand fun d => ?_
    refine .bind (.plainUpdate fun _ => rfl) fun _ => ?_
    refine .look fun k => ?_
    split
    · exact spares_jumpRelative h d
    · exact .pure _
  | call q =>
    refine .bind .operandWord fun a => ?_
    refine .bind (.latchAddress a) fun _ => ?_
    refine .bind (spares_taken q) fun t => ?_
    cases t with
    | false => exact .pure _
    | true => exact .bind (.pause 1) fun _ => spares_enter h a
  | «return» q =>
    cases q with
    | none => exact spares_goBack h
    | some q =>
      refine .bind (.pause 1) fun _ => ?_
      refine .bind (spares_taken (some q)) fun t => ?_
      cases t with
      | false => exact .pure _
      | true => exact spares_goBack h
  | returnInterrupt => exact spares_goBack h
  | returnNmi => exact .bind (spares_goBack h) fun _ => .plainUpdate fun _ => rfl
  | restart n => exact .bind (.pause 1) fun _ => spares_enter h _

theorem Control.spares (o : Control) : Spares p 0 0 o.execute := by
  cases o with
  | nop => exact .pure _
  | enableInterrupts => exact .bind (.plainUpdate fun _ => rfl) fun _ _ => rfl
  | halt | disableInterrupts | interruptMode m => exact .plainUpdate fun _ => rfl

theorem Transmission.spares {t : Transmission} (h : t.touches p = false) : Spares p t.operands 0 t.execute := by
  cases t with
  | readImmediate =>
    refine .bind .operand fun n => ?_
    refine .look fun k => ?_
    exact .bind (.receive _) fun v => .plainUpdate fun _ => rfl
  | writeImmediate =>
    refine .bind .operand fun n => ?_
    refine .look fun k => ?_
    exact .bind (.send _) fun _ => .latchAddress _
  | read r =>
    obtain ⟨hflags, hr⟩ := Part.ne_of_beq_or h
    refine .look fun k => ?_
    refine .bind (.receive _) fun v => ?_
    cases r
    case' some r => refine .bind (.setRegister hr v) fun _ => ?_
    all_goals
      refine .bind (.latchAddress _) fun _ => ?_
      exact .look fun k => .setFlags hflags _
  | write r =>
    refine .look fun k => ?_
    exact .bind (.send _) fun _ => .latchAddress _

theorem Block.spares {b : Block} (hflags : p ≠ .flags) (hcounter : b.repeating = true → p ≠ .counter) :
    Spares p 0 0 b.execute := by
  rcases b with ⟨kind, d, repeating⟩
  have hfinish {again : Bool} (ha : again = true → repeating = true) (shown last : Flags) :
      Spares p 0 0 (finishBlock again shown last) :=
    spares_finishBlock hflags (fun h => hcounter (ha h)) shown last
  have hand {more : Bool} (h : (repeating && more) = true) : repeating = true := (Bool.and_eq_true_iff.1 h).1
  cases kind with
  | load =>
    refine .look fun k => ?_
    refine .bind (.receive _) fun v => ?_
    refine .bind (.send _) fun _ => ?_
    refine .bind (.pause 2) fun _ => ?_
    refine .bind (.plainUpdate fun _ => rfl) fun _ => ?_
    exact .look fun k => hfinish hand _ _
  | compare =>
    refine .look fun k => ?_
    refine .bind (.receive _) fun v => ?_
    refine .bind (.pause 5) fun _ => ?_
    refine .bind (.plainUpdate fun _ => rfl) fun _ => ?_
    exact .look fun k => hfinish (fun h => hand (Bool.and_eq_true_iff.1 h).1) _ _
  | input =>
    refine .bind (.pause 1) fun _ => ?_
    refine .look fun k => ?_
    refine .bind (.receive _) fun v => ?_
    refine .bind (.send _) fun _ => ?_
    refine .bind (.plainUpdate fun _ => rfl) fun _ => ?_
    exact .look fun k => hfinish hand _ _
  | output =>
    refine .bind (.pause 1) fun _ => ?_
    refine .look fun k => ?_
    refine .bind (.receive _) fun v => ?_
    refine .bind (.plainUpdate fun _ => rfl) fun _ => ?_
    refine .look fun k => ?_
    refine .bind (.send _) fun _ => ?_
    refine .bind (.plainUpdate fun _ => rfl) fun _ => ?_
    refine .look fun k => ?_
    exact .look fun k => hfinish hand _ _

theorem Extension.spares {e : Extension} (h : e.touches p = false) (config : Config) :
    Spares p e.operands 0 (e.execute config) := by
  cases e with
  | swapDigits | reverseBits | barrel op | multiply | pixelBelow | pixelAddress | pixelMask =>
    rw [Extension.execute]
    exact .plainUpdate fun _ => rfl
  | test =>
    refine .bind .operand fun v => ?_
    exact .look fun k => .setFlags (Part.ne_of_beq h) _
  | addAccumulator q =>
    rw [Extension.execute]
    exact .setPair h fun k => ⟨k.pair q + k.a.setWidth 16, (k.withPair q _).wz, rfl⟩
  | addImmediate q =>
    refine .bind .operandWord fun w => ?_
    exact .bind (.pause 2) fun _ => .setPair h fun k => ⟨k.pair q + w, (k.withPair q _).wz, rfl⟩
  | pushImmediate =>
    refine .bind .operand fun high => ?_
    refine .bind .operand fun low => ?_
    exact .bind (.pause 3) fun _ => .pushWord _
  | outputNext =>
    refine .bind (.pause 1) fun _ => ?_
    refine .look fun k => ?_
    refine .bind (.receive _) fun v => ?_
    exact .bind (.send _) fun _ => .plainUpdate fun _ => rfl
  | setRegisterImmediate =>
    refine .bind .operand fun n => ?_
    refine .bind (.send _) fun _ => ?_
    exact .bind .operand fun v => .send _
  | setRegister =>
    refine .bind .operand fun n => ?_
    refine .bind (.send _) fun _ => ?_
    exact .look fun k => .send _
  | jumpInput =>
    have hcounter := Part.ne_of_beq h
    intro s v
    cases p with
    | counter => exact absurd rfl hcounter
    | index x => cases x <;> rfl
    | flags | shadow => rfl
  | copy d repeating =>
    refine .look fun k => ?_
    refine .bind (spares_copyMasked _) fun _ => ?_
    refine .bind (.plainUpdate fun _ => rfl) fun _ => ?_
    cases repeating with
    | false => exact .pure _
    | true => exact spares_againWhileCounting (Part.ne_of_beq ((Bool.and_true _).symm.trans h))
  | copyPattern =>
    refine .look fun k => ?_
    exact .bind (spares_copyMasked _) fun _ => spares_againWhileCounting (Part.ne_of_beq h)
  | copyColumn =>
    refine .look fun k => ?_
    refine .bind (.receive _) fun v => ?_
    refine .bind (.send _) fun _ => ?_
    exact .bind (.plainUpdate fun _ => rfl) fun _ => .setFlags (Part.ne_of_beq h) _

/-- An operation spares the parts that it does not touch. -/
theorem Operation.spares {op : Operation} (h : op.touches p = false) (config : Config) (previous : Flags) :
    Spares p op.operands 0 (op.execute config previous) := by
  cases op with
  | transfer t => exact t.spares h
  | arithmetic a => exact a.spares h previous
  | bit b => exact b.spares h
  | jump j => exact j.spares (Part.ne_of_beq h)
  | control o => exact o.spares
  | transmit t => exact t.spares h
  | block b =>
    obtain ⟨hflags, hcounter⟩ := Part.ne_of_beq_or h
    refine b.spares hflags fun hb => ?_
    rw [hb, Bool.and_true] at hcounter
    exact Part.ne_of_beq hcounter
  | extension e => exact e.spares h config

end Families

section Tables

/-- Whether F can change: the operation sets the flags, or it brings another byte into F. -/
def Operation.movesFlags (op : Operation) : Bool :=
  op.setsFlags || op == .transfer (.pop .af) || op == .transfer .exchangeAf

/-- In the tables nothing else touches F, and an index register is touched only on the opening page of its prefix. -/
theorem Page.touches_slot (page : Page) (v : Byte) {i : Instruction} (h : page.slot v = .instruction i) :
    (i.operation.touches .flags → i.operation.movesFlags) ∧
      ∀ x, i.operation.touches (.index x) → page = .opening (.index x) := by
  have hslots : ∀ v : Byte, ∀ i ∈ (page.slot v).instruction?,
      (i.operation.touches .flags → i.operation.movesFlags) ∧
        (i.operation.touches (.index .ix) → page = .opening (.index .ix)) ∧
        (i.operation.touches (.index .iy) → page = .opening (.index .iy)) := by
    rcases page with (_ | _ | _) | _ | _ | (_ | _) <;> decide +kernel
  obtain ⟨hflags, hix, hiy⟩ := hslots v i (by rw [h]; rfl)
  refine ⟨hflags, fun x => ?_⟩
  cases x with
  | ix => exact hix
  | iy => exact hiy

end Tables

section Control

/-- The control after an operation that finds `a` in the accumulator. -/
def Operation.controlled (a : Byte) (k : Registers × Bool) : Operation → Registers × Bool
  | .transfer .loadToI => ({ k.1 with i := a }, k.2)
  | .transfer .loadToR => ({ k.1 with r := a }, k.2)
  | .jump .returnNmi => ({ k.1 with iff1 := k.1.iff2 }, k.2)
  | .control .halt => ({ k.1 with halted := true }, k.2)
  | .control .disableInterrupts => ({ k.1 with iff1 := false, iff2 := false }, k.2)
  | .control .enableInterrupts => ({ k.1 with iff1 := true, iff2 := true }, true)
  | .control (.interruptMode mode) => ({ k.1 with im := BitVec.ofNat 8 mode.val }, k.2)
  | _ => k

theorem Operation.controlled_of_isPlain {op : Operation} (h : op.isPlain) (a : Byte) (k : Registers × Bool) :
    op.controlled a k = k := by
  cases op with
  | transfer t =>
    cases t with
    | loadToI | loadToR => contradiction
    | _ => rfl
  | jump j =>
    cases j with
    | returnNmi => contradiction
    | _ => rfl
  | control o => contradiction
  | _ => rfl

variable {β : Type} [Bus β] (s : Execution) (bus : β)

theorem Operation.control_execute (config : Config) (previous : Flags) (op : Operation) :
    (on (op.execute config previous) s bus).value.2.control = op.controlled s.registers.a s.control := by
  by_cases hp : op.isPlain
  · have horderly := op.orderly config previous
    rw [hp] at horderly
    rw [controlled_of_isPlain hp]
    exact horderly.keeps_control.on s bus
  · cases op with
    | transfer t =>
      cases t with
      | loadFromI | loadFromR | loadToI | loadToR => rfl
      | _ => exact absurd rfl hp
    | jump j =>
      cases j with
      | returnNmi => rfl
      | _ => exact absurd rfl hp
    | control o => cases o <;> rfl
    | extension e =>
      cases e with
      | setRegister | setRegisterImmediate => rcases s with ⟨k, latch, delay, _ | bytes⟩ <;> rfl
      | _ => exact absurd rfl hp
    | _ => exact absurd rfl hp

end Control

end Z80Machine
