import Z80Machine.Microcode.Operation

/-!
How operations use what lies outside their own business. An orderly operation takes the operand bytes that it names
and no others; before the last of them it neither looks at the program counter nor moves it otherwise, and stores
nothing. A plain operation leaves the interrupt state, I and R alone and makes no short port cycle. `Operation.orderly`
says that all operations are orderly and that all but a few are plain.
-/
namespace Z80Machine

open Microcode

/-- The registers with the interrupt state, I, R and the halt of others. -/
def Registers.withControl (k c : Registers) : Registers :=
  { k with i := c.i, r := c.r, iff1 := c.iff1, iff2 := c.iff2, im := c.im, halted := c.halted }

/-- `m` takes the bytes of an instruction from where `i` of them are still to come to where `j` are. -/
inductive Orderly (plain : Bool) : Nat → Nat → {α : Type} → Microcode α → Prop
  | pure {i : Nat} {α : Type} (a : α) : Orderly plain i i (Pure.pure a : Microcode α)
  | bind {i j l : Nat} {α γ : Type} {m : Microcode α} {f : α → Microcode γ} (hm : Orderly plain i j m)
      (hf : ∀ a, Orderly plain j l (f a)) : Orderly plain i l (m >>= f)
  | look {i j : Nat} {γ : Type} {f : Registers → Microcode γ}
      (hcontrol : plain → ∀ k c : Registers, f (k.withControl c) = f k)
      (hpc : i ≠ 0 → ∀ (k : Registers) (a : Word), f { k with pc := a } = f k)
      (hf : ∀ k, Orderly plain i j (f k)) : Orderly plain i j (registers >>= f)
  | update {i : Nat} {g : Registers → Registers}
      (hcontrol : plain → ∀ k c : Registers, g (k.withControl c) = (g k).withControl c)
      (hpc : i ≠ 0 → ∀ (k : Registers) (a : Word), g { k with pc := a } = { g k with pc := a }) :
      Orderly plain i i (Microcode.update g)
  | setFlags {i : Nat} (f : Flags) : Orderly plain i i (Microcode.setFlags f)
  | enable {i : Nat} (h : plain = false) : Orderly plain i i (modify fun s => { s with eiDelay := true })
  | opcode {i : Nat} (h : plain = false) : Orderly plain (i + 1) i Microcode.opcode
  | operand {i : Nat} : Orderly plain (i + 1) i Microcode.operand
  | receiveMemory {i : Nat} (a : Word) : Orderly plain i i (receive (.memory a))
  | receivePort {i : Nat} (a : Word) : Orderly plain i i (receive (.port a))
  | sendMemory (a : Word) (v : Byte) : Orderly plain 0 0 (send (.memory a v))
  | sendPort {i : Nat} (a : Word) (v : Byte) : Orderly plain i i (send (.port a v))
  | sendRegister {i : Nat} (h : plain = false) (a : Word) (v : Byte) : Orderly plain i i (send (.register a v))
  | pause {i : Nat} (n : Nat) : Orderly plain i i (Microcode.pause n)

section Registers

variable (k c : Registers)

theorem Registers.set_withControl (n : Register) (v : Byte) :
    (k.withControl c).set n v = (k.set n v).withControl c := by
  rcases n with _ | _ | _ | _ | _ | _ | _ | (_ | _) | (_ | _) <;> rfl

theorem Registers.withPair_withControl (n : Pair) (w : Word) :
    (k.withControl c).withPair n w = (k.withPair n w).withControl c := by
  rcases n with _ | _ | _ | _ | _ | (_ | _) <;> rfl

end Registers

/-- The operand bytes of an operation: displacements, immediate bytes and words. -/
def Pointer.operands : Pointer → Nat
  | .hl | .latched _ => 0
  | .displaced _ => 1

def Place.operands : Place → Nat
  | .register _ => 0
  | .memory p => p.operands

def Source.operands : Source → Nat
  | .place p => p.operands
  | .immediate => 1

def Reach.operands : Reach → Nat
  | .bc | .de => 0
  | .absolute => 2

def Base.operands : Base → Nat
  | .hl => 0
  | .index _ => 1

def Transfer.operands : Transfer → Nat
  | .load dst src => dst.operands + src.operands
  | .storeImmediate b => b.operands + 1
  | .loadAccumulator r | .storeAccumulator r => r.operands
  | .loadPairImmediate _ | .loadPair _ | .storePair _ => 2
  | _ => 0

def Transfer.isPlain : Transfer → Bool
  | .loadFromI | .loadFromR | .loadToI | .loadToR => false
  | _ => true

def Arithmetic.operands : Arithmetic → Nat
  | .accumulate _ src => src.operands
  | .step _ p => p.operands
  | _ => 0

def BitOperation.operands : BitOperation → Nat
  | .shift _ p _ | .test _ p | .reset _ p _ | .set _ p _ => p.operands
  | _ => 0

def Jump.operands : Jump → Nat
  | .absolute _ | .call _ => 2
  | .relative _ | .countdown => 1
  | _ => 0

def Jump.isPlain : Jump → Bool
  | .returnNmi => false
  | _ => true

def Transmission.operands : Transmission → Nat
  | .readImmediate | .writeImmediate => 1
  | .read _ | .write _ => 0

def Extension.operands : Extension → Nat
  | .test | .setRegister => 1
  | .addImmediate _ | .pushImmediate | .setRegisterImmediate => 2
  | _ => 0

/-- Writing a machine register takes two ports and short cycles. -/
def Extension.isPlain : Extension → Bool
  | .setRegister | .setRegisterImmediate => false
  | _ => true

def Operation.operands : Operation → Nat
  | .transfer t => t.operands
  | .arithmetic a => a.operands
  | .bit b => b.operands
  | .jump j => j.operands
  | .transmit t => t.operands
  | .extension e => e.operands
  | .control _ | .block _ => 0

/-- Whether the operation leaves the interrupt state, I, R and the halt alone and makes no short port cycle. -/
def Operation.isPlain : Operation → Bool
  | .transfer t => t.isPlain
  | .jump j => j.isPlain
  | .extension e => e.isPlain
  | .control _ => false
  | _ => true

section Steps

variable {plain : Bool} {i : Nat}

namespace Orderly

theorem latchAddress (a : Word) : Orderly plain i i (Microcode.latchAddress a) :=
  .update (fun _ _ _ => rfl) fun _ _ _ => rfl

theorem goTo (a : Word) : Orderly plain 0 0 (Microcode.goTo a) :=
  .update (fun _ _ _ => rfl) (absurd rfl)

theorem operandWord : Orderly plain (i + 2) i Microcode.operandWord := by
  refine .bind .operand fun low => ?_
  refine .bind .operand fun high => ?_
  exact .pure _

theorem readWord (a : Word) : Orderly plain i i (Microcode.readWord a) := by
  refine .bind (.receiveMemory a) fun low => ?_
  refine .bind (.receiveMemory (a + 1)) fun high => ?_
  exact .pure _

theorem writeWord (a w : Word) : Orderly plain 0 0 (Microcode.writeWord a w) := by
  refine .bind (.sendMemory _ _) fun _ => ?_
  exact .sendMemory _ _

theorem pushWord (w : Word) : Orderly plain 0 0 (Microcode.pushWord w) := by
  refine .look (fun _ _ _ => rfl) (absurd rfl) fun k => ?_
  refine .bind (.update (fun _ _ _ => rfl) (absurd rfl)) fun _ => ?_
  refine .bind (.sendMemory _ _) fun _ => ?_
  exact .sendMemory _ _

theorem popWord : Orderly plain i i Microcode.popWord := by
  refine .look (fun _ _ _ => rfl) (fun _ _ _ => rfl) fun k => ?_
  refine .bind (.update (fun _ _ _ => rfl) fun _ _ _ => rfl) fun _ => ?_
  exact readWord _

theorem setRegister (n : Register) (v : Byte) : Orderly plain 0 0 (Microcode.update (·.set n v)) :=
  .update (fun _ k c => k.set_withControl c n v) (absurd rfl)

theorem setPair (n : Pair) (w : Word) : Orderly plain 0 0 (Microcode.update (·.withPair n w)) :=
  .update (fun _ k c => k.withPair_withControl c n w) (absurd rfl)

end Orderly

theorem Pointer.orderly (p : Pointer) : Orderly plain (i + p.operands) i p.address := by
  cases p with
  | hl => exact .look (fun _ _ _ => rfl) (fun _ _ _ => rfl) fun k => .pure _
  | displaced n =>
    refine .bind .operand fun d => ?_
    refine .bind (.pause 5) fun _ => ?_
    refine .look (fun _ _ _ => rfl) (fun _ _ _ => rfl) fun k => ?_
    refine .bind (.latchAddress _) fun _ => ?_
    exact .pure _
  | latched n => exact .look (fun _ _ _ => rfl) (fun _ _ _ => rfl) fun k => .pure _

theorem Place.orderly (p : Place) : Orderly plain (i + p.operands) i p.locate := by
  cases p with
  | register r => exact .pure _
  | memory p => exact .bind p.orderly fun a => .pure _

theorem Location.orderly_read (l : Location) : Orderly plain i i l.read := by
  cases l with
  | register r => exact .look (fun _ _ _ => rfl) (fun _ _ _ => rfl) fun k => .pure _
  | memory a => exact .receiveMemory a

theorem Location.orderly_write (l : Location) (v : Byte) : Orderly plain 0 0 (l.write v) := by
  cases l with
  | register r => exact .setRegister r v
  | memory a => exact .sendMemory a v

theorem Source.orderly (src : Source) : Orderly plain (i + src.operands) i src.read := by
  cases src with
  | place p => exact .bind p.orderly fun l => l.orderly_read
  | immediate => exact .operand

theorem Reach.orderly (r : Reach) : Orderly plain r.operands 0 r.address := by
  cases r with
  | bc => exact .look (fun _ _ _ => rfl) (fun _ _ _ => rfl) fun k => .pure _
  | de => exact .look (fun _ _ _ => rfl) (fun _ _ _ => rfl) fun k => .pure _
  | absolute => exact .operandWord

theorem Base.orderly (b : Base) : Orderly plain (i + b.operands) i b.storeAddress := by
  cases b with
  | hl => exact .look (fun _ _ _ => rfl) (fun _ _ _ => rfl) fun k => .pure _
  | index n =>
    refine .bind .operand fun d => ?_
    refine .look (fun _ _ _ => rfl) (fun _ _ _ => rfl) fun k => ?_
    refine .bind (.latchAddress _) fun _ => ?_
    exact .pure _

/-- Replacing a byte is as orderly as what is done with the byte. -/
theorem Place.orderly_modify (p : Place) (copy : Option Register) {f : Byte → Microcode Byte}
    (hf : ∀ v, Orderly plain 0 0 (f v)) : Orderly plain p.operands 0 (p.modify copy f) := by
  have hlocate : Orderly plain p.operands 0 p.locate := by
    simpa only [Nat.zero_add] using p.orderly (i := 0)
  refine .bind hlocate fun l => ?_
  refine .bind l.orderly_read fun v => ?_
  cases p.isMemory
  case' true => refine .bind (.pause 1) fun _ => ?_
  all_goals
    refine .bind (hf v) fun v => ?_
    refine .bind (l.orderly_write v) fun _ => ?_
    cases copy with
    | none => exact .pure _
    | some r => exact .setRegister r v

end Steps

section Families

variable {plain : Bool}

theorem orderly_toAccumulator (r : Result 8) : Orderly plain 0 0 (toAccumulator r) := by
  refine .bind (.update (fun _ _ _ => rfl) (absurd rfl)) fun _ => ?_
  exact .setFlags _

theorem orderly_toBase (b : Base) (r : Result 16) : Orderly plain 0 0 (toBase b r) := by
  refine .look (fun _ k c => ?_) (absurd rfl) fun k => ?_
  · rcases b with _ | (_ | _) <;> rfl
  refine .bind (.latchAddress _) fun _ => ?_
  refine .bind (.setPair _ _) fun _ => ?_
  exact .setFlags _

theorem Transfer.orderly (t : Transfer) : Orderly t.isPlain t.operands 0 t.execute := by
  cases t with
  | load dst src =>
    have hdst : Orderly (Transfer.load dst src).isPlain dst.operands 0 dst.locate := by
      simpa only [Nat.zero_add] using dst.orderly (i := 0)
    refine .bind (j := dst.operands) src.orderly fun v => ?_
    refine .bind hdst fun l => ?_
    exact l.orderly_write v
  | storeImmediate b =>
    have haddress : Orderly (Transfer.storeImmediate b).isPlain (b.operands + 1) 1 b.storeAddress := by
      simpa only [Nat.add_comm] using b.orderly (i := 1)
    refine .bind haddress fun a => ?_
    refine .bind .operand fun v => ?_
    cases b with
    | hl => exact .sendMemory a v
    | index n => exact .bind (.pause 2) fun _ => .sendMemory a v
  | loadAccumulator r =>
    refine .bind r.orderly fun a => ?_
    refine .bind (.receiveMemory a) fun v => ?_
    exact .update (fun _ _ _ => rfl) (absurd rfl)
  | storeAccumulator r =>
    refine .bind r.orderly fun a => ?_
    refine .look (fun _ _ _ => rfl) (absurd rfl) fun k => ?_
    refine .bind (.sendMemory _ _) fun _ => ?_
    exact .update (fun _ _ _ => rfl) (absurd rfl)
  | loadPairImmediate p =>
    refine .bind .operandWord fun w => ?_
    exact .setPair p w
  | loadPair p =>
    refine .bind .operandWord fun a => ?_
    refine .bind (.readWord a) fun w => ?_
    refine .update (fun _ k c => ?_) (absurd rfl)
    rw [Registers.withPair_withControl]
    rfl
  | storePair p =>
    refine .bind .operandWord fun a => ?_
    refine .look (fun _ _ _ => rfl) (absurd rfl) fun k => ?_
    refine .bind (.writeWord _ _) fun _ => ?_
    exact .latchAddress _
  | loadStackPointer b =>
    refine .bind (.pause 2) fun _ => ?_
    exact .update (fun _ _ _ => rfl) (absurd rfl)
  | loadFromI | loadFromR =>
    refine .bind (.pause 1) fun _ => ?_
    refine .bind (.update (absurd · nofun) (absurd rfl)) fun _ => ?_
    refine .look (absurd · nofun) (absurd rfl) fun k => ?_
    exact .setFlags _
  | loadToI | loadToR =>
    refine .bind (.pause 1) fun _ => ?_
    exact .update (absurd · nofun) (absurd rfl)
  | push p =>
    refine .bind (.pause 1) fun _ => ?_
    refine .look (fun _ _ _ => rfl) (absurd rfl) fun k => ?_
    exact .pushWord _
  | pop p =>
    refine .bind .popWord fun w => ?_
    exact .setPair p w
  | exchangeDeHl | exchangeAf | exchangeBanks =>
    rw [Transfer.execute]
    exact .update (fun _ _ _ => rfl) (absurd rfl)
  | exchangeStackTop b =>
    refine .look (fun _ k c => ?_) (absurd rfl) fun k => ?_
    · rcases b with _ | (_ | _) <;> rfl
    refine .bind (.readWord _) fun w => ?_
    refine .bind (.pause 1) fun _ => ?_
    refine .bind (.sendMemory _ _) fun _ => ?_
    refine .bind (.sendMemory _ _) fun _ => ?_
    refine .bind (.pause 2) fun _ => ?_
    refine .update (fun _ k c => ?_) (absurd rfl)
    rw [Registers.withPair_withControl]
    rfl

theorem Arithmetic.orderly (previous : Flags) (a : Arithmetic) :
    Orderly plain a.operands 0 (a.execute previous) := by
  cases a with
  | accumulate op src =>
    have hsrc : Orderly plain src.operands 0 src.read := by
      simpa only [Nat.zero_add] using src.orderly (i := 0)
    refine .bind hsrc fun v => ?_
    refine .look (fun _ _ _ => rfl) (absurd rfl) fun k => ?_
    exact orderly_toAccumulator _
  | step d p =>
    refine p.orderly_modify none fun v => ?_
    refine .look (fun _ _ _ => rfl) (absurd rfl) fun k => ?_
    refine .bind (.setFlags _) fun _ => ?_
    exact .pure _
  | stepPair d p =>
    refine .bind (.pause 2) fun _ => ?_
    exact .update (fun _ k c => k.withPair_withControl c p _) (absurd rfl)
  | addTo dst src =>
    refine .bind (.pause 7) fun _ => ?_
    refine .look (fun _ _ _ => rfl) (absurd rfl) fun k => ?_
    exact orderly_toBase _ _
  | addCarry src | subtractCarry src =>
    refine .bind (.pause 7) fun _ => ?_
    refine .look (fun _ _ _ => rfl) (absurd rfl) fun k => ?_
    exact orderly_toBase _ _
  | decimalAdjust | complement | negate =>
    refine .look (fun _ _ _ => rfl) (absurd rfl) fun k => ?_
    exact orderly_toAccumulator _
  | setCarry | complementCarry =>
    refine .look (fun _ _ _ => rfl) (absurd rfl) fun k => ?_
    exact .setFlags _

theorem orderly_rotateDigits (f : Byte → Byte → Byte × Byte) : Orderly plain 0 0 (rotateDigits f) := by
  refine .look (fun _ _ _ => rfl) (absurd rfl) fun k => ?_
  refine .bind (.receiveMemory _) fun m => ?_
  refine .bind (.pause 4) fun _ => ?_
  refine .bind (.sendMemory _ _) fun _ => ?_
  refine .bind (.update (fun _ _ _ => rfl) (absurd rfl)) fun _ => ?_
  exact .setFlags _

theorem BitOperation.orderly (b : BitOperation) : Orderly plain b.operands 0 b.execute := by
  cases b with
  | rotateAccumulator op =>
    refine .look (fun _ _ _ => rfl) (absurd rfl) fun k => ?_
    refine .bind (.update (fun _ _ _ => rfl) (absurd rfl)) fun _ => ?_
    exact .setFlags _
  | shift op p copy =>
    refine p.orderly_modify copy fun v => ?_
    refine .look (fun _ _ _ => rfl) (absurd rfl) fun k => ?_
    refine .bind (.setFlags _) fun _ => ?_
    exact .pure _
  | test n p =>
    have hexamine : Orderly plain p.operands 0 p.examine := by
      cases p with
      | register r => exact .look (fun _ _ _ => rfl) (absurd rfl) fun k => .pure _
      | memory p =>
        have hp : Orderly plain p.operands 0 p.address := by
          simpa only [Nat.zero_add] using p.orderly (i := 0)
        refine .bind hp fun a => ?_
        refine .bind (.receiveMemory a) fun v => ?_
        refine .bind (.pause 1) fun _ => ?_
        exact .look (fun _ _ _ => rfl) (absurd rfl) fun k => .pure _
    refine .bind hexamine fun v => ?_
    refine .look (fun _ _ _ => rfl) (absurd rfl) fun k => ?_
    exact .setFlags _
  | reset n p copy => exact p.orderly_modify copy fun v => .pure _
  | set n p copy => exact p.orderly_modify copy fun v => .pure _
  | rotateDigitsRight => exact orderly_rotateDigits digitsRight
  | rotateDigitsLeft => exact orderly_rotateDigits digitsLeft

theorem orderly_goBack : Orderly plain 0 0 goBack := by
  refine .bind .popWord fun a => ?_
  exact .goTo a

theorem orderly_enter (a : Word) : Orderly plain 0 0 (enter a) := by
  refine .look (fun _ _ _ => rfl) (absurd rfl) fun k => ?_
  refine .bind (.pushWord _) fun _ => ?_
  exact .goTo a

theorem orderly_jumpRelative (d : Byte) : Orderly plain 0 0 (jumpRelative d) := by
  refine .bind (.pause 5) fun _ => ?_
  refine .look (fun _ _ _ => rfl) (absurd rfl) fun k => ?_
  exact .goTo _

theorem orderly_taken (q : Option Condition) : Orderly plain 0 0 (taken q) := by
  cases q with
  | none => exact .pure _
  | some q => exact .look (fun _ _ _ => rfl) (absurd rfl) fun k => .pure _

theorem Jump.orderly (j : Jump) : Orderly j.isPlain j.operands 0 j.execute := by
  cases j with
  | absolute q =>
    refine .bind .operandWord fun a => ?_
    refine .bind (.latchAddress a) fun _ => ?_
    refine .bind (orderly_taken q) fun t => ?_
    cases t with
    | false => exact .pure _
    | true => exact .goTo a
  | toBase b =>
    rw [Jump.execute]
    exact .update (fun _ _ _ => rfl) (absurd rfl)
  | relative q =>
    refine .bind .operand fun d => ?_
    refine .bind (orderly_taken q) fun t => ?_
    cases t with
    | false => exact .pure _
    | true => exact orderly_jumpRelative d
  | countdown =>
    refine .bind (.pause 1) fun _ => ?_
    refine .bind .operand fun d => ?_
    refine .bind (.update (fun _ _ _ => rfl) (absurd rfl)) fun _ => ?_
    refine .look (fun _ _ _ => rfl) (absurd rfl) fun k => ?_
    split
    · exact orderly_jumpRelative d
    · exact .pure _
  | call q =>
    refine .bind .operandWord fun a => ?_
    refine .bind (.latchAddress a) fun _ => ?_
    refine .bind (orderly_taken q) fun t => ?_
    cases t with
    | false => exact .pure _
    | true => exact .bind (.pause 1) fun _ => orderly_enter a
  | «return» q =>
    cases q with
    | none => exact orderly_goBack
    | some q =>
      refine .bind (.pause 1) fun _ => ?_
      refine .bind (orderly_taken (some q)) fun t => ?_
      cases t with
      | false => exact .pure _
      | true => exact orderly_goBack
  | returnInterrupt => exact orderly_goBack
  | returnNmi =>
    refine .bind orderly_goBack fun _ => ?_
    exact .update (absurd · nofun) (absurd rfl)
  | restart n =>
    refine .bind (.pause 1) fun _ => ?_
    exact orderly_enter _

theorem Control.orderly (o : Control) : Orderly false 0 0 o.execute := by
  cases o with
  | nop => exact .pure _
  | enableInterrupts =>
    refine .bind (.update (absurd · nofun) (absurd rfl)) fun _ => ?_
    exact .enable rfl
  | halt | disableInterrupts | interruptMode m =>
    rw [Control.execute]
    exact .update (absurd · nofun) (absurd rfl)

theorem Transmission.orderly (t : Transmission) : Orderly plain t.operands 0 t.execute := by
  cases t with
  | readImmediate =>
    refine .bind .operand fun n => ?_
    refine .look (fun _ _ _ => rfl) (absurd rfl) fun k => ?_
    refine .bind (.receivePort _) fun v => ?_
    exact .update (fun _ _ _ => rfl) (absurd rfl)
  | writeImmediate =>
    refine .bind .operand fun n => ?_
    refine .look (fun _ _ _ => rfl) (absurd rfl) fun k => ?_
    refine .bind (.sendPort _ _) fun _ => ?_
    exact .latchAddress _
  | read r =>
    have hlast (v : Byte) (p : Word) : Orderly plain 0 0 (do
        latchAddress (p + 1)
        setFlags { Flags.ofLogic v with carry := (← registers).f.carry }) := by
      refine .bind (.latchAddress _) fun _ => ?_
      refine .look (fun _ _ _ => rfl) (absurd rfl) fun k => ?_
      exact .setFlags _
    refine .look (fun _ _ _ => rfl) (absurd rfl) fun k => ?_
    refine .bind (.receivePort _) fun v => ?_
    cases r with
    | none => exact hlast v _
    | some r => exact .bind (.setRegister r v) fun _ => hlast v _
  | write r =>
    refine .look (fun _ k c => ?_) (absurd rfl) fun k => ?_
    · cases r <;> rfl
    refine .bind (.sendPort _ _) fun _ => ?_
    exact .latchAddress _

theorem orderly_finishBlock (again : Bool) (shown last : Flags) :
    Orderly plain 0 0 (finishBlock again shown last) := by
  cases again with
  | false => exact .setFlags last
  | true =>
    have hrewind : Orderly plain 0 0 rewind := by
      refine .bind (.pause 5) fun _ => ?_
      exact .update (fun _ _ _ => rfl) (absurd rfl)
    refine .bind hrewind fun _ => ?_
    refine .look (fun _ _ _ => rfl) (absurd rfl) fun k => ?_
    exact .setFlags _

theorem Block.orderly_finishPort (b : Block) (v other : Byte) : Orderly plain 0 0 (b.finishPort v other) := by
  refine .look (fun _ _ _ => rfl) (absurd rfl) fun k => ?_
  exact orderly_finishBlock _ _ _

theorem Block.orderly (b : Block) : Orderly plain 0 0 b.execute := by
  rcases b with ⟨kind, d, repeating⟩
  cases kind with
  | load =>
    refine .look (fun _ _ _ => rfl) (absurd rfl) fun k => ?_
    refine .bind (.receiveMemory _) fun v => ?_
    refine .bind (.sendMemory _ _) fun _ => ?_
    refine .bind (.pause 2) fun _ => ?_
    refine .bind (.update (fun _ _ _ => rfl) (absurd rfl)) fun _ => ?_
    refine .look (fun _ _ _ => rfl) (absurd rfl) fun k => ?_
    exact orderly_finishBlock _ _ _
  | compare =>
    refine .look (fun _ _ _ => rfl) (absurd rfl) fun k => ?_
    refine .bind (.receiveMemory _) fun v => ?_
    refine .bind (.pause 5) fun _ => ?_
    refine .bind (.update (fun _ _ _ => rfl) (absurd rfl)) fun _ => ?_
    refine .look (fun _ _ _ => rfl) (absurd rfl) fun k => ?_
    exact orderly_finishBlock _ _ _
  | input =>
    refine .bind (.pause 1) fun _ => ?_
    refine .look (fun _ _ _ => rfl) (absurd rfl) fun k => ?_
    refine .bind (.receivePort _) fun v => ?_
    refine .bind (.sendMemory _ _) fun _ => ?_
    refine .bind (.update (fun _ _ _ => rfl) (absurd rfl)) fun _ => ?_
    exact orderly_finishPort _ _ _
  | output =>
    refine .bind (.pause 1) fun _ => ?_
    refine .look (fun _ _ _ => rfl) (absurd rfl) fun k => ?_
    refine .bind (.receiveMemory _) fun v => ?_
    refine .bind (.update (fun _ _ _ => rfl) (absurd rfl)) fun _ => ?_
    refine .look (fun _ _ _ => rfl) (absurd rfl) fun k => ?_
    refine .bind (.sendPort _ _) fun _ => ?_
    refine .bind (.update (fun _ _ _ => rfl) (absurd rfl)) fun _ => ?_
    refine .look (fun _ _ _ => rfl) (absurd rfl) fun k => ?_
    exact orderly_finishPort _ _ _

theorem orderly_copyMasked (a : Word) : Orderly plain 0 0 (copyMasked a) := by
  have hlast : Orderly plain 0 0 (do
      pause 2
      update fun k => (k.withDe (k.de + 1)).withBc (k.bc - 1)) := by
    refine .bind (.pause 2) fun _ => ?_
    exact .update (fun _ _ _ => rfl) (absurd rfl)
  refine .bind (.receiveMemory a) fun v => ?_
  refine .look (fun _ _ _ => rfl) (absurd rfl) fun k => ?_
  split
  · exact .bind (.pause 3) fun _ => hlast
  · exact .bind (.sendMemory _ _) fun _ => hlast

theorem orderly_againWhileCounting : Orderly plain 0 0 againWhileCounting := by
  refine .look (fun _ _ _ => rfl) (absurd rfl) fun k => ?_
  split
  · refine .bind (.pause 5) fun _ => ?_
    exact .update (fun _ _ _ => rfl) (absurd rfl)
  · exact .pure _

theorem Extension.orderly (config : Config) (e : Extension) :
    Orderly e.isPlain e.operands 0 (e.execute config) := by
  cases e with
  | swapDigits | reverseBits | barrel op | multiply | pixelBelow | pixelAddress | pixelMask =>
    rw [Extension.execute]
    exact .update (fun _ _ _ => rfl) (absurd rfl)
  | test =>
    refine .bind .operand fun v => ?_
    refine .look (fun _ _ _ => rfl) (absurd rfl) fun k => ?_
    exact .setFlags _
  | addAccumulator p =>
    rw [Extension.execute]
    exact .update (fun _ k c => k.withPair_withControl c p _) (absurd rfl)
  | addImmediate p =>
    refine .bind .operandWord fun w => ?_
    refine .bind (.pause 2) fun _ => ?_
    exact .update (fun _ k c => k.withPair_withControl c p _) (absurd rfl)
  | pushImmediate =>
    refine .bind .operand fun high => ?_
    refine .bind .operand fun low => ?_
    refine .bind (.pause 3) fun _ => ?_
    exact .pushWord _
  | outputNext =>
    refine .bind (.pause 1) fun _ => ?_
    refine .look (fun _ _ _ => rfl) (absurd rfl) fun k => ?_
    refine .bind (.receiveMemory _) fun v => ?_
    refine .bind (.sendPort _ _) fun _ => ?_
    exact .update (fun _ _ _ => rfl) (absurd rfl)
  | setRegisterImmediate =>
    refine .bind .operand fun n => ?_
    refine .bind (.sendRegister rfl _ _) fun _ => ?_
    refine .bind .operand fun v => ?_
    exact .sendRegister rfl _ _
  | setRegister =>
    refine .bind .operand fun n => ?_
    refine .bind (.sendRegister rfl _ _) fun _ => ?_
    refine .look (fun _ _ _ => rfl) (absurd rfl) fun k => ?_
    exact .sendRegister rfl _ _
  | jumpInput =>
    refine .look (fun _ _ _ => rfl) (absurd rfl) fun k => ?_
    refine .bind (.receivePort _) fun v => ?_
    refine .bind (.pause 1) fun _ => ?_
    exact .update (fun _ _ _ => rfl) (absurd rfl)
  | copy d repeating =>
    refine .look (fun _ _ _ => rfl) (absurd rfl) fun k => ?_
    refine .bind (orderly_copyMasked _) fun _ => ?_
    refine .bind (.update (fun _ _ _ => rfl) (absurd rfl)) fun _ => ?_
    cases repeating with
    | false => exact .pure _
    | true => exact orderly_againWhileCounting
  | copyPattern =>
    refine .look (fun _ _ _ => rfl) (absurd rfl) fun k => ?_
    refine .bind (orderly_copyMasked _) fun _ => ?_
    exact orderly_againWhileCounting
  | copyColumn =>
    refine .look (fun _ _ _ => rfl) (absurd rfl) fun k => ?_
    refine .bind (.receiveMemory _) fun v => ?_
    refine .bind (.sendMemory _ _) fun _ => ?_
    refine .bind (.update (fun _ _ _ => rfl) (absurd rfl)) fun _ => ?_
    exact .setFlags _

/-- Every operation is orderly, and all but a few are plain. -/
theorem Operation.orderly (config : Config) (previous : Flags) (op : Operation) :
    Orderly op.isPlain op.operands 0 (op.execute config previous) := by
  cases op with
  | transfer t => exact t.orderly
  | arithmetic a => exact a.orderly previous
  | bit b => exact b.orderly
  | jump j => exact j.orderly
  | control o => exact o.orderly
  | transmit t => exact t.orderly
  | block b => exact b.orderly
  | extension e => exact e.orderly config

end Families

end Z80Machine
