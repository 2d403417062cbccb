import Z80Machine.Microcode.Operation
import Z80Machine.Proofs.Frame

/-!
Which flags a step latches. An operation that sets the flags latches them as it leaves them in F, for nothing it does
afterwards touches F; any other operation leaves the latched flags alone, even where it brings another byte into F.
-/
namespace Z80Machine

open Microcode

def Transfer.setsFlags : Transfer → Bool
  | .loadFromI | .loadFromR => true
  | _ => false

def Arithmetic.setsFlags : Arithmetic → Bool
  | .stepPair _ _ => false
  | _ => true

def BitOperation.setsFlags : BitOperation → Bool
  | .reset _ _ _ | .set _ _ _ => false
  | _ => true

def Transmission.setsFlags : Transmission → Bool
  | .read _ => true
  | _ => false

def Extension.setsFlags : Extension → Bool
  | .test | .copyColumn => true
  | _ => false

/-- Whether the operation sets flags of its own. Popping and exchanging AF do not. -/
def Operation.setsFlags : Operation → Bool
  | .transfer t => t.setsFlags
  | .arithmetic a => a.setsFlags
  | .bit b => b.setsFlags
  | .transmit t => t.setsFlags
  | .extension e => e.setsFlags
  | .block _ => true
  | .jump _ | .control _ => false

/-- The microcode leaves the latched flags alone. -/
def Quiet {α : Type} (m : Microcode α) : Prop := Keeps Execution.latch m

/-- All ways end with F latched. -/
def Latches {α : Type} (m : Microcode α) : Prop := ∀ s, (m s).Ends fun p => p.2.latch = p.2.registers.f

/-- The microcode latches the flags, or it leaves the latched ones alone. -/
def Latching {α : Type} (sets : Bool) (m : Microcode α) : Prop := if sets then Latches m else Quiet m

section Quiet

variable {α γ : Type}

namespace Quiet

theorem pure (a : α) : Quiet (Pure.pure a : Microcode α) := keeps_pure a

theorem bind {m : Microcode α} {g : α → Microcode γ} (hm : Quiet m) (hg : ∀ a, Quiet (g a)) : Quiet (m >>= g) :=
  Keeps.bind hm hg

theorem look {g : Registers → Microcode γ} (hg : ∀ k, Quiet (g k)) : Quiet (registers >>= g) :=
  keeps_registers.bind hg

theorem update (g : Registers → Registers) : Quiet (Microcode.update g) := fun _ => rfl

theorem latchAddress (a : Word) : Quiet (Microcode.latchAddress a) := fun _ => rfl

theorem goTo (a : Word) : Quiet (Microcode.goTo a) := fun _ => rfl

theorem receive (c : Receive) : Quiet (Microcode.receive c) := fun _ _ => rfl

theorem send (c : Send) : Quiet (Microcode.send c) := fun _ => rfl

theorem pause (n : Nat) : Quiet (Microcode.pause n) := fun _ => rfl

theorem operand : Quiet Microcode.operand := keeps_operand fun _ _ _ _ _ => rfl

theorem operandWord : Quiet Microcode.operandWord :=
  operand.bind fun _ => operand.bind fun _ => .pure _

theorem readWord (a : Word) : Quiet (Microcode.readWord a) := fun _ _ _ => rfl

theorem pushWord (w : Word) : Quiet (Microcode.pushWord w) := fun _ => rfl

theorem popWord : Quiet Microcode.popWord := fun _ _ _ => rfl

end Quiet

theorem Pointer.quiet (p : Pointer) : Quiet p.address := by
  cases p with
  | hl | latched n => exact .look fun k => .pure _
  | displaced n =>
    refine .bind .operand fun d => ?_
    refine .bind (.pause 5) fun _ => ?_
    refine .look fun k => ?_
    exact .bind (.latchAddress _) fun _ => .pure _

theorem Place.quiet (p : Place) : Quiet p.locate := by
  cases p with
  | register r => exact .pure _
  | memory p => exact .bind p.quiet fun a => .pure _

theorem Location.quiet_read (l : Location) : Quiet l.read := by
  cases l with
  | register r => exact .look fun k => .pure _
  | memory a => exact .receive _

theorem Location.quiet_write (l : Location) (v : Byte) : Quiet (l.write v) := by
  cases l with
  | register r => exact .update (·.set r v)
  | memory a => exact .send _

theorem Source.quiet (src : Source) : Quiet src.read := by
  cases src with
  | place p => exact .bind p.quiet fun l => l.quiet_read
  | immediate => exact .operand

theorem Reach.quiet (r : Reach) : Quiet r.address := by
  cases r with
  | bc | de => exact .look fun k => .pure _
  | absolute => exact .operandWord

theorem Base.quiet (b : Base) : Quiet b.storeAddress := by
  cases b with
  | hl => exact .look fun k => .pure _
  | index n =>
    refine .bind .operand fun d => ?_
    refine .look fun k => ?_
    exact .bind (.latchAddress _) fun _ => .pure _

theorem Place.quiet_modify (p : Place) (copy : Option Register) {f : Byte → Microcode Byte} (hf : ∀ v, Quiet (f v)) :
    Quiet (p.modify copy f) := by
  refine .bind p.quiet fun l => ?_
  refine .bind l.quiet_read fun v => ?_
  cases p.isMemory
  case' true => refine .bind (.pause 1) fun _ => ?_
  all_goals
    refine .bind (hf v) fun v => ?_
    refine .bind (l.quiet_write v) fun _ => ?_
    cases copy with
    | none => exact .pure _
    | some r => exact .update _

theorem quiet_taken (q : Option Condition) : Quiet (taken q) := by
  cases q with
  | none => exact .pure _
  | some q => exact .look fun k => .pure _

theorem quiet_goBack : Quiet goBack := Quiet.popWord.bind fun a => .goTo a

theorem quiet_enter (a : Word) : Quiet (enter a) := .look fun _ => .bind (.pushWord _) fun _ => .goTo a

theorem quiet_jumpRelative (d : Byte) : Quiet (jumpRelative d) :=
  .bind (.pause 5) fun _ => .look fun _ => .goTo _

theorem quiet_copyMasked (a : Word) : Quiet (copyMasked a) := by
  have hlast : Quiet (do
      pause 2
      update fun k => (k.withDe (k.de + 1)).withBc (k.bc - 1)) := .bind (.pause 2) fun _ => .update _
  refine .bind (.receive _) fun v => ?_
  refine .look fun k => ?_
  split
  · exact .bind (.pause 3) fun _ => hlast
  · exact .bind (.send _) fun _ => hlast

theorem quiet_againWhileCounting : Quiet againWhileCounting := by
  refine .look fun k => ?_
  split
  · exact .bind (.pause 5) fun _ => .update _
  · exact .pure _

end Quiet

section Latches

variable {α γ : Type}

theorem latches_setFlags (f : Flags) : Latches (setFlags f) := fun _ => rfl

theorem Activity.ends_of_forall {P : α → Prop} (h : ∀ a, P a) (m : Activity α) : m.Ends P := by
  induction m with
  | done a => exact h a
  | receive c next ih => exact fun v => ih v
  | send c next ih => exact ih
  | pause c next ih => exact ih

/-- Whatever comes first, what comes last latches. -/
theorem Latches.after {m : Microcode α} {g : α → Microcode γ} (h : ∀ a, Latches (g a)) : Latches (m >>= g) := by
  intro s
  have hbind : (m >>= g) s = (m s).bind fun p => g p.1 p.2 := rfl
  rw [hbind, Activity.ends_bind]
  exact Activity.ends_of_forall (fun p => h p.1 p.2) (m s)

/-- What follows may do anything but touch the flags. -/
theorem Latches.bind {m : Microcode α} {g : α → Microcode γ} (h : Latches m)
    (hg : ∀ a, Keeps (fun s => (s.latch, s.registers.f)) (g a)) : Latches (m >>= g) := by
  intro s
  have hbind : (m >>= g) s = (m s).bind fun p => g p.1 p.2 := rfl
  rw [hbind, Activity.ends_bind]
  refine (h s).mono fun p hp => ?_
  refine (hg p.1 p.2).mono fun q hq => ?_
  have hlatch : q.2.latch = p.2.latch := congrArg Prod.fst hq
  have hf : q.2.registers.f = p.2.registers.f := congrArg Prod.snd hq
  rw [hlatch, hf, hp]

theorem Registers.f_set (k : Registers) (r : Register) (v : Byte) : (k.set r v).f = k.f := by
  rcases r with _ | _ | _ | _ | _ | _ | _ | (_ | _) | (_ | _) <;> rfl

theorem keeps_setRegister (r : Register) (v : Byte) :
    Keeps (fun s => (s.latch, s.registers.f)) (update (·.set r v)) :=
  fun s => congrArg (s.latch, ·) (s.registers.f_set r v)

theorem Location.keeps_write (l : Location) (v : Byte) : Keeps (fun s => (s.latch, s.registers.f)) (l.write v) := by
  cases l with
  | register r => exact keeps_setRegister r v
  | memory a => exact fun s => rfl

/-- Writing a byte back does not touch the flags that have come with it. -/
theorem Place.latches_modify (p : Place) (copy : Option Register) {f : Byte → Microcode Byte}
    (hf : ∀ v, Latches (f v)) : Latches (p.modify copy f) := by
  refine .after fun l => ?_
  refine .after fun v => ?_
  cases p.isMemory
  case' true => refine .after fun _ => ?_
  all_goals
    refine .bind (hf v) fun v => ?_
    refine .bind (l.keeps_write v) fun _ => ?_
    cases copy with
    | none => exact keeps_pure _
    | some r => exact keeps_setRegister r v

theorem latches_toAccumulator (r : Result 8) : Latches (toAccumulator r) := .after fun _ => latches_setFlags _

theorem latches_toBase (b : Base) (r : Result 16) : Latches (toBase b r) := by
  refine .after fun k => ?_
  refine .after fun _ => ?_
  exact .after fun _ => latches_setFlags _

theorem latches_rotateDigits (f : Byte → Byte → Byte × Byte) : Latches (rotateDigits f) := by
  refine .after fun k => ?_
  refine .after fun m => ?_
  refine .after fun _ => ?_
  refine .after fun _ => ?_
  exact .after fun _ => latches_setFlags _

theorem latches_loadSpecial (f : Registers → Byte) : Latches (loadSpecial f) := by
  refine .after fun _ => ?_
  refine .after fun _ => ?_
  exact .after fun k => latches_setFlags _

theorem latches_finishBlock (again : Bool) (shown last : Flags) : Latches (finishBlock again shown last) := by
  cases again with
  | false => exact latches_setFlags last
  | true => exact .after fun _ => .after fun k => latches_setFlags _

theorem Block.latches_finishPort (b : Block) (v other : Byte) : Latches (b.finishPort v other) :=
  .after fun _ => latches_finishBlock _ _ _

theorem Block.latches (b : Block) : Latches b.execute := by
  rcases b with ⟨kind, d, repeating⟩
  cases kind with
  | load =>
    refine .after fun k => ?_
    refine .after fun v => ?_
    refine .after fun _ => ?_
    refine .after fun _ => ?_
    refine .after fun _ => ?_
    exact .after fun k => latches_finishBlock _ _ _
  | compare =>
    refine .after fun k => ?_
    refine .after fun v => ?_
    refine .after fun _ => ?_
    refine .after fun _ => ?_
    exact .after fun k => latches_finishBlock _ _ _
  | input =>
    refine .after fun _ => ?_
    refine .after fun k => ?_
    refine .after fun v => ?_
    refine .after fun _ => ?_
    exact .after fun _ => latches_finishPort _ _ _
  | output =>
    refine .after fun _ => ?_
    refine .after fun k => ?_
    refine .after fun v => ?_
    refine .after fun _ => ?_
    refine .after fun k => ?_
    refine .after fun _ => ?_
    refine .after fun _ => ?_
    exact .after fun k => latches_finishPort _ _ _

end Latches

section Families

theorem Transfer.latching (t : Transfer) : Latching t.setsFlags t.execute := by
  cases t with
  | loadFromI | loadFromR => exact latches_loadSpecial _
  | load dst src =>
    refine Quiet.bind src.quiet fun v => ?_
    exact .bind dst.quiet fun l => l.quiet_write v
  | storeImmediate b =>
    refine Quiet.bind b.quiet fun a => ?_
    refine .bind .operand fun v => ?_
    cases b with
    | hl => exact .send _
    | index n => exact .bind (.pause 2) fun _ => .send _
  | loadAccumulator r =>
    refine Quiet.bind r.quiet fun a => ?_
    exact .bind (.receive _) fun v => .update _
  | storeAccumulator r =>
    refine Quiet.bind r.quiet fun a => ?_
    refine .look fun k => ?_
    exact .bind (.send _) fun _ => .update _
  | loadPairImmediate p => exact Quiet.bind .operandWord fun w => .update _
  | loadPair p =>
    refine Quiet.bind .operandWord fun a => ?_
    exact .bind (.readWord a) fun w => .update _
  | storePair p =>
    refine Quiet.bind .operandWord fun a => ?_
    refine .look fun k => ?_
    exact .bind (.bind (.send _) fun _ => .send _) fun _ => .update _
  | pop p => exact Quiet.bind .popWord fun w => .update _
  | push p => exact Quiet.bind (.pause 1) fun _ => .look fun k => .pushWord _
  | exchangeStackTop b => exact fun s _ _ => rfl
  | loadStackPointer b | loadToI | loadToR | exchangeDeHl | exchangeAf | exchangeBanks => exact fun s => rfl

theorem Arithmetic.latching (previous : Flags) (a : Arithmetic) : Latching a.setsFlags (a.execute previous) := by
  cases a with
  | accumulate op src => exact Latches.after fun v => .after fun k => latches_toAccumulator _
  | step d p =>
    refine p.latches_modify none fun v => ?_
    exact .after fun k => (latches_setFlags _).bind fun _ => keeps_pure _
  | stepPair d p => exact fun s => rfl
  | addTo dst src => exact Latches.after fun _ => .after fun k => latches_toBase _ _
  | addCarry src | subtractCarry src => exact Latches.after fun _ => .after fun k => latches_toBase _ _
  | decimalAdjust | complement | negate => exact Latches.after fun k => latches_toAccumulator _
  | setCarry | complementCarry => exact Latches.after fun k => latches_setFlags _

theorem BitOperation.latching (b : BitOperation) : Latching b.setsFlags b.execute := by
  cases b with
  | rotateAccumulator op => exact Latches.after fun k => .after fun _ => latches_setFlags _
  | shift op p copy =>
    refine p.latches_modify copy fun v => ?_
    exact .after fun k => (latches_setFlags _).bind fun _ => keeps_pure _
  | test n p => exact Latches.after fun v => .after fun k => latches_setFlags _
  | reset n p copy | set n p copy => exact p.quiet_modify copy fun v => .pure _
  | rotateDigitsRight => exact latches_rotateDigits digitsRight
  | rotateDigitsLeft => exact latches_rotateDigits digitsLeft

theorem Jump.quiet (j : Jump) : Quiet j.execute := by
  cases j with
  | absolute q =>
    refine .bind .operandWord fun a => ?_
    refine .bind (.latchAddress a) fun _ => ?_
    refine .bind (quiet_taken q) fun t => ?_
    cases t with
    | false => exact .pure _
    | true => exact .goTo a
  | toBase b => exact .update fun k => { k with pc := k.base b }
  | relative q =>
    refine .bind .operand fun d => ?_
    refine .bind (quiet_taken q) fun t => ?_
    cases t with
    | false => exact .pure _
    | true => exact quiet_jumpRelative d
  | countdown =>
    refine .bind (.pause 1) fun _ => ?_
    refine .bind .operand fun d => ?_
    refine .bind (.update _) fun _ => ?_
    refine .look fun k => ?_
    split
    · exact quiet_jumpRelative d
    · exact .pure _
  | call q =>
    refine .bind .operandWord fun a => ?_
    refine .bind (.latchAddress a) fun _ => ?_
    refine .bind (quiet_taken q) fun t => ?_
    cases t with
    | false => exact .pure _
    | true => exact .bind (.pause 1) fun _ => quiet_enter a
  | «return» q =>
    cases q with
    | none => exact quiet_goBack
    | some q =>
      refine .bind (.pause 1) fun _ => ?_
      refine .bind (quiet_taken (some q)) fun t => ?_
      cases t with
      | false => exact .pure _
      | true => exact quiet_goBack
  | returnInterrupt => exact quiet_goBack
  | returnNmi => exact .bind quiet_goBack fun _ => .update _
  | restart n => exact .bind (.pause 1) fun _ => quiet_enter _

theorem Control.quiet (o : Control) : Quiet o.execute := by
  cases o <;> exact fun s => rfl

theorem Transmission.latching (t : Transmission) : Latching t.setsFlags t.execute := by
  cases t with
  | readImmediate =>
    refine Quiet.bind .operand fun n => ?_
    refine .look fun k => ?_
    exact .bind (.receive _) fun v => .update _
  | writeImmediate =>
    refine Quiet.bind .operand fun n => ?_
    refine .look fun k => ?_
    exact .bind (.send _) fun _ => .update _
  | read r =>
    refine Latches.after fun k => ?_
    refine .after fun v => ?_
    cases r
    case' some r => refine .after fun _ => ?_
    all_goals exact .after fun _ => .after fun k => latches_setFlags _
  | write r => exact fun s => rfl

theorem Extension.latching (config : Config) (e : Extension) : Latching e.setsFlags (e.execute config) := by
  cases e with
  | test => exact Latches.after fun v => .after fun k => latches_setFlags _
  | copyColumn =>
    refine Latches.after fun k => ?_
    refine .after fun v => ?_
    refine .after fun _ => ?_
    exact .after fun _ => latches_setFlags _
  | addImmediate p =>
    refine Quiet.bind .operandWord fun w => ?_
    exact .bind (.pause 2) fun _ => .update _
  | pushImmediate =>
    refine Quiet.bind .operand fun high => ?_
    refine .bind .operand fun low => ?_
    exact .bind (.pause 3) fun _ => .pushWord _
  | setRegisterImmediate =>
    refine Quiet.bind .operand fun n => ?_
    refine .bind (.send _) fun _ => ?_
    exact .bind .operand fun v => .send _
  | setRegister =>
    refine Quiet.bind .operand fun n => ?_
    refine .bind (.send _) fun _ => ?_
    exact .look fun k => .send _
  | copy d repeating =>
    refine Quiet.look fun k => ?_
    refine .bind (quiet_copyMasked _) fun _ => ?_
    refine .bind (.update _) fun _ => ?_
    cases repeating with
    | false => exact .pure _
    | true => exact quiet_againWhileCounting
  | copyPattern =>
    refine Quiet.look fun k => ?_
    exact .bind (quiet_copyMasked _) fun _ => quiet_againWhileCounting
  | outputNext | jumpInput => exact fun s _ => rfl
  | swapDigits | reverseBits | barrel op | multiply | addAccumulator p | pixelBelow | pixelAddress | pixelMask =>
    exact fun s => rfl

/-- Every operation latches the flags that it sets. -/
theorem Operation.latching (config : Config) (previous : Flags) (op : Operation) :
    Latching op.setsFlags (op.execute config previous) := by
  cases op with
  | transfer t => exact t.latching
  | arithmetic a => exact a.latching previous
  | bit b => exact b.latching
  | jump j => exact j.quiet
  | control o => exact o.quiet
  | transmit t => exact t.latching
  | block b => exact b.latches
  | extension e => exact e.latching config

end Families

section Run

variable {β : Type} [Bus β] (s : Execution) (bus : β)

/-- After an operation the latched flags are those in F if it sets flags, and else they are what they were. -/
theorem Operation.latch_execute (config : Config) (previous : Flags) (op : Operation) :
    (on (op.execute config previous) s bus).value.2.latch =
      if op.setsFlags then (on (op.execute config previous) s bus).value.2.registers.f else s.latch := by
  have hlatching := op.latching config previous
  cases hsets : op.setsFlags with
  | false =>
    rw [hsets] at hlatching
    exact Keeps.on hlatching s bus
  | true =>
    rw [hsets] at hlatching
    exact (hlatching s).run bus

end Run

end Z80Machine
