import Z80Machine.Proofs.Exchange

/-!
What operations do with registers that have traded places. An operation with the names exchanged goes on in lockstep
with the operation itself, as long as HL stays or is used by name alone, and as long as WZ is the same or not looked at.
-/
namespace Z80Machine

open Microcode

/-- Whether HL matters to the operation only where it is named, as a register, a pair or a base. -/
def Source.isMemory : Source → Bool
  | .place p => p.isMemory
  | .immediate => false

def Transfer.isNominal : Transfer → Bool
  | .load dst src => !dst.isMemory && !src.isMemory
  | .storeImmediate _ | .exchangeDeHl | .exchangeBanks => false
  | _ => true

def Arithmetic.isNominal : Arithmetic → Bool
  | .accumulate _ src => !src.isMemory
  | .step _ p => !p.isMemory
  | .addCarry _ | .subtractCarry _ => false
  | _ => true

def BitOperation.isNominal : BitOperation → Bool
  | .shift _ p _ | .test _ p | .reset _ p _ | .set _ p _ => !p.isMemory
  | .rotateAccumulator _ => true
  | .rotateDigitsRight | .rotateDigitsLeft => false

def Operation.isNominal : Operation → Bool
  | .transfer t => t.isNominal
  | .arithmetic a => a.isNominal
  | .bit b => b.isNominal
  | .jump _ | .control _ | .transmit _ => true
  | .block _ | .extension _ => false

/-- Whether the operation looks at WZ: for an address, or for X and Y of a test. -/
def Pointer.isLatched : Pointer → Bool
  | .latched _ => true
  | .hl | .displaced _ => false

def Place.isLatched : Place → Bool
  | .register _ => false
  | .memory p => p.isLatched

def Source.isLatched : Source → Bool
  | .place p => p.isLatched
  | .immediate => false

def Transfer.looksAtWz : Transfer → Bool
  | .load dst src => dst.isLatched || src.isLatched
  | _ => false

def Arithmetic.looksAtWz : Arithmetic → Bool
  | .accumulate _ src => src.isLatched
  | .step _ p => p.isLatched
  | _ => false

def BitOperation.looksAtWz : BitOperation → Bool
  | .shift _ p _ | .reset _ p _ | .set _ p _ => p.isLatched
  | .test _ p => p.isMemory
  | _ => false

def Operation.looksAtWz : Operation → Bool
  | .transfer t => t.looksAtWz
  | .arithmetic a => a.looksAtWz
  | .bit b => b.looksAtWz
  | _ => false

section Places

variable {ρ : Exchange} {seen : Prop}

theorem Pointer.parallel (p : Pointer) (hρ : ρ.KeepsHl) (hw : p.isLatched → seen) :
    Parallel ρ seen p.address (p.exchanged ρ).address := by
  cases p with
  | hl =>
    refine .look fun k w _ => ?_
    rcases ρ with _ | _ | i
    · exact .pure _
    · exact .pure _
    · exact hρ.elim
  | displaced i =>
    refine .bind .operand fun d => ?_
    refine .bind (.wait _) fun _ => ?_
    refine .look fun k w _ => ?_
    rw [k.index_exchanged ρ w hρ]
    refine .bind (.latchAddress _) fun _ => ?_
    exact .pure _
  | latched i =>
    refine .look fun k w hk => ?_
    have hwz : (k.exchangedWith ρ w).wz = k.wz := hk (hw rfl)
    rw [hwz]
    exact .pure _

/-- What is done at a place is done at its location. -/
theorem Place.parallel {α : Type} (p : Place) (hρ : ρ.KeepsHl ∨ p.isMemory = false) (hw : p.isLatched → seen)
    {f g : Location → Microcode α} (hf : ∀ l, Parallel ρ seen (f l) (g (l.exchanged ρ))) :
    Parallel ρ seen (p.locate >>= f) ((p.exchanged ρ).locate >>= g) := by
  cases p with
  | register r => exact hf (.register r)
  | memory p =>
    have hp := p.parallel (hρ.resolve_right nofun) hw
    have hlocate : Parallel ρ seen (p.address >>= fun a => f (.memory a))
        ((p.exchanged ρ).address >>= fun a => g (.memory a)) := .bind hp fun a => hf (.memory a)
    simpa only [exchanged, locate, bind_assoc, pure_bind] using hlocate

theorem Location.parallel_read (l : Location) : Parallel ρ seen l.read (l.exchanged ρ).read := by
  cases l with
  | register r =>
    refine .look fun k w _ => ?_
    rw [k.get_exchanged]
    exact .pure _
  | memory a => exact .receive _

theorem Location.parallel_write (l : Location) (v : Byte) : Parallel ρ seen (l.write v) ((l.exchanged ρ).write v) := by
  cases l with
  | register r => exact .setRegister r v
  | memory a => exact .send _

theorem Source.parallel (src : Source) (hρ : ρ.KeepsHl ∨ src.isMemory = false) (hw : src.isLatched → seen) :
    Parallel ρ seen src.read (src.exchanged ρ).read := by
  cases src with
  | place p => exact p.parallel hρ hw fun l => l.parallel_read
  | immediate => exact .operand

/-- Replacing a byte is in parallel if what is done with the byte is. -/
theorem Place.parallel_modify (p : Place) (hρ : ρ.KeepsHl ∨ p.isMemory = false) (hw : p.isLatched → seen)
    (copy : Option Register) {f g : Byte → Microcode Byte} (hf : ∀ v, Parallel ρ seen (f v) (g v)) :
    Parallel ρ seen (p.modify copy f) ((p.exchanged ρ).modify (copy.map (Register.exchanged ρ)) g) := by
  have hmemory : (p.exchanged ρ).isMemory = p.isMemory := by cases p <;> rfl
  refine p.parallel hρ hw fun l => ?_
  refine .bind l.parallel_read fun v => ?_
  rw [hmemory]
  cases p.isMemory
  case' true => refine .bind (.wait _) fun _ => ?_
  all_goals
    refine .bind (hf v) fun v => ?_
    refine .bind (l.parallel_write v) fun _ => ?_
    cases copy with
    | none => exact .pure _
    | some r => exact .setRegister r v

theorem Reach.parallel (r : Reach) : Parallel ρ seen r.address r.address := by
  cases r with
  | bc | de => exact .look fun k w _ => .pure _
  | absolute => exact .operandWord

theorem Base.parallel (b : Base) (hρ : ρ.KeepsHl) :
    Parallel ρ seen b.storeAddress (b.exchanged ρ).storeAddress := by
  cases b with
  | hl =>
    rcases ρ with _ | _ | i
    · exact .look fun k w _ => .pure _
    · exact .look fun k w _ => .pure _
    · exact hρ.elim
  | index i =>
    have hindex (k : Registers) (w : Word) := k.index_exchanged ρ w hρ i
    rcases ρ with _ | _ | j
    case hl => exact hρ.elim
    all_goals
      refine .bind .operand fun d => ?_
      refine .look fun k w _ => ?_
      have hi := hindex k w
      rw [Index.exchanged] at hi
      rw [hi]
      refine .bind (.latchAddress _) fun _ => ?_
      exact .pure _

end Places

section Families

variable {ρ : Exchange} {seen : Prop}

theorem parallel_toAccumulator (r : Result 8) : Parallel ρ seen (toAccumulator r) (toAccumulator r) := by
  refine .bind (.update fun _ w => ⟨w, rfl, id⟩) fun _ => ?_
  exact .setFlags _

theorem parallel_toBase (b : Base) (r : Result 16) :
    Parallel ρ seen (toBase b r) (toBase (b.exchanged ρ) r) := by
  have hpair : (b.exchanged ρ).pair = b.pair.exchanged ρ := by
    cases b <;> rfl
  refine .look fun k w _ => ?_
  rw [k.base_exchanged, hpair]
  refine .bind (.latchAddress _) fun _ => ?_
  refine .bind (.setPair _ _) fun _ => ?_
  exact .setFlags _

theorem parallel_loadSpecial {f : Registers → Byte} (hf : ∀ k w, f (k.exchangedWith ρ w) = f k) :
    Parallel ρ seen (loadSpecial f) (loadSpecial f) := by
  refine .bind (.wait _) fun _ => ?_
  refine .bind (.update fun k w => ⟨w, ?_, id⟩) fun _ => ?_
  · rw [hf]
    rfl
  refine .look fun k w _ => ?_
  exact .setFlags _

theorem Transfer.parallel (t : Transfer) (hρ : ρ.KeepsHl ∨ t.isNominal) (hw : t.looksAtWz → seen) :
    Parallel ρ seen t.execute (t.exchanged ρ).execute := by
  cases t with
  | load dst src =>
    simp only [isNominal, Bool.and_eq_true, Bool.not_eq_eq_eq_not, Bool.not_true] at hρ
    simp only [looksAtWz, Bool.or_eq_true] at hw
    refine .bind (src.parallel (hρ.imp_right And.right) fun h => hw (.inr h)) fun v => ?_
    exact dst.parallel (hρ.imp_right And.left) (fun h => hw (.inl h)) fun l => l.parallel_write v
  | storeImmediate b =>
    have hkeeps : ρ.KeepsHl := hρ.resolve_right nofun
    refine .bind (b.parallel hkeeps) fun a => ?_
    refine .bind .operand fun v => ?_
    cases b with
    | hl =>
      rcases ρ with _ | _ | i
      · exact .send _
      · exact .send _
      · exact hkeeps.elim
    | index i =>
      rcases ρ with _ | _ | j
      · exact .bind (.wait _) fun _ => .send _
      · exact .bind (.wait _) fun _ => .send _
      · exact hkeeps.elim
  | loadAccumulator r =>
    refine .bind r.parallel fun a => ?_
    refine .bind (.receive _) fun v => ?_
    exact .update fun _ _ => ⟨a + 1, rfl, fun _ => rfl⟩
  | storeAccumulator r =>
    refine .bind r.parallel fun a => ?_
    refine .look fun k w _ => ?_
    refine .bind (.send _) fun _ => ?_
    exact .update fun k _ => ⟨k.storeLatch a, rfl, fun _ => rfl⟩
  | loadPairImmediate p =>
    refine .bind .operandWord fun v => ?_
    exact .setPair p v
  | loadPair p =>
    refine .bind .operandWord fun a => ?_
    refine .bind (.readWord a) fun v => ?_
    refine .update fun k w => ⟨a + 1, ?_, fun _ => rfl⟩
    rw [k.withPair_exchanged]
    rfl
  | storePair p =>
    refine .bind .operandWord fun a => ?_
    refine .look fun k w _ => ?_
    rw [k.pair_exchanged]
    refine .bind (.writeWord a _) fun _ => ?_
    exact .latchAddress _
  | loadStackPointer b =>
    refine .bind (.wait _) fun _ => ?_
    refine .update fun k w => ⟨w, ?_, id⟩
    rw [k.base_exchanged]
    rfl
  | loadFromI | loadFromR => exact parallel_loadSpecial fun _ _ => rfl
  | loadToI | loadToR =>
    refine .bind (.wait _) fun _ => ?_
    exact .update fun _ w => ⟨w, rfl, id⟩
  | push p =>
    refine .bind (.wait _) fun _ => ?_
    refine .look fun k w _ => ?_
    rw [k.pair_exchanged]
    exact .pushWord _
  | pop p =>
    refine .bind .popWord fun v => ?_
    exact .setPair p v
  | exchangeDeHl | exchangeBanks =>
    simp only [exchanged, execute]
    exact .aside (hρ.resolve_right nofun) fun _ _ _ _ => rfl
  | exchangeAf => exact .update fun _ w => ⟨w, rfl, id⟩
  | exchangeStackTop b =>
    have hpair : (b.exchanged ρ).pair = b.pair.exchanged ρ := by
      cases b <;> rfl
    refine .look fun k w _ => ?_
    refine .bind (.readWord _) fun v => ?_
    refine .bind (.wait _) fun _ => ?_
    rw [k.base_exchanged]
    refine .bind (.send _) fun _ => ?_
    refine .bind (.send _) fun _ => ?_
    refine .bind (.wait _) fun _ => ?_
    refine .update fun k w => ⟨v, ?_, fun _ => rfl⟩
    rw [hpair, k.withPair_exchanged]
    rfl

theorem Arithmetic.parallel (previous : Flags) (a : Arithmetic) (hρ : ρ.KeepsHl ∨ a.isNominal)
    (hw : a.looksAtWz → seen) : Parallel ρ seen (a.execute previous) ((a.exchanged ρ).execute previous) := by
  cases a with
  | accumulate op src =>
    simp only [isNominal, Bool.not_eq_eq_eq_not, Bool.not_true] at hρ
    refine .bind (src.parallel hρ hw) fun v => ?_
    refine .look fun k w _ => ?_
    exact parallel_toAccumulator _
  | step d p =>
    simp only [isNominal, Bool.not_eq_eq_eq_not, Bool.not_true] at hρ
    refine p.parallel_modify hρ hw none fun v => ?_
    refine .look fun k w _ => ?_
    refine .bind (.setFlags _) fun _ => ?_
    exact .pure _
  | stepPair d p =>
    refine .bind (.wait _) fun _ => ?_
    refine .update fun k w => ⟨w, ?_, fun h => ?_⟩
    · rw [k.pair_exchanged, k.withPair_exchanged]
    · rw [h, k.wz_withPair]
  | addTo dst src =>
    refine .bind (.wait _) fun _ => ?_
    refine .look fun k w _ => ?_
    rw [k.base_exchanged, k.pair_exchanged]
    exact parallel_toBase dst _
  | addCarry src | subtractCarry src =>
    have hkeeps : ρ.KeepsHl := hρ.resolve_right nofun
    refine .bind (.wait _) fun _ => ?_
    refine .look fun k w _ => ?_
    rw [k.pair_exchanged]
    rcases ρ with _ | _ | i
    · exact parallel_toBase .hl _
    · exact parallel_toBase .hl _
    · exact hkeeps.elim
  | decimalAdjust | complement | negate =>
    refine .look fun k w _ => ?_
    exact parallel_toAccumulator _
  | setCarry | complementCarry =>
    refine .look fun k w _ => ?_
    exact .setFlags _

theorem parallel_rotateDigits (hρ : ρ.KeepsHl) (f : Byte → Byte → Byte × Byte) :
    Parallel ρ seen (rotateDigits f) (rotateDigits f) := by
  refine .look fun k w _ => ?_
  rw [k.hl_exchanged ρ w hρ]
  refine .bind (.receive _) fun m => ?_
  refine .bind (.wait _) fun _ => ?_
  refine .bind (.send _) fun _ => ?_
  refine .bind (.update fun k w => ⟨k.hl + 1, ?_, fun _ => rfl⟩) fun _ => ?_
  · rw [k.hl_exchanged ρ w hρ]
    rfl
  exact .setFlags _

theorem Place.parallel_examine (p : Place) (hρ : ρ.KeepsHl ∨ p.isMemory = false) (hw : p.isMemory → seen) :
    Parallel ρ seen p.examine (p.exchanged ρ).examine := by
  cases p with
  | register r =>
    refine .look fun k w _ => ?_
    rw [k.get_exchanged]
    exact .pure _
  | memory p =>
    refine .bind (p.parallel (hρ.resolve_right nofun) fun _ => hw rfl) fun a => ?_
    refine .bind (.receive _) fun v => ?_
    refine .bind (.wait _) fun _ => ?_
    refine .look fun k w hk => ?_
    have hwz : (k.exchangedWith ρ w).wz = k.wz := hk (hw rfl)
    rw [hwz]
    exact .pure _

theorem BitOperation.parallel (b : BitOperation) (hρ : ρ.KeepsHl ∨ b.isNominal) (hw : b.looksAtWz → seen) :
    Parallel ρ seen b.execute (b.exchanged ρ).execute := by
  cases b with
  | rotateAccumulator op =>
    refine .look fun k w _ => ?_
    refine .bind (.update fun _ w => ⟨w, rfl, id⟩) fun _ => ?_
    exact .setFlags _
  | shift op p copy =>
    simp only [isNominal, Bool.not_eq_eq_eq_not, Bool.not_true] at hρ
    refine p.parallel_modify hρ hw copy fun v => ?_
    refine .look fun k w _ => ?_
    refine .bind (.setFlags _) fun _ => ?_
    exact .pure _
  | test n p =>
    simp only [isNominal, Bool.not_eq_eq_eq_not, Bool.not_true] at hρ
    refine .bind (p.parallel_examine hρ hw) fun v => ?_
    refine .look fun k w _ => ?_
    exact .setFlags _
  | reset n p copy | set n p copy =>
    simp only [isNominal, Bool.not_eq_eq_eq_not, Bool.not_true] at hρ
    exact p.parallel_modify hρ hw copy fun v => .pure _
  | rotateDigitsRight => exact parallel_rotateDigits (hρ.resolve_right nofun) digitsRight
  | rotateDigitsLeft => exact parallel_rotateDigits (hρ.resolve_right nofun) digitsLeft

theorem parallel_goBack : Parallel ρ seen goBack goBack := by
  refine .bind .popWord fun a => ?_
  exact .goTo a

theorem parallel_enter (a : Word) : Parallel ρ seen (enter a) (enter a) := by
  refine .look fun k w _ => ?_
  refine .bind (.pushWord _) fun _ => ?_
  exact .goTo a

theorem parallel_jumpRelative (d : Byte) : Parallel ρ seen (jumpRelative d) (jumpRelative d) := by
  refine .bind (.wait _) fun _ => ?_
  refine .look fun k w _ => ?_
  exact .goTo _

theorem parallel_taken (q : Option Condition) : Parallel ρ seen (taken q) (taken q) := by
  cases q with
  | none => exact .pure _
  | some q => exact .look fun k w _ => .pure _

theorem Jump.parallel (j : Jump) : Parallel ρ seen j.execute (j.exchanged ρ).execute := by
  cases j with
  | absolute q =>
    refine .bind .operandWord fun a => ?_
    refine .bind (.latchAddress a) fun _ => ?_
    refine .bind (parallel_taken q) fun t => ?_
    exact .ite (.goTo a) (.pure _)
  | toBase b =>
    simp only [exchanged, execute]
    refine .update fun k w => ⟨w, ?_, id⟩
    rw [k.base_exchanged]
    rfl
  | relative q =>
    refine .bind .operand fun d => ?_
    refine .bind (parallel_taken q) fun t => ?_
    exact .ite (parallel_jumpRelative d) (.pure _)
  | countdown =>
    refine .bind (.wait _) fun _ => ?_
    refine .bind .operand fun d => ?_
    refine .bind (.update fun _ w => ⟨w, rfl, id⟩) fun _ => ?_
    refine .look fun k w _ => ?_
    exact .ite (parallel_jumpRelative d) (.pure _)
  | call q =>
    refine .bind .operandWord fun a => ?_
    refine .bind (.latchAddress a) fun _ => ?_
    refine .bind (parallel_taken q) fun t => ?_
    exact .ite (.bind (.wait _) fun _ => parallel_enter a) (.pure _)
  | «return» q =>
    cases q with
    | none => exact parallel_goBack
    | some q =>
      refine .bind (.wait _) fun _ => ?_
      refine .bind (parallel_taken (some q)) fun t => ?_
      exact .ite parallel_goBack (.pure _)
  | returnInterrupt => exact parallel_goBack
  | returnNmi =>
    refine .bind parallel_goBack fun _ => ?_
    exact .update fun _ w => ⟨w, rfl, id⟩
  | restart n =>
    refine .bind (.wait _) fun _ => ?_
    exact parallel_enter _

theorem Control.parallel (o : Control) : Parallel ρ seen o.execute o.execute := by
  cases o with
  | nop => exact .pure _
  | enableInterrupts =>
    refine .bind (.update fun _ w => ⟨w, rfl, id⟩) fun _ => ?_
    exact .enable
  | halt | disableInterrupts | interruptMode m =>
    rw [Control.execute]
    exact .update fun _ w => ⟨w, rfl, id⟩

theorem Transmission.parallel (t : Transmission) : Parallel ρ seen t.execute (t.exchanged ρ).execute := by
  cases t with
  | readImmediate =>
    refine .bind .operand fun n => ?_
    refine .look fun k w _ => ?_
    refine .bind (.receive _) fun v => ?_
    exact .update fun _ _ => ⟨_, rfl, fun _ => rfl⟩
  | writeImmediate =>
    refine .bind .operand fun n => ?_
    refine .look fun k w _ => ?_
    refine .bind (.send _) fun _ => ?_
    exact .latchAddress _
  | read r =>
    have hlast (v : Byte) (p : Word) : Parallel ρ seen (do
        latchAddress (p + 1)
        setFlags { Flags.ofLogic v with carry := (← registers).f.carry }) (do
        latchAddress (p + 1)
        setFlags { Flags.ofLogic v with carry := (← registers).f.carry }) := by
      refine .bind (.latchAddress _) fun _ => ?_
      refine .look fun k w _ => ?_
      exact .setFlags _
    refine .look fun k w _ => ?_
    refine .bind (.receive _) fun v => ?_
    cases r with
    | none => exact hlast v _
    | some r => exact .bind (.setRegister r v) fun _ => hlast v _
  | write r =>
    refine .look fun k w _ => ?_
    cases r with
    | none => exact .bind (.send _) fun _ => .latchAddress _
    | some r =>
      simp only [Option.map_some, k.get_exchanged]
      exact .bind (.send _) fun _ => .latchAddress _

theorem parallel_finishBlock (again : Bool) (shown last : Flags) :
    Parallel ρ seen (finishBlock again shown last) (finishBlock again shown last) := by
  have hrewind : Parallel ρ seen rewind rewind := by
    refine .bind (.wait _) fun _ => ?_
    exact .update fun k _ => ⟨k.pc - 1, rfl, fun _ => rfl⟩
  refine .ite ?_ (.setFlags last)
  refine .bind hrewind fun _ => ?_
  refine .look fun k w _ => ?_
  exact .setFlags _

theorem Block.parallel_finishPort (b : Block) (v other : Byte) :
    Parallel ρ seen (b.finishPort v other) (b.finishPort v other) := by
  refine .look fun k w _ => ?_
  exact parallel_finishBlock _ _ _

theorem Block.parallel (b : Block) (hρ : ρ.KeepsHl) : Parallel ρ seen b.execute b.execute := by
  rcases b with ⟨kind, d, repeating⟩
  rcases ρ with _ | _ | i
  case hl => exact hρ.elim
  all_goals
    cases kind with
    | load =>
      refine .look fun k w _ => ?_
      refine .bind (.receive _) fun v => ?_
      refine .bind (.send _) fun _ => ?_
      refine .bind (.wait _) fun _ => ?_
      refine .bind (.update fun _ w => ⟨w, rfl, id⟩) fun _ => ?_
      refine .look fun k w _ => ?_
      exact parallel_finishBlock _ _ _
    | compare =>
      refine .look fun k w _ => ?_
      refine .bind (.receive _) fun v => ?_
      refine .bind (.wait _) fun _ => ?_
      refine .bind (.update fun _ w => ⟨d.next w, rfl, congrArg d.next⟩) fun _ => ?_
      refine .look fun k w _ => ?_
      exact parallel_finishBlock _ _ _
    | input =>
      refine .bind (.wait _) fun _ => ?_
      refine .look fun k w _ => ?_
      refine .bind (.receive _) fun v => ?_
      refine .bind (.send _) fun _ => ?_
      refine .bind (.update fun _ _ => ⟨_, rfl, fun _ => rfl⟩) fun _ => ?_
      exact parallel_finishPort _ _ _
    | output =>
      refine .bind (.wait _) fun _ => ?_
      refine .look fun k w _ => ?_
      refine .bind (.receive _) fun v => ?_
      refine .bind (.update fun _ w => ⟨w, rfl, id⟩) fun _ => ?_
      refine .look fun k w _ => ?_
      refine .bind (.send _) fun _ => ?_
      refine .bind (.update fun _ _ => ⟨_, rfl, fun _ => rfl⟩) fun _ => ?_
      refine .look fun k w _ => ?_
      exact parallel_finishPort _ _ _

theorem parallel_copyMasked (a : Word) : Parallel ρ seen (copyMasked a) (copyMasked a) := by
  have hlast : Parallel ρ seen (do
      pause 2
      update fun k => (k.withDe (k.de + 1)).withBc (k.bc - 1)) (do
      pause 2
      update fun k => (k.withDe (k.de + 1)).withBc (k.bc - 1)) := by
    refine .bind (.wait _) fun _ => ?_
    exact .update fun _ w => ⟨w, rfl, id⟩
  refine .bind (.receive _) fun v => ?_
  refine .look fun k w _ => ?_
  exact .ite (.bind (.wait _) fun _ => hlast) (.bind (.send _) fun _ => hlast)

theorem parallel_againWhileCounting : Parallel ρ seen againWhileCounting againWhileCounting := by
  refine .look fun k w _ => ?_
  refine .ite (.bind (.wait _) fun _ => ?_) (.pure _)
  exact .update fun _ w => ⟨w, rfl, id⟩

theorem Extension.parallel (config : Config) (e : Extension) (hρ : ρ.KeepsHl) :
    Parallel ρ seen (e.execute config) ((e.exchanged ρ).execute config) := by
  cases e with
  | swapDigits | reverseBits | barrel op | multiply | pixelMask =>
    simp only [exchanged, execute]
    exact .update fun _ w => ⟨w, rfl, id⟩
  | pixelBelow | pixelAddress =>
    simp only [exchanged, execute]
    exact .aside hρ fun _ _ _ _ => rfl
  | test =>
    refine .bind .operand fun v => ?_
    refine .look fun k w _ => ?_
    exact .setFlags _
  | addAccumulator p =>
    simp only [exchanged, execute]
    refine .update fun k w => ⟨w, ?_, fun h => ?_⟩
    · rw [k.pair_exchanged, k.withPair_exchanged]
      rfl
    · rw [h, k.wz_withPair]
  | addImmediate p =>
    refine .bind .operandWord fun v => ?_
    refine .bind (.wait _) fun _ => ?_
    refine .update fun k w => ⟨w, ?_, fun h => ?_⟩
    · rw [k.pair_exchanged, k.withPair_exchanged]
    · rw [h, k.wz_withPair]
  | pushImmediate =>
    refine .bind .operand fun high => ?_
    refine .bind .operand fun low => ?_
    refine .bind (.wait _) fun _ => ?_
    exact .pushWord _
  | outputNext =>
    refine .bind (.wait _) fun _ => ?_
    refine .look fun k w _ => ?_
    rw [k.hl_exchanged ρ w hρ]
    refine .bind (.receive _) fun v => ?_
    refine .bind (.send _) fun _ => ?_
    exact .aside hρ fun _ _ _ _ => rfl
  | setRegisterImmediate =>
    refine .bind .operand fun n => ?_
    refine .bind (.send _) fun _ => ?_
    refine .bind .operand fun v => ?_
    exact .send _
  | setRegister =>
    refine .bind .operand fun n => ?_
    refine .bind (.send _) fun _ => ?_
    refine .look fun k w _ => ?_
    exact .send _
  | jumpInput =>
    refine .look fun k w _ => ?_
    refine .bind (.receive _) fun v => ?_
    refine .bind (.wait _) fun _ => ?_
    exact .update fun _ w => ⟨w, rfl, id⟩
  | copy d repeating =>
    refine .look fun k w _ => ?_
    rw [k.hl_exchanged ρ w hρ]
    refine .bind (parallel_copyMasked _) fun _ => ?_
    refine .bind (.aside hρ fun _ _ _ _ => rfl) fun _ => ?_
    exact .ite parallel_againWhileCounting (.pure _)
  | copyPattern =>
    refine .look fun k w _ => ?_
    rw [k.hl_exchanged ρ w hρ]
    refine .bind (parallel_copyMasked _) fun _ => ?_
    exact parallel_againWhileCounting
  | copyColumn =>
    refine .look fun k w _ => ?_
    rw [k.hl_exchanged ρ w hρ]
    refine .bind (.receive _) fun v => ?_
    refine .bind (.send _) fun _ => ?_
    refine .bind (.aside hρ fun _ _ _ _ => rfl) fun _ => ?_
    exact .setFlags _

/-- An operation and the operation with the names exchanged go on in lockstep. -/
theorem Operation.parallel (config : Config) (previous : Flags) (op : Operation) (hρ : ρ.KeepsHl ∨ op.isNominal)
    (hw : op.looksAtWz → seen) :
    Parallel ρ seen (op.execute config previous) ((op.exchanged ρ).execute config previous) := by
  cases op with
  | transfer t => exact t.parallel hρ hw
  | arithmetic a => exact a.parallel previous hρ hw
  | bit b => exact b.parallel hρ hw
  | jump j => exact j.parallel
  | control o => exact o.parallel
  | transmit t => exact t.parallel
  | block b => exact b.parallel (hρ.resolve_right nofun)
  | extension e => exact e.parallel config (hρ.resolve_right nofun)

end Families

end Z80Machine
