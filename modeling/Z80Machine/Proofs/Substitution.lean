import Z80Machine.Proofs.Decoding
import Z80Machine.Proofs.Failure

/-!
Another byte in the place of the last opcode byte. On the extended page that byte alone decides on the slot, so with
another one the same way leads to another slot of the page. Where neither slot holds anything that the processor knows,
the two steps cannot be told apart but by the byte itself.
-/
namespace Z80Machine

open Microcode

def Slot.isExtension : Slot → Bool
  | .instruction i => i.operation.isExtension
  | .lead _ | .undefined => false

/-- The slot on the same page to which another last opcode byte leads. -/
def Target.withByte (t : Target) (y : Byte) : Target := { t with byte := y, opcode := t.opcode.dropLast ++ [y] }

def Fault.withLast (y : Byte) : Fault → Fault
  | .undefinedOpcode a opcode => .undefinedOpcode a (opcode.dropLast ++ [y])
  | f => f

def Cycle.withByte (y : Byte) : Cycle → Cycle
  | .received c _ => .received c y
  | .paused (.opcode _) => .paused (.opcode y)
  | x => x

/-- Supplied bytes with another one in place `n`, or with one more if they are `n`. -/
def replaced (vs : List Byte) (n : Nat) (y : Byte) : List Byte := vs.take n ++ y :: vs.drop (n + 1)

theorem drop_replaced {vs : List Byte} {n : Nat} (h : n ≤ vs.length) (y : Byte) :
    (replaced vs n y).drop (n + 1) = vs.drop (n + 1) := by
  have hlength : (vs.take n).length = n := List.length_take_of_le h
  rw [replaced, List.drop_append, hlength, List.drop_of_length_le (by omega)]
  simp

theorem Cycle.time_withByte (y : Byte) (x : Cycle) : (x.withByte y).time = x.time := by
  rcases x with _ | _ | (_ | _ | _) <;> rfl

section Ways

variable (m : Memory) (b : Base) (a : Word) (y : Byte)

theorem page_followBase : (followBase m b a).page = .extended ↔ m.get a = 0xED := by
  by_cases he : m.get a = 0xED
  · simp [followBase_extended _ _ he, he]
  by_cases hb : m.get a = 0xCB
  · cases b <;> simp [followBase, hb]
  · rw [followBase_opening _ _ he hb]
    exact iff_of_false (by simp) he

theorem followBase_withByte (h : (followBase m b a).page = .extended) :
    (followBase m b a).operands = [] ∧ (followBase m b a).opcode.length = 2 ∧
      followBase (m.set (a + 1) y) b a = (followBase m b a).withByte y := by
  have he := (page_followBase m b a).1 h
  have hfirst : (m.set (a + 1) y).get a = 0xED := by
    rw [Memory.get_set, if_neg (by bv_omega), he]
  rw [followBase_extended _ _ he, followBase_extended _ _ hfirst, Memory.get_set, Memory.get_set]
  exact ⟨rfl, rfl, by simp [Target.withByte]⟩

theorem follow_withByte (carried : Option Index) (h : (follow m a carried).page = .extended) :
    (follow m a carried).operands = [] ∧ 1 ≤ (follow m a carried).opcode.length ∧
      follow (m.set (a + BitVec.ofNat 16 ((follow m a carried).opcode.length - 1)) y) a carried =
        (follow m a carried).withByte y := by
  cases carried with
  | some i =>
    obtain ⟨hoperands, hlength, hbase⟩ := followBase_withByte m (.index i) a y h
    simp only [follow_carried, hlength]
    exact ⟨hoperands, by decide, hbase⟩
  | none =>
    cases hp : Index.ofPrefix? (m.get a) with
    | some i =>
      have hi := Index.ofPrefix?_eq_some.1 hp
      rw [follow_indexed m hi] at h ⊢
      obtain ⟨hoperands, hlength, hbase⟩ := followBase_withByte m (.index i) (a + 1) y h
      have hlast : a + 1 + 1 = a + BitVec.ofNat 16 2 := BitVec.add_assoc ..
      have hfirst : (m.set (a + BitVec.ofNat 16 2) y).get a = m.get a := Memory.get_set_of_ne m y (by bv_omega)
      rw [hlast] at hbase
      simp only [List.length_cons, hlength, Nat.add_one_sub_one]
      refine ⟨hoperands, by decide, ?_⟩
      rw [follow_indexed _ (hfirst.trans hi), hbase, hfirst, Target.withByte, Target.withByte,
        List.dropLast_cons_of_ne_nil, List.cons_append]
      exact List.ne_nil_of_length_eq_add_one hlength
    | none =>
      rw [follow_plain m hp] at h ⊢
      obtain ⟨hoperands, hlength, hbase⟩ := followBase_withByte m .hl a y h
      have hfirst : (m.set (a + 1) y).get a = m.get a := Memory.get_set_of_ne m y (by bv_omega)
      simp only [hlength]
      exact ⟨hoperands, by decide, (follow_plain _ (hfirst ▸ hp)).trans hbase⟩

theorem followSupplied_withByte (vs : List Byte) (h : (followSupplied b vs).page = .extended) :
    (followSupplied b vs).operands = [] ∧ (followSupplied b vs).opcode.length - 1 ≤ vs.length ∧
      followSupplied b (replaced vs ((followSupplied b vs).opcode.length - 1) y) =
        (followSupplied b vs).withByte y := by
  induction vs generalizing b with
  | nil =>
    rw [followSupplied_nil] at h
    contradiction
  | cons v vs ih =>
    cases hp : Index.ofPrefix? v with
    | some i =>
      have hv := Index.ofPrefix?_eq_some.1 hp
      rw [followSupplied_indexed vs b hv] at h ⊢
      obtain ⟨hoperands, hle, hrest⟩ := ih (.index i) h
      obtain ⟨n, hn⟩ : ∃ n, (followSupplied (.index i) vs).opcode.length = n + 1 := by
        have hpos := length_followSupplied_pos vs (.index i)
        exact ⟨_, (Nat.succ_pred_eq_of_pos hpos).symm⟩
      have hreplaced : replaced (v :: vs) (n + 1) y = v :: replaced vs n y := rfl
      rw [hn, Nat.add_one_sub_one] at hle hrest
      simp only [List.length_cons, hn, Nat.add_one_sub_one, hreplaced]
      refine ⟨hoperands, by omega, ?_⟩
      rw [followSupplied_indexed _ b hv, hrest, Target.withByte, Target.withByte, List.dropLast_cons_of_ne_nil,
        List.cons_append]
      exact List.ne_nil_of_length_eq_add_one hn
    | none =>
      obtain ⟨h0, h1, -⟩ := Memory.supplying_first (v :: vs)
      obtain ⟨h0', h1', -⟩ := Memory.supplying_first (v :: y :: vs.drop 1)
      rw [followSupplied_plain (v :: vs) b hp] at h ⊢
      have he := (page_followBase _ b 0).1 h
      have he' : (Memory.supplying (v :: y :: vs.drop 1)).get 0 = 0xED := h0'.trans (h0.symm.trans he)
      have hreplaced : replaced (v :: vs) 1 y = v :: y :: vs.drop 1 := rfl
      simp only [followBase_extended _ _ he, List.length_cons, List.length_nil, Nat.reduceAdd, Nat.add_one_sub_one,
        hreplaced]
      rw [followSupplied_plain (v :: y :: vs.drop 1) b hp, followBase_extended _ _ he', h0', h1', h0]
      exact ⟨trivial, Nat.le_add_left .., rfl⟩

end Ways

section Last

variable (t : Target) (y : Byte)

theorem Target.bytes_of_operands (h : t.operands = []) : t.bytes = t.opcode.length := by
  rw [bytes, h]
  rfl

theorem Target.length_withByte (h : 1 ≤ t.opcode.length) : (t.withByte y).opcode.length = t.opcode.length := by
  rw [withByte, List.length_append, List.length_dropLast]
  exact Nat.sub_add_cancel h

theorem Target.fetched_withByte (h : 1 ≤ t.opcode.length) (k : Registers) : (t.withByte y).fetched k = t.fetched k := by
  rw [fetched, fetched, t.length_withByte y h]
  rfl

theorem Target.exists_opcode_withByte (h : 1 ≤ t.opcode.length) :
    ∃ vs v, t.opcode = vs ++ [v] ∧ (t.withByte y).opcode = vs ++ [y] := by
  have hne : t.opcode ≠ [] := List.ne_nil_of_length_pos h
  exact ⟨t.opcode.dropLast, t.opcode.getLast hne, (List.dropLast_concat_getLast hne).symm, rfl⟩

theorem Target.opcodeCycles_concat (a : Word) (vs : List Byte) (v : Byte) :
    opcodeCycles a (vs ++ [v]) = opcodeCycles a vs ++ [.received (.opcode (a + BitVec.ofNat 16 vs.length)) v] := by
  induction vs generalizing a with
  | nil => simp [opcodeCycles]
  | cons u vs ih =>
    rw [List.cons_append, opcodeCycles, ih, List.length_cons, next_address]
    rfl

theorem Target.cycles_withByte (ho : t.operands = []) (h : 1 ≤ t.opcode.length) (a : Word) :
    ∃ cs x, t.cycles a = cs ++ [x] ∧ (t.withByte y).cycles a = cs ++ [x.withByte y] := by
  obtain ⟨vs, v, hv, hy⟩ := t.exists_opcode_withByte y h
  have ho' : (t.withByte y).operands = [] := ho
  refine ⟨opcodeCycles a vs, .received (.opcode (a + BitVec.ofNat 16 vs.length)) v, ?_, ?_⟩
  · simp only [cycles, ho, hv, opcodeCycles_concat, List.append_nil]
  · simp only [cycles, ho', hy, opcodeCycles_concat, List.append_nil]
    rfl

theorem Target.suppliedCycles_withByte (ho : t.operands = []) (h : 1 ≤ t.opcode.length) :
    ∃ cs x, t.suppliedCycles = cs ++ [x] ∧ (t.withByte y).suppliedCycles = cs ++ [x.withByte y] := by
  obtain ⟨vs, v, hv, hy⟩ := t.exists_opcode_withByte y h
  have ho' : (t.withByte y).operands = [] := ho
  refine ⟨vs.map fun v => .paused (.opcode v), .paused (.opcode v), ?_, ?_⟩
  · simp only [suppliedCycles, ho, hv, List.map_append, List.append_nil]
    rfl
  · simp only [suppliedCycles, ho', hy, List.map_append, List.append_nil]
    rfl

theorem Target.window_withByte (h : 1 ≤ t.opcode.length) (seen : Window) :
    ((t.withByte y).opcode.foldl Window.push seen).toList =
      (t.opcode.foldl Window.push seen).toList.dropLast ++ [y] := by
  obtain ⟨vs, v, hv, hy⟩ := t.exists_opcode_withByte y h
  rw [hv, hy, List.foldl_append, List.foldl_append]
  generalize vs.foldl Window.push seen = w
  by_cases hw : w.used < 4
  · simp [Window.toList_push_of_lt hw]
  · simp [Window.toList_push_of_not_lt hw]

end Last

section Slots

/-- Extensions stand on the extended page alone. -/
theorem Page.eq_extended {p : Page} {v : Byte} (h : (p.slot v).isExtension = true) : p = .extended := by
  cases p with
  | opening b =>
    have hplain : ∀ v : Byte, (Page.slot (.opening b) v).isExtension = false := by
      rcases b with _ | _ | _ <;> decide
    rw [hplain] at h
    contradiction
  | extended => rfl
  | bits | indexedBits => contradiction

/-- Without extensions a slot that holds one amounts to no more than a slot that holds nothing. -/
theorem Target.resolution_of_isExtension {t : Target} (h : (t.page.slot t.byte).isExtension = true) (seen : Window) :
    t.resolution false seen = .undefined (t.opcode.foldl Window.push seen) := by
  rw [resolution]
  cases hs : t.page.slot t.byte with
  | instruction i =>
    rw [hs] at h
    have hextension : i.operation.isExtension = true := h
    simp only [hextension, Bool.not_true, Bool.or_self, Bool.false_eq_true, ↓reduceIte]
  | lead l =>
    rw [hs] at h
    contradiction
  | undefined => rfl

theorem Target.resolution_of_undefined {t : Target} (h : t.page.slot t.byte = .undefined) (extensions : Bool)
    (seen : Window) : t.resolution extensions seen = .undefined (t.opcode.foldl Window.push seen) := by
  rw [resolution, h]

end Slots

namespace Cpu

variable (c : Cpu) (y : Byte)

/-- The state in which another byte stands in the place of the last opcode byte on the way to a slot: the device
supplies it, or else it stands in memory. -/
def substituted (t : Target) : Cpu :=
  { c with
    interruptData := match c.task with
      | .interrupt => replaced c.interruptData (t.opcode.length - 1) y
      | _ => c.interruptData }

def substitutedBus (bus : FlatBus) (t : Target) : FlatBus :=
  match c.task with
  | .interrupt => bus
  | _ => bus.poke (c.registers.pc + BitVec.ofNat 16 (t.opcode.length - 1)) y

def undefinedEnding (w : Window) : Ending :=
  match c.config.undefined with
  | .nop => .ok none
  | .fault => .error (.undefinedOpcode c.start w.toList)

variable {c} {bus : FlatBus} {t : Target}

theorem decoded_substituted (h : c.decoded bus.memory = some t) (hp : t.page = .extended) :
    (c.substituted y t).decoded (c.substitutedBus y bus t).memory = some (t.withByte y) := by
  rcases decoded_eq_some.1 h with ⟨ht, rfl⟩ | ⟨ht, hm, rfl⟩
  · have hfollow := (follow_withByte bus.memory c.registers.pc y c.carried hp).2.2
    refine decoded_eq_some.2 (.inl ⟨ht, ?_⟩)
    rw [substitutedBus, ht]
    exact hfollow.symm
  · have hfollow := (followSupplied_withByte .hl y c.interruptData hp).2.2
    refine decoded_eq_some.2 (.inr ⟨ht, hm, ?_⟩)
    rw [substituted, ht]
    exact hfollow.symm

/-- A slot on the extended page comes with no operands and at least one opcode byte. -/
theorem decoded_extended (h : c.decoded bus.memory = some t) (hp : t.page = .extended) :
    t.operands = [] ∧ 1 ≤ t.opcode.length := by
  rcases decoded_eq_some.1 h with ⟨ht, rfl⟩ | ⟨ht, hm, rfl⟩
  · have hfollow := follow_withByte bus.memory c.registers.pc 0 c.carried hp
    exact ⟨hfollow.1, hfollow.2.1⟩
  · exact ⟨(followSupplied_withByte .hl 0 c.interruptData hp).1, length_followSupplied_pos ..⟩

theorem arriving_substituted (h : c.decoded bus.memory = some t) (hp : t.page = .extended) :
    (c.substituted y t).arriving (t.withByte y) = c.arriving t := by
  obtain ⟨hoperands, hlength⟩ := decoded_extended h hp
  have hfetched (k : Registers) : (t.withByte y).fetched k = t.fetched k := t.fetched_withByte y hlength k
  have htask : (c.substituted y t).task = c.task := rfl
  rw [arriving, arriving, htask]
  split
  · rename_i ht
    obtain ⟨-, -, htarget⟩ := (decoded_eq_some.1 h).resolve_left fun hi => by simp [ht] at hi
    have hle : t.opcode.length - 1 ≤ c.interruptData.length :=
      htarget ▸ (followSupplied_withByte .hl y c.interruptData (htarget ▸ hp)).2.1
    have hsupplied : (c.substituted y t).interruptData = replaced c.interruptData (t.opcode.length - 1) y := by
      rw [substituted, ht]
    have hdrop : (c.substituted y t).interruptData.drop (t.withByte y).bytes = c.interruptData.drop t.bytes := by
      have hafter := drop_replaced hle y
      rw [Nat.sub_add_cancel hlength] at hafter
      rw [hsupplied, t.bytes_of_operands hoperands, (t.withByte y).bytes_of_operands hoperands,
        t.length_withByte y hlength]
      exact hafter
    rw [hfetched, hdrop]
    rfl
  · rw [hfetched]
    rfl

theorem way_substituted (h : c.decoded bus.memory = some t) (hp : t.page = .extended) :
    ∃ cs x, c.way t = cs ++ [x] ∧ (c.substituted y t).way (t.withByte y) = cs ++ [x.withByte y] := by
  obtain ⟨hoperands, hlength⟩ := decoded_extended h hp
  have htask : (c.substituted y t).task = c.task := rfl
  rw [way, way, htask]
  split
  · obtain ⟨cs, x, hcycles, hcycles'⟩ := t.suppliedCycles_withByte y hoperands hlength
    exact ⟨.paused (.internal 2) :: cs, x, congrArg (_ :: ·) hcycles, congrArg (_ :: ·) hcycles'⟩
  · exact t.cycles_withByte y hoperands hlength c.registers.pc

/-- A step that decodes nothing known goes the way there and does no more. -/
theorem performed_undefined {w : Window} (h : c.decoded bus.memory = some t)
    (hw : c.meaning c.config t = .undefined w) :
    c.performed bus = ⟨(c.undefinedEnding w, c.arriving t), c.reached bus, Cycle.duration (c.way t)⟩ ∧
      c.history bus = c.way t := by
  have hcomplete : c.complete c.start (.undefined w) = pure (c.undefinedEnding w) := by
    cases hu : c.config.undefined <;> simp only [complete, undefinedEnding, hu]
  obtain ⟨hperformed, hhistory⟩ := c.performed_decoded h
  rw [hw, hcomplete] at hperformed hhistory
  exact ⟨hperformed, hhistory.trans (List.append_nil _)⟩

/-- Without extensions, a byte that stands for one does what a byte does that stands for nothing. -/
theorem step_substituted (h : c.decoded bus.memory = some t) (ht : (t.page.slot t.byte).isExtension = true)
    (hx : c.config.extensions = false) (hy : Page.extended.slot y = .undefined) :
    let c' := c.substituted y t
    let bus' := c.substitutedBus y bus t
    t.page = .extended ∧ c'.decoded bus'.memory = some (t.withByte y) ∧
      (c'.step bus').result = (c.step bus).result.mapError (Fault.withLast y) ∧
      (c'.step bus').cpu = { (c.step bus).cpu with interruptData := c'.interruptData } ∧
      (c.step bus).bus.memory = bus.memory ∧ (c'.step bus').bus.memory = bus'.memory ∧
      ∃ cs x, c.history bus = cs ++ [x] ∧ c'.history bus' = cs ++ [x.withByte y] := by
  intro c' bus'
  have hp : t.page = .extended := Page.eq_extended ht
  have hd : c'.decoded bus'.memory = some (t.withByte y) := decoded_substituted y h hp
  have hw : c.meaning c.config t = .undefined (t.opcode.foldl Window.push (seenBefore c.carried)) := by
    rw [meaning, hx]
    exact Target.resolution_of_isExtension ht _
  have hslot : (t.withByte y).page.slot (t.withByte y).byte = .undefined := (congrArg (Page.slot · y) hp).trans hy
  have hw' : c'.meaning c'.config (t.withByte y) =
      .undefined ((t.withByte y).opcode.foldl Window.push (seenBefore c.carried)) :=
    Target.resolution_of_undefined hslot ..
  obtain ⟨hperformed, hhistory⟩ := performed_undefined h hw
  obtain ⟨hperformed', hhistory'⟩ := performed_undefined hd hw'
  obtain ⟨cs, x, hway, hway'⟩ := way_substituted y h hp
  have harriving : c'.arriving (t.withByte y) = c.arriving t := arriving_substituted y h hp
  have hduration : Cycle.duration (c'.way (t.withByte y)) = Cycle.duration (c.way t) := by
    rw [hway, hway', Cycle.duration_append, Cycle.duration_append]
    exact congrArg (fun n => Cycle.duration cs + (n + 0)) (x.time_withByte y)
  have hwindow := t.window_withByte y (decoded_extended h hp).2 (seenBefore c.carried)
  refine ⟨hp, hd, ?_, ?_, ?_, ?_, cs, x, by rw [hhistory, hway], by rw [hhistory', hway']⟩
  · have hconfig : c'.config = c.config := rfl
    rw [result_step, result_step, hperformed, hperformed', hduration]
    cases hu : c.config.undefined with
    | nop => simp only [undefinedEnding, hconfig, hu]; rfl
    | fault =>
      simp only [undefinedEnding, hconfig, hu, hwindow]
      rfl
  · have hconfig : c'.config = c.config := rfl
    rw [cpu_step, cpu_step, hperformed, hperformed', hduration, harriving]
    cases hu : c.config.undefined <;> simp only [undefinedEnding, hconfig, hu] <;> rfl
  · rw [bus_step, hperformed]
    exact (c.alike_reached bus).memory
  · rw [bus_step, hperformed']
    exact (c'.alike_reached bus').memory

end Cpu

end Z80Machine
