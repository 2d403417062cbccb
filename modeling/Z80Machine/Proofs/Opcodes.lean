import Z80Machine.Proofs.Scope
import Z80Machine.Proofs.Traffic

/-!
The opcode bytes of a step, on any bus. `Yields P` says of an activity that all its ways, whatever bytes come in, have
`P` of their cycles and of the value at their end. Fetching moves R by the opcode bytes on the way, and an operation
found there touches an index register only where the prefix is one of these bytes or was carried into the step.
-/
namespace Z80Machine

open Microcode

/-- The opcode bytes that cycles bring in, from memory or from a device. -/
def opcodeBytes (cs : List Cycle) : List Byte := cs.filterMap Cycle.opcode?

theorem opcodeBytes_append (cs ds : List Cycle) : opcodeBytes (cs ++ ds) = opcodeBytes cs ++ opcodeBytes ds :=
  List.filterMap_append

namespace Activity

variable {α γ : Type}

/-- Every way has `P`, of its cycles in order and of the value at its end. -/
def Yields : Activity α → (List Cycle → α → Prop) → Prop
  | .done a, P => P [] a
  | .receive c next, P => ∀ v, (next v).Yields fun cs => P (.received c v :: cs)
  | .send c next, P => next.Yields fun cs => P (.sent c :: cs)
  | .pause c next, P => next.Yields fun cs => P (.paused c :: cs)

theorem Yields.mono {P Q : List Cycle → α → Prop} {m : Activity α} (h : m.Yields P)
    (hPQ : ∀ cs a, P cs a → Q cs a) : m.Yields Q := by
  induction m generalizing P Q with
  | done a => exact hPQ [] a h
  | receive c next ih => exact fun v => ih v (h v) fun cs a => hPQ _ a
  | send c next ih => exact ih h fun cs a => hPQ _ a
  | pause c next ih => exact ih h fun cs a => hPQ _ a

theorem yields_bind {P : List Cycle → γ → Prop} (m : Activity α) (f : α → Activity γ) :
    (m.bind f).Yields P ↔ m.Yields fun cs a => (f a).Yields fun ds => P (cs ++ ds) := by
  induction m generalizing P with
  | done a => exact Iff.rfl
  | receive c next ih => exact forall_congr' fun v => ih v
  | send c next ih => exact ih
  | pause c next ih => exact ih

theorem Yields.run {β : Type} [Bus β] {P : List Cycle → α → Prop} {m : Activity α} (h : m.Yields P) (bus : β) :
    P (m.history bus) (m.run bus).value := by
  induction m generalizing P bus with
  | done a => exact h
  | receive c next ih => exact ih _ (h _) _
  | send c next ih => exact ih h _
  | pause c next ih => exact ih h _

end Activity

def indexPrefixes (bytes : List Byte) : List Byte := bytes.takeWhile fun v => (Index.ofPrefix? v).isSome

theorem indexPrefixes_cons (i : Index) (bytes : List Byte) :
    indexPrefixes (i.prefixByte :: bytes) = i.prefixByte :: indexPrefixes bytes := by
  have hi : (Index.ofPrefix? i.prefixByte).isSome := Option.isSome_of_eq_some (Index.ofPrefix?_eq_some.2 rfl)
  exact List.takeWhile_cons_of_pos hi

/-- What fetching has brought, besides the bytes: R counts them, and an operation touches F only as the tables have it
and an index register only if the bytes name it. -/
structure Opened (named : List Byte → Index → Prop) (r : Byte) (bytes : List Byte) (o : Resolution) (r' : Byte) :
    Prop where
  refresh : r' = refreshedBy bytes.length r
  flags : ∀ op, o.operation? = some op → op.touches .flags → op.movesFlags
  index : ∀ op, o.operation? = some op → ∀ x, op.touches (.index x) → named bytes x

def Opens (named : List Byte → Index → Prop) (m : Microcode Resolution) : Prop :=
  ∀ s, (m s).Yields fun cs q => Opened named s.registers.r (opcodeBytes cs) q.1 q.2.registers.r

section Opens

variable {named named' : List Byte → Index → Prop} {m : Microcode Resolution}

theorem Opened.cons {r r' v : Byte} {bytes : List Byte} {o : Resolution}
    (h : Opened (fun bs => named (v :: bs)) (refreshedBy 1 r) bytes o r') : Opened named r (v :: bytes) o r' where
  refresh := by rw [h.refresh, refreshedBy_refreshedBy, List.length_cons, Nat.add_comm]
  flags := h.flags
  index := h.index

namespace Opens

theorem on {β : Type} [Bus β] (h : Opens named m) (s : Execution) (bus : β) :
    let o := Microcode.on m s bus
    Opened named s.registers.r (opcodeBytes (history m s bus)) o.value.1 o.value.2.registers.r :=
  (h s).run bus

theorem mono (h : Opens named m) (hnamed : ∀ bs x, named bs x → named' bs x) : Opens named' m :=
  fun s => (h s).mono fun _ _ hopened =>
    ⟨hopened.refresh, hopened.flags, fun op hop x hx => hnamed _ x (hopened.index op hop x hx)⟩

theorem pure {o : Resolution} (h : o.operation? = none) : Opens named (Pure.pure o) := fun s =>
  ⟨(refreshedBy_zero s.registers.r).symm, fun op hop => by simp [h] at hop, fun op hop => by simp [h] at hop⟩

theorem slot {page : Page} {v : Byte} {i : Instruction} (h : page.slot v = .instruction i)
    (hnamed : ∀ x, page = .opening (.index x) → named [] x) : Opens named (Pure.pure (.instruction i)) := by
  obtain ⟨hflags, hindex⟩ := page.touches_slot v h
  refine fun s => ⟨(refreshedBy_zero s.registers.r).symm, fun op hop => ?_, fun op hop x hx => ?_⟩
  · obtain rfl : i.operation = op := Option.some.inj hop
    exact hflags
  · obtain rfl : i.operation = op := Option.some.inj hop
    exact hnamed x (hindex x hx)

/-- Microcode in front that brings in no opcode byte and keeps R does not matter. -/
theorem skip {α : Type} {m : Microcode α} {g : α → Microcode Resolution}
    (hm : ∀ s, (m s).Yields fun cs q => opcodeBytes cs = [] ∧ q.2.registers.r = s.registers.r)
    (hg : ∀ a, Opens named (g a)) : Opens named (m >>= g) := by
  intro s
  have hbind : (m >>= g) s = (m s).bind fun q => g q.1 q.2 := rfl
  rw [hbind, Activity.yields_bind]
  refine (hm s).mono fun cs q ⟨hcs, hr⟩ => ?_
  refine (hg q.1 q.2).mono fun ds p hopened => ?_
  rw [opcodeBytes_append, hcs, ← hr]
  exact hopened

theorem look {g : Registers → Microcode Resolution} (hg : ∀ k, Opens named (g k)) :
    Opens named (registers >>= g) :=
  skip (fun _ => ⟨rfl, rfl⟩) hg

theorem operand {g : Byte → Microcode Resolution} (hg : ∀ v, Opens named (g v)) :
    Opens named (Microcode.operand >>= g) := by
  refine skip ?_ hg
  rintro ⟨k, latch, delay, _ | bytes⟩
  · exact fun v => ⟨rfl, rfl⟩
  · exact ⟨rfl, rfl⟩

theorem opcode {g : Byte → Microcode Resolution} (hg : ∀ v, Opens (fun bs => named (v :: bs)) (g v)) :
    Opens named (Microcode.opcode >>= g) := by
  rintro ⟨k, latch, delay, _ | bytes⟩
  · exact fun v => (hg v _).mono fun cs q hopened => hopened.cons
  · exact (hg _ _).mono fun cs q hopened => hopened.cons

theorem takeOpcode {v : Byte} {g : Microcode Resolution} (hg : Opens (fun bs => named (v :: bs)) g) :
    Opens named (Microcode.takeOpcode v >>= fun _ => g) :=
  fun _ => (hg _).mono fun _ _ hopened => hopened.cons

end Opens

variable (extensions : Bool)

/-- Only its own prefix leads to an index register. -/
theorem Base.eq_prefixByte (b : Base) {v : Byte} {i : Index} (h : b.opening v = .lead (.index i)) :
    v = i.prefixByte := by
  cases hp : Index.ofPrefix? v with
  | none => exact absurd h (b.opening_ne_index hp i)
  | some j =>
    have hv := Index.ofPrefix?_eq_some.1 hp
    rw [b.opening_prefixed hv] at h
    rw [hv, Lead.index.inj (Opening.lead.inj h)]

/-- Without a further prefix only the base can be touched. -/
theorem Opening.opens {b : Base} {v : Byte} (hnamed : ∀ bs x, b = .index x → named bs x) (seen : Window) :
    Opens named ((b.opening v).resolve extensions seen) := by
  cases ho : b.opening v with
  | instruction i =>
    have hslot : (Page.opening b).slot v = .instruction i := by simp only [Page.slot, ho]
    exact .slot hslot fun x hx => hnamed _ x (Page.opening.inj hx)
  | lead l =>
    cases l with
    | bits =>
      refine .opcode fun w => ?_
      have hslot : Page.bits.slot w = .instruction (bitsPage w) := rfl
      refine .slot hslot fun x hx => ?_
      contradiction
    | extended =>
      refine .opcode fun w => ?_
      cases hw : extendedSlot extensions w with
      | none => exact .pure rfl
      | some i =>
        have hslot : Page.extended.slot w = .instruction i := by
          simp only [Page.slot, (Option.filter_eq_some_iff.1 hw).1]
        refine .slot hslot fun x hx => ?_
        contradiction
    | index i => exact .pure rfl
    | indexedBits i =>
      refine .operand fun d => ?_
      refine .look fun k => ?_
      refine .skip (fun _ => ⟨rfl, rfl⟩) fun _ => ?_
      refine .operand fun w => ?_
      refine .skip (fun _ => ⟨rfl, rfl⟩) fun _ => ?_
      have hslot : (Page.indexedBits i).slot w = .instruction (indexedBitsPage i w) := rfl
      refine .slot hslot fun x hx => ?_
      contradiction

theorem opens_fetchBase {b : Base} (hnamed : ∀ bs x, b = .index x → named bs x) (seen : Window) :
    Opens named (fetchBase extensions seen b) :=
  .opcode fun _ => Opening.opens extensions (fun _ x hx => hnamed _ x hx) _

/-- Fetching from memory names an index register by the prefix carried into the step or by one that it fetches. -/
theorem opens_fetch (carried : Option Index) :
    Opens (fun bs x => carried = some x ∨ x.prefixByte ∈ indexPrefixes bs) (fetch extensions carried) := by
  cases carried with
  | some i => exact opens_fetchBase extensions (fun _ x hx => .inl (congrArg some (Base.index.inj hx))) _
  | none =>
    rw [fetch_eq]
    refine .opcode fun v => ?_
    rw [fetchAfter]
    cases hp : Index.ofPrefix? v with
    | some i =>
      refine opens_fetchBase extensions (fun bs x hx => .inr ?_) _
      rw [Index.ofPrefix?_eq_some.1 hp, indexPrefixes_cons, Base.index.inj hx]
      exact List.mem_cons_self
    | none =>
      refine Opening.opens extensions (fun bs x hx => ?_) _
      contradiction

theorem opens_fetchSupplied (seen : Window) (b : Base) (bytes : List Byte) :
    Opens (fun bs x => b = .index x ∨ x.prefixByte ∈ indexPrefixes bs) (fetchSupplied extensions seen b bytes) := by
  induction bytes generalizing seen b with
  | nil => exact .takeOpcode (Opening.opens extensions (fun _ x hx => .inl hx) _)
  | cons v rest ih =>
    refine .takeOpcode ?_
    have hrest : Opens (fun bs x => b = .index x ∨ x.prefixByte ∈ indexPrefixes (v :: bs)) (do
        modify fun s => { s with supply := some rest }
        (b.opening v).resolve extensions (seen.push v)) :=
      .skip (fun _ => ⟨rfl, rfl⟩) fun _ => Opening.opens extensions (fun _ x hx => .inl hx) _
    cases ho : b.opening v with
    | instruction i =>
      rw [ho] at hrest
      exact hrest
    | lead l =>
      rw [ho] at hrest
      cases l with
      | index i =>
        refine (ih (seen.push v) (.index i)).mono fun bs x hx => .inr ?_
        rw [b.eq_prefixByte ho, indexPrefixes_cons]
        rcases hx with hx | hx
        · rw [Base.index.inj hx]
          exact List.mem_cons_self
        · exact List.mem_cons_of_mem _ hx
      | _ => exact hrest

end Opens

namespace Cpu

variable (c : Cpu)

/-- The microcode with which a step fetches, from memory or from the device whose interrupt it accepts. -/
def sourcing : Microcode Resolution :=
  match c.task with
  | .interrupt => fetchSupplied c.config.extensions .empty .hl c.interruptData
  | _ => fetch c.config.extensions c.carried

/-- The index register was named by the last step, or by a prefix before the other opcode bytes. -/
def Names (bytes : List Byte) (x : Index) : Prop := c.carried = some x ∨ x.prefixByte ∈ indexPrefixes bytes

theorem opens_sourcing : Opens c.Names c.sourcing := by
  rw [sourcing]
  split
  · refine (opens_fetchSupplied c.config.extensions .empty .hl c.interruptData).mono fun bs x hx => ?_
    exact .inr (hx.resolve_left nofun)
  · exact opens_fetch c.config.extensions c.carried

theorem keeps_sourcing {δ : Type} {f : Execution → δ}
    (hf : ∀ (s : Execution) (pc : Word) (r : Byte) (wz : Word) (supply : Option (List Byte)),
      f { s with registers := { s.registers with pc := pc, r := r, wz := wz }, supply := supply } = f s) :
    Keeps f c.sourcing := by
  rw [sourcing]
  split
  · exact keeps_fetchSupplied c.config.extensions hf .empty .hl c.interruptData
  · exact keeps_fetch c.config.extensions hf c.carried

section Outside

variable {β : Type} [Bus β] (bus : β)

/-- The bus when fetching begins: the acknowledgement of an interrupt takes two T-states. -/
def acknowledged : β :=
  match c.task with
  | .interrupt => Bus.tick bus 2
  | _ => bus

def sourced : Outcome β (Resolution × Execution) := on c.sourcing c.entering (c.acknowledged bus)

theorem bank_sourced : (c.sourced bus).value.2.registers.toBank = c.registers.toBank := by
  have hentering : c.entering.registers.toBank = c.registers.toBank := by
    rw [entering]
    split <;> rfl
  exact ((c.keeps_sourcing (f := (·.registers.toBank)) fun _ _ _ _ _ => rfl).on _ _).trans hentering

variable {bus} in
theorem operation?_of_resolution {o : Resolution} (h : c.resolution? bus = some o) :
    c.operation? bus = o.operation? := by
  rw [operation?, h, Option.bind_some]

variable {bus} in
/-- A step that fetches is its fetch and what comes of it. Before the fetch there is at most an acknowledgement. -/
theorem performed_sourcing {o : Resolution} (h : c.resolution? bus = some o) :
    let m := c.sourcing >>= c.complete c.start
    (c.sourced bus).value.1 = o ∧
      (c.performed bus).value = (on m c.entering (c.acknowledged bus)).value ∧
      opcodeBytes (c.history bus) = opcodeBytes (Microcode.history m c.entering (c.acknowledged bus)) := by
  rw [resolution?] at h
  cases ht : c.task with
  | instruction carried =>
    obtain rfl := eq_carried_of_task ht
    rw [ht] at h
    simp only [sourced, sourcing, entering, acknowledged, performed, history_eq, ht, perform]
    rw [on, on, Microcode.history, runInstruction_starting]
    exact ⟨Option.some.inj h, rfl, rfl⟩
  | interrupt =>
    by_cases hm : c.registers.im = 0
    · have hstart : c.start = c.registers.pc := by rw [start, (task_eq_interrupt.1 ht).1]
      rw [ht] at h
      simp only [hm, ↓reduceIte] at h
      simp only [sourced, sourcing, entering, acknowledged, performed, history_eq, ht, perform, hstart]
      rw [on, on, Microcode.history, c.acceptInterrupt_eq hm]
      exact ⟨Option.some.inj h, rfl, rfl⟩
    · rw [ht] at h
      simp only [hm, ↓reduceIte] at h
      contradiction
  | nmi | idle =>
    rw [ht] at h
    contradiction

variable {bus} in
theorem performed_sourced {o : Resolution} (h : c.resolution? bus = some o) :
    (c.performed bus).value = (on (c.complete c.start o) (c.sourced bus).value.2 (c.sourced bus).bus).value ∧
      opcodeBytes (c.history bus) = opcodeBytes (Microcode.history c.sourcing c.entering (c.acknowledged bus)) := by
  obtain ⟨ho, hvalue, hbytes⟩ := c.performed_sourcing h
  have hcomplete : opcodeBytes
      (Microcode.history (c.complete c.start o) (c.sourced bus).value.2 (c.sourced bus).bus) = [] :=
    List.filterMap_eq_nil_iff.2 fun x hx => ((c.makes_complete c.start o _).history _ x hx).2
  rw [on_bind] at hvalue
  rw [history_bind, opcodeBytes_append] at hbytes
  refine ⟨hvalue.trans ?_, hbytes.trans ?_⟩
  · rw [← ho]
    rfl
  · rw [← ho] at hcomplete
    exact (congrArg (_ ++ ·) hcomplete).trans (List.append_nil _)

variable {bus} in
/-- The opcode bytes of a step that fetches bring R and the operation about. -/
theorem opened_sourced {o : Resolution} (h : c.resolution? bus = some o) :
    Opened c.Names c.registers.r (opcodeBytes (c.history bus)) o
      (c.sourced bus).value.2.registers.r := by
  have hopened := c.opens_sourcing.on c.entering (c.acknowledged bus)
  have hr : c.entering.registers.r = c.registers.r := by
    rw [entering]
    split <;> rfl
  rw [(c.performed_sourced h).2, ← hr, ← (c.performed_sourcing h).1]
  exact hopened

/-- Of what has been fetched an operation is executed, and all else leaves the processor as the fetch has. -/
theorem value_complete (start : Word) (o : Resolution) (s : Execution) :
    (on (c.complete start o) s bus).value.2 =
      o.operation?.elim s fun op => (on (op.execute c.config c.latch) s bus).value.2 := by
  cases o with
  | instruction i =>
    simp only [complete, on_bind, on_pure, Outcome.value_after]
    rfl
  | carry i => rfl
  | undefined w => cases h : c.config.undefined <;> simp only [complete, h] <;> rfl

variable {bus} in
theorem value_sourced {o : Resolution} (h : c.resolution? bus = some o) :
    (c.performed bus).value.2 =
      o.operation?.elim (c.sourced bus).value.2 fun op =>
        (on (op.execute c.config c.latch) (c.sourced bus).value.2 (c.sourced bus).bus).value.2 := by
  rw [(c.performed_sourced h).1, value_complete]

variable {bus} in
theorem value_executed {op : Operation} (h : c.operation? bus = some op) :
    (c.performed bus).value.2 =
      (on (op.execute c.config c.latch) (c.sourced bus).value.2 (c.sourced bus).bus).value.2 := by
  obtain ⟨o, ho, hop⟩ := Option.bind_eq_some_iff.1 h
  rw [c.value_sourced ho, hop]
  rfl

variable {bus} in
/-- A step that fetches nothing moves R once, and else at most SP, the program counter, WZ and the interrupt state. -/
theorem registers_unfetched (h : c.resolution? bus = none) :
    ∃ sp pc wz iff1 iff2 halted, (c.performed bus).value.2.registers =
      { c.registers with r := refreshedBy 1 c.registers.r, sp, pc, wz, iff1, iff2, halted } := by
  rw [performed]
  cases ht : c.task with
  | instruction carried =>
    rw [resolution?, ht] at h
    contradiction
  | nmi | idle => exact ⟨_, _, _, _, _, _, rfl⟩
  | interrupt =>
    rw [perform, on, c.acceptInterrupt_vectored (im_ne_zero ht h), vectored]
    split <;> exact ⟨_, _, _, _, _, _, rfl⟩

end Outside

end Cpu

end Z80Machine
