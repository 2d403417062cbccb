import Mathlib.Data.List.Induction
import Z80Machine.Proofs.Conservation

/-!
The plain bus as what its uses say. Whatever is done with a new bus, in whatever order, memory holds at each address
the byte stored there last, a port gives what it was last set to, the clock shows the T-states that have passed, and the
log lists the accesses since it was switched on and last emptied.
-/
namespace Z80Machine

/-- The value that stands last with a key. -/
def latest? (k : Word) (pairs : List (Word × Byte)) : Option Byte := pairs.reverse.lookup k

section Latest

variable (k : Word)

theorem latest?_singleton (a : Word) (v : Byte) : latest? k [(a, v)] = if k = a then some v else none := by
  rw [latest?, List.reverse_singleton, List.lookup_cons]
  by_cases h : k = a
  · rw [if_pos h, beq_iff_eq.2 h]
  · rw [if_neg h, beq_false_of_ne h]
    rfl

theorem latest?_append (xs ys : List (Word × Byte)) :
    latest? k (xs ++ ys) = (latest? k ys).or (latest? k xs) := by
  rw [latest?, List.reverse_append, List.lookup_append]
  rfl

end Latest

/-- The bytes with the addresses at which they lie from `a` on. -/
def placed (a : Word) (vs : List Byte) : List (Word × Byte) := vs.mapIdx fun i v => (a + BitVec.ofNat 16 i, v)

theorem placed_cons (a : Word) (v : Byte) (vs : List Byte) : placed a (v :: vs) = [(a, v)] ++ placed (a + 1) vs := by
  have hfirst : a + BitVec.ofNat 16 0 = a := BitVec.add_zero a
  simp only [placed, List.mapIdx_cons, next_address, hfirst, List.singleton_append]

namespace Memory

theorem get_set_latest (m : Memory) (a k : Word) (v : Byte) :
    (m.set a v).get k = (latest? k [(a, v)]).getD (m.get k) := by
  rw [get_set, latest?_singleton]
  split <;> rfl

/-- Where bytes are loaded over each other the later one stays. -/
theorem get_load (m : Memory) (a k : Word) (vs : List Byte) :
    (m.load a vs).get k = (latest? k (placed a vs)).getD (m.get k) := by
  induction vs generalizing m a with
  | nil => rfl
  | cons v vs ih => rw [load, ih, get_set_latest, placed_cons, latest?_append, Option.getD_or]

end Memory

namespace FlatBus

/-- What can be done with a plain bus. -/
inductive Use where
  | load (a : Word) (vs : List Byte)
  | poke (a : Word) (v : Byte)
  | setPort (p : Word) (v : Byte)
  | read (a : Word)
  | write (a : Word) (v : Byte)
  | input (p : Word)
  | output (p : Word) (v : Byte)
  | tick (n : Nat)
  | withLog
  | withoutEvents
  deriving DecidableEq

def used (b : FlatBus) : Use → FlatBus
  | .load a vs => b.load a vs
  | .poke a v => b.poke a v
  | .setPort p v => b.setPort p v
  | .read a => (Bus.read b a).2
  | .write a v => Bus.write b a v
  | .input p => (Bus.input b p).2
  | .output p v => Bus.output b p v
  | .tick n => Bus.tick b n
  | .withLog => b.withLog
  | .withoutEvents => b.withoutEvents

def ofUses (uses : List Use) : FlatBus := uses.foldl used {}

namespace Use

def stores : Use → List (Word × Byte)
  | .load a vs => placed a vs
  | .poke a v | .write a v => [(a, v)]
  | _ => []

def settings : Use → List (Word × Byte)
  | .setPort p v => [(p, v)]
  | _ => []

def time : Use → Nat
  | .tick n => n
  | _ => 0

/-- The access that a use makes, at a time when memory and ports hold what is given. -/
def event? (time : Nat) (memory ports : Word → Byte) : Use → Option Event
  | .read a => some ⟨time, .memoryRead, a, memory a⟩
  | .write a v => some ⟨time, .memoryWrite, a, v⟩
  | .input p => some ⟨time, .portRead, p, ports p⟩
  | .output p v => some ⟨time, .portWrite, p, v⟩
  | _ => none

end Use

/-- The byte stored last at an address, zero where none has been. -/
def held (uses : List Use) (a : Word) : Byte := (latest? a (uses.flatMap Use.stores)).getD 0

/-- What a port was last set to, all ones if it never was. -/
def setting (uses : List Use) (p : Word) : Byte := (latest? p (uses.flatMap Use.settings)).getD 0xFF

def timePassed (uses : List Use) : Nat := Ticks.sum (uses.map Use.time)

/-- The accesses of `uses`, when `before` has come before them. -/
def events (before : List Use) : List Use → List Event
  | [] => []
  | x :: uses => (x.event? (timePassed before) (held before) (setting before)).toList ++ events (before ++ [x]) uses

/-- How many uses come before those of which the log tells: it begins where it is first switched on, or after the last
time it is emptied, whichever is later. -/
def logStart (uses : List Use) : Nat :=
  max (uses.idxOf .withLog) (uses.length - uses.reverse.idxOf .withoutEvents)

section Used

variable (b : FlatBus) (x : Use)

theorem peek_used (a : Word) : (b.used x).peek a = (latest? a x.stores).getD (b.peek a) := by
  cases x with
  | load a' vs => exact b.memory.get_load a' a vs
  | poke a' v | write a' v => exact b.memory.get_set_latest a' a v
  | _ => rfl

theorem ports_used (p : Word) : (b.used x).ports p = (latest? p x.settings).getD (b.ports p) := by
  cases x with
  | setPort p' v =>
    rw [used, ports_setPort, Use.settings, latest?_singleton]
    split <;> rfl
  | _ => rfl

theorem clock_used : (b.used x).clock = b.clock + x.time := by
  cases x <;> rfl

theorem log_used (hon : x ≠ .withLog) (hempty : x ≠ .withoutEvents) :
    (b.used x).log? = b.log?.map (· ++ (x.event? b.clock b.peek b.ports).toList.toArray) := by
  cases x with
  | withLog | withoutEvents => contradiction
  | read | write | input | output => simp [used, Bus.read, Bus.write, Bus.input, Bus.output, record, poke, Use.event?]
  | _ => simp [used, load, poke, setPort, Bus.tick, Use.event?]

end Used

section Views

variable (uses : List Use) (x : Use)

theorem ofUses_concat : ofUses (uses ++ [x]) = (ofUses uses).used x := by
  rw [ofUses, List.foldl_append]
  rfl

theorem peek_ofUses (a : Word) : (ofUses uses).peek a = held uses a := by
  induction uses using List.reverseRecOn with
  | nil => exact Memory.get_zero a
  | append_singleton uses x ih =>
    rw [ofUses_concat, peek_used, ih, held, held, List.flatMap_append, List.flatMap_singleton, latest?_append,
      Option.getD_or]

theorem ports_ofUses (p : Word) : (ofUses uses).ports p = setting uses p := by
  induction uses using List.reverseRecOn with
  | nil => rfl
  | append_singleton uses x ih =>
    rw [ofUses_concat, ports_used, ih, setting, setting, List.flatMap_append, List.flatMap_singleton, latest?_append,
      Option.getD_or]

theorem clock_ofUses : (ofUses uses).clock = timePassed uses := by
  induction uses using List.reverseRecOn with
  | nil => rfl
  | append_singleton uses x ih =>
    rw [ofUses_concat, clock_used, ih, timePassed, timePassed, List.map_append, Ticks.sum_append]
    rfl

end Views

section Log

variable (before uses : List Use) (x : Use)

theorem events_concat :
    events before (uses ++ [x]) =
      events before uses ++
        (x.event? (timePassed (before ++ uses)) (held (before ++ uses)) (setting (before ++ uses))).toList := by
  induction uses generalizing before with
  | nil => simp [events]
  | cons y uses ih => simp [events, ih]

theorem logStart_le : logStart uses ≤ uses.length := Nat.max_le.2 ⟨List.idxOf_le_length, Nat.sub_le ..⟩

theorem logStart_of_off (h : .withLog ∉ uses) : logStart uses = uses.length := by
  rw [logStart, List.idxOf_eq_length h]
  exact Nat.max_eq_left (Nat.sub_le ..)

theorem reverse_concat_idxOf : (uses ++ [x]).reverse.idxOf .withoutEvents =
    if x = .withoutEvents then 0 else uses.reverse.idxOf .withoutEvents + 1 := by
  rw [List.reverse_append, List.reverse_singleton, List.singleton_append, List.idxOf_cons, Bool.cond_eq_ite]
  exact if_congr beq_iff_eq rfl rfl

variable {uses x}

/-- Where the log begins, once it is on, changes only by emptying it. -/
theorem logStart_concat (hon : .withLog ∈ uses) (hx : x ≠ .withoutEvents) : logStart (uses ++ [x]) = logStart uses := by
  rw [logStart, logStart, List.idxOf_append, if_pos hon, reverse_concat_idxOf, if_neg hx, List.length_append,
    List.length_singleton, Nat.add_sub_add_right]

theorem logStart_concat_withLog (hoff : .withLog ∉ uses) : logStart (uses ++ [.withLog]) = uses.length := by
  rw [logStart, List.idxOf_append, if_neg hoff, reverse_concat_idxOf, if_neg nofun, List.idxOf_cons_self,
    List.length_append, List.length_singleton, Nat.add_sub_add_right, Nat.zero_add]
  exact Nat.max_eq_left (Nat.sub_le ..)

theorem logStart_concat_withoutEvents : logStart (uses ++ [.withoutEvents]) = uses.length + 1 := by
  have hle := logStart_le (uses ++ [.withoutEvents])
  rw [List.length_append, List.length_singleton] at hle
  refine Nat.le_antisymm hle ?_
  rw [logStart, reverse_concat_idxOf, if_pos rfl, List.length_append, List.length_singleton]
  exact Nat.le_max_right ..

/-- The accesses of which the log tells after these uses. -/
def recorded (uses : List Use) : List Event := events (uses.take (logStart uses)) (uses.drop (logStart uses))

theorem recorded_of_off (hoff : .withLog ∉ uses) : recorded uses = [] := by
  rw [recorded, logStart_of_off uses hoff, List.drop_length]
  rfl

theorem recorded_concat (hon : .withLog ∈ uses) (hx : x ≠ .withoutEvents) :
    recorded (uses ++ [x]) =
      recorded uses ++ (x.event? (timePassed uses) (held uses) (setting uses)).toList := by
  have hle := logStart_le uses
  rw [recorded, logStart_concat hon hx, List.take_append_of_le_length hle, List.drop_append_of_le_length hle,
    events_concat, List.take_append_drop]
  rfl

theorem recorded_concat_withLog (hoff : .withLog ∉ uses) : recorded (uses ++ [.withLog]) = [] := by
  rw [recorded, logStart_concat_withLog hoff, List.drop_left]
  rfl

theorem recorded_concat_withoutEvents : recorded (uses ++ [.withoutEvents]) = [] := by
  rw [recorded, logStart_concat_withoutEvents, List.drop_eq_nil_of_le (by simp)]
  rfl

variable (uses) in
/-- The log that a new bus has after its uses, if it has been switched on. -/
theorem log_ofUses : (ofUses uses).log? = if .withLog ∈ uses then some (recorded uses).toArray else none := by
  induction uses using List.reverseRecOn with
  | nil => rfl
  | append_singleton uses x ih =>
    rw [ofUses_concat]
    by_cases hon : .withLog ∈ uses
    · rw [if_pos hon] at ih
      rw [if_pos (List.mem_append_left _ hon)]
      -- a log that is on is emptied, is switched on again, or goes on
      by_cases hempty : x = .withoutEvents
      · rw [hempty, recorded_concat_withoutEvents, used, withoutEvents, ih]
        rfl
      rw [recorded_concat hon hempty]
      by_cases hagain : x = .withLog
      · rw [hagain, used, withLog, log, ih]
        exact congrArg (some ·.toArray) (List.append_nil (recorded uses)).symm
      · rw [log_used _ _ hagain hempty, ih, clock_ofUses, funext (peek_ofUses uses), funext (ports_ofUses uses),
          Option.map_some, List.append_toArray]
    · rw [if_neg hon] at ih
      by_cases hfirst : x = .withLog
      · rw [hfirst, recorded_concat_withLog hon, used, withLog, log, ih, if_pos (by simp)]
        rfl
      rw [if_neg (by simp [hon, Ne.symm hfirst])]
      by_cases hempty : x = .withoutEvents
      · rw [hempty, used, withoutEvents, ih]
        rfl
      · rw [log_used _ _ hfirst hempty, ih]
        rfl

end Log

theorem withLog_eq_self_iff (b : FlatBus) : b.withLog = b ↔ b.log?.isSome := by
  constructor
  · intro h
    rw [← h]
    rfl
  · intro h
    obtain ⟨events, hlog⟩ := Option.isSome_iff_exists.1 h
    rw [withLog, log, hlog, Option.getD_some, ← hlog]

/-- A new bus after any uses. Memory shows at each address, to a read as well, the byte that was stored there last, and a
port shows what it was last set to; where there is no such byte they show zero and all ones. The clock shows the time
that has passed. The log lists the accesses, each with its value and the time before it, since it was first switched on
or last emptied, whichever was later, and switching it on again changes nothing. -/
theorem observed_uses (uses : List Use) :
    let b := ofUses uses
    (∀ a, b.peek a = held uses a ∧ (Bus.read b a).1 = held uses a) ∧
      (∀ p, (Bus.input b p).1 = setting uses p) ∧
      b.clock = timePassed uses ∧
      b.log.toList = events (uses.take (logStart uses)) (uses.drop (logStart uses)) ∧
      (b.withLog = b ↔ .withLog ∈ uses) := by
  intro b
  have hlog : b.log? = _ := log_ofUses uses
  refine ⟨fun a => ⟨peek_ofUses uses a, peek_ofUses uses a⟩, ports_ofUses uses, clock_ofUses uses, ?_, ?_⟩
  · show b.log.toList = recorded uses
    by_cases hon : .withLog ∈ uses
    · simp [log, hlog, hon]
    · simp [log, hlog, hon, recorded_of_off hon]
  · rw [withLog_eq_self_iff, hlog]
    by_cases hon : .withLog ∈ uses <;> simp [hon]

example : held [.load 0xFFFF [0x12, 0x34], .output 0 0x56] 0 = 0x34 := by decide

example : recorded [.read 0, .withLog, .tick 4, .output 0x243B 7, .withoutEvents, .withLog, .input 0x243B] =
    [⟨4, .portRead, 0x243B, 0xFF⟩] := by decide

end FlatBus

end Z80Machine
