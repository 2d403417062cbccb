import Z80Machine.Proofs.Timing

/-!
Bit operations behind two prefixes. They are the operations of the bits page on memory at the displaced index register,
where WZ holds the address. The byte that is written goes to the register of the register field as well, and a test
does not look at the register field at all.
-/
namespace Z80Machine

open Microcode

/-- The address of a pointer that takes no displacement from the instruction. -/
def Pointer.settled? (k : Registers) : Pointer → Option Word
  | .hl => some k.hl
  | .latched _ => some k.wz
  | .displaced _ => none

/-- What the bit operation of the byte `o` makes of a byte in memory: the flags, if it sets them, and the byte to be
written, if there is one. -/
def bitEffect (o : Byte) (f : Flags) (wz : Word) (v : Byte) : Option Flags × Option Byte :=
  match Opcode.x o with
  | 0 =>
    let r := (Shift.ofCode (Opcode.y o)).apply v f.carry
    (some r.flags, some r.value)
  | 1 => (some (testBit f (Opcode.y o) v wz.high), none)
  | 2 => (none, some (resetBit (Opcode.y o) v))
  | _ => (none, some (setBit (Opcode.y o) v))

/-- The registers with the byte that is written, if there is one, in the register that receives a copy. -/
def Registers.copying (k : Registers) : Option Register → Option Byte → Registers
  | some r, some v => k.set r v
  | _, _ => k

@[simp] theorem Registers.copying_none (k : Registers) (copy : Option Register) : k.copying copy none = k := by
  cases copy <;> rfl

@[simp] theorem Registers.copying_some (k : Registers) (copy : Option Register) (v : Byte) :
    k.copying copy (some v) = copy.elim k fun r => k.set r v := by
  cases copy <;> rfl

section Effect

variable (o : Byte)

theorem Opcode.x_cases : Opcode.x o = 0 ∨ Opcode.x o = 1 ∨ Opcode.x o = 2 ∨ Opcode.x o = 3 := by
  revert o
  decide

theorem on_bits (p : Pointer) (copy : Option Register) {a : Word} (s : Execution) (bus : FlatBus)
    (ha : p.settled? s.registers = some a) :
    let e := bitEffect o s.registers.f s.registers.wz (bus.memory.get a)
    let m := (BitOperation.ofByte o (.memory p) copy).execute
    let t := on m s bus
    t.value.2 =
        { s with
          registers := { s.registers with f := e.1.getD s.registers.f }.copying copy e.2
          latch := e.1.getD s.latch } ∧
      t.bus.memory = e.2.elim bus.memory (bus.memory.set a) ∧
      t.elapsed = e.2.elim 4 (fun _ => 7) ∧
      dataAccesses (history m s bus) =
        (.memoryRead, a, bus.memory.get a) :: e.2.elim [] fun v => [(.memoryWrite, a, v)] := by
  intro e m t
  cases p with
  | displaced i => contradiction
  | hl | latched i =>
    obtain rfl := Option.some.inj ha
    rcases Opcode.x_cases o with h | h | h | h <;> rcases copy with _ | r <;>
      simp only [t, m, e, BitOperation.ofByte, bitEffect, h] <;> exact ⟨rfl, rfl, rfl, rfl⟩

theorem snd_bitEffect (f : Flags) (wz : Word) (v : Byte) :
    if Opcode.x o = 1 then (bitEffect o f wz v).2 = none else ∃ u, (bitEffect o f wz v).2 = some u := by
  rcases Opcode.x_cases o with h | h | h | h <;> simp [bitEffect, h]

theorem bitEffect_congr {o o' : Byte} (hx : Opcode.x o' = Opcode.x o) (hy : Opcode.y o' = Opcode.y o) :
    bitEffect o' = bitEffect o := by
  funext f wz v
  simp only [bitEffect, hx, hy]

end Effect

section Pages

/-- The byte with the register field that stands for memory at HL. -/
def atHlField (o : Byte) : Byte := o &&& 0xF8 ||| 6

theorem bitsPage_atHl (o : Byte) :
    (bitsPage (atHlField o)).operation = .bit (BitOperation.ofByte o (.memory .hl) none) := by
  have hx : ∀ o, Opcode.x (atHlField o) = Opcode.x o := by decide
  have hy : ∀ o, Opcode.y (atHlField o) = Opcode.y o := by decide
  have hz : ∀ o, Opcode.z (atHlField o) = 6 := by decide
  simp only [bitsPage, BitOperation.ofByte, hx, hy, hz]
  rfl

theorem followBase_slice {m : Memory} {a : Word} {n : Nat} {d o : Byte} (i : Index) (h : m.slice a n = [0xCB, d, o]) :
    n = 3 ∧
      followBase m (.index i) a =
        { base := .index i, page := .indexedBits i, byte := o, opcode := [0xCB], operands := [d, o] } := by
  obtain rfl : n = 3 := by simpa using congrArg List.length h
  simp only [Memory.slice, BitVec.add_assoc, List.cons.injEq, and_true] at h
  obtain ⟨hb, rfl, rfl⟩ := h
  rw [followBase_indexedBits m i hb, hb]
  exact ⟨rfl, rfl⟩

end Pages

namespace Cpu

variable {c : Cpu} {i : Index} {d o : Byte} {n : Nat}

/-- The bytes from the program counter on, with a carried prefix in front, lead to the page of indexed bits. -/
theorem target_indexedBits {m : Memory}
    (h : (c.carried.map Index.prefixByte).toList ++ m.slice c.registers.pc n = [i.prefixByte, 0xCB, d, o]) :
    ∃ opcode, c.target m = { base := .index i, page := .indexedBits i, byte := o, opcode, operands := [d, o] } ∧
      n = opcode.length + 2 := by
  cases hc : c.carried with
  | some j =>
    rw [hc] at h
    obtain ⟨hj, hslice⟩ := List.cons.inj h
    obtain rfl : j = i := by
      cases j <;> cases i <;> first | rfl | contradiction
    obtain ⟨hn, hfollow⟩ := followBase_slice j hslice
    refine ⟨[0xCB], ?_, hn⟩
    rw [target, hc]
    exact hfollow
  | none =>
    rw [hc] at h
    obtain ⟨n, rfl, hi, hslice⟩ := Memory.slice_eq_cons.1 h
    obtain ⟨hn, hfollow⟩ := followBase_slice i hslice
    refine ⟨[i.prefixByte, 0xCB], ?_, congrArg (· + 1) hn⟩
    rw [target, hc, follow_indexed m hi, hfollow, hi]

theorem step_bitEffect {bus : FlatBus} (ht : c.task = .instruction c.carried)
    (hbytes : (c.carried.map Index.prefixByte).toList ++ bus.memory.slice c.registers.pc n =
      [i.prefixByte, 0xCB, d, o])
    {a : Word} (ha : (c.registers.index i).displace d = a) {e : Option Flags × Option Byte}
    (he : bitEffect o c.registers.f a (bus.memory.get a) = e) :
    let k : Registers :=
      { c.registers with
        pc := c.registers.pc + BitVec.ofNat 16 n
        r := refreshedBy (n - 2) c.registers.r
        wz := a
        f := e.1.getD c.registers.f }
    let s : Execution := { registers := k.copying (Register.ofCode? .hl (Opcode.z o)) e.2, latch := e.1.getD .clear }
    let t := 4 * (n - 2) + 8 + e.2.elim 4 fun _ => 7
    (c.step bus).result = .ok (BitVec.ofNat 32 t) ∧
      (c.step bus).cpu =
        { c.afterStep (.instruction c.carried) (.ok none) s with total := c.total.later t } ∧
      (c.step bus).bus.memory = e.2.elim bus.memory (bus.memory.set a) ∧
      dataAccesses (c.history bus) =
        (.memoryRead, a, bus.memory.get a) :: e.2.elim [] fun v => [(.memoryWrite, a, v)] := by
  intro k s t
  obtain ⟨opcode, htarget, rfl⟩ := target_indexedBits hbytes
  have hslot : (c.target bus.memory).page.slot (c.target bus.memory).byte = .instruction (indexedBitsPage i o) := by
    rw [htarget]
    rfl
  have htime : (c.target bus.memory).time = 4 * opcode.length + 8 := by
    rw [htarget]
    rfl
  let m := (indexedBitsPage i o).operation.execute c.config c.latch
  let fetched : Execution := { registers := (c.target bus.memory).fetched c.registers }
  have hexecuted : (on m fetched bus).value.2 = s ∧ (on m fetched bus).bus.memory = e.2.elim bus.memory (bus.memory.set a) ∧
      (on m fetched bus).elapsed = e.2.elim 4 (fun _ => 7) ∧
      dataAccesses (Microcode.history m fetched bus) =
        (.memoryRead, a, bus.memory.get a) :: e.2.elim [] fun v => [(.memoryWrite, a, v)] := by
    have hfetched : (c.target bus.memory).fetched c.registers =
        { c.registers with
          pc := c.registers.pc + BitVec.ofNat 16 (opcode.length + 2)
          r := refreshedBy opcode.length c.registers.r
          wz := a } := by
      rw [htarget, ← ha]
      rfl
    subst he
    simp only [fetched, hfetched]
    exact on_bits o (.latched i) (Register.ofCode? .hl (Opcode.z o)) _ bus rfl
  obtain ⟨hvalue, hmemory, helapsed, hbits⟩ := hexecuted
  obtain ⟨hresult, hcpu, hbus, haccesses⟩ := step_slot c bus ht hslot nofun
  rw [htime, helapsed] at hresult hcpu
  rw [hvalue] at hcpu
  exact ⟨hresult, hcpu, hbus.memory.trans hmemory, haccesses.trans hbits⟩

/-- Behind two prefixes a bit operation does in memory at the displaced index register what it does on the bits page
in memory at HL, and copies the byte that it writes. Tests of the same bit do not differ. -/
theorem step_indexedBits (c : Cpu) (bus : FlatBus) {i : Index} {d o : Byte} {n : Nat}
    (ht : c.task = .instruction c.carried)
    (hbytes : (c.carried.map Index.prefixByte).toList ++ bus.memory.slice c.registers.pc n =
      [i.prefixByte, 0xCB, d, o]) :
    let a := (c.registers.index i).displace d
    let m := (bitsPage (atHlField o)).operation.execute c.config c.latch
    let s : Execution := { registers := { c.registers.withHl a with wz := a } }
    let plain := on m s bus
    let k : Registers :=
      { c.registers with
        pc := c.registers.pc + BitVec.ofNat 16 n
        r := refreshedBy (n - 2) c.registers.r
        wz := a
        f := plain.value.2.registers.f }
    let copy := if Opcode.x o = 1 then none else Register.ofCode? .hl (Opcode.z o)
    (c.step bus).result = .ok (BitVec.ofNat 32 (4 * (n - 2) + 8 + plain.elapsed)) ∧
      (c.step bus).bus.memory = plain.bus.memory ∧
      (c.step bus).cpu.registers = copy.elim k (fun r => k.set r (plain.bus.memory.get a)) ∧
      dataAccesses (c.history bus) = dataAccesses (Microcode.history m s bus) ∧
      (Opcode.x o = 1 → ∀ (bus' : FlatBus) (o' : Byte),
        Opcode.x o' = 1 → Opcode.y o' = Opcode.y o → bus'.memory.get a = bus.memory.get a →
        (c.carried.map Index.prefixByte).toList ++ bus'.memory.slice c.registers.pc n = [i.prefixByte, 0xCB, d, o'] →
        (c.step bus').result = (c.step bus).result ∧ (c.step bus').cpu = (c.step bus).cpu ∧
          (c.step bus').bus.memory = bus'.memory ∧
          dataAccesses (c.history bus') = dataAccesses (c.history bus)) := by
  intro a m s plain k copy
  let e := bitEffect o c.registers.f a (bus.memory.get a)
  have hplain : plain.value.2.registers.f = e.1.getD c.registers.f ∧
      plain.bus.memory = e.2.elim bus.memory (bus.memory.set a) ∧ plain.elapsed = e.2.elim 4 (fun _ => 7) ∧
      dataAccesses (Microcode.history m s bus) =
        (.memoryRead, a, bus.memory.get a) :: e.2.elim [] fun v => [(.memoryWrite, a, v)] := by
    have hm : m = (BitOperation.ofByte o (.memory .hl) none).execute := by
      simp only [m, bitsPage_atHl]
      rfl
    obtain ⟨hvalue, hrest⟩ := on_bits o .hl none s bus (congrArg some (Registers.hl_withHl c.registers a))
    simp only [plain, hm]
    exact ⟨congrArg (fun t => t.registers.f) hvalue, hrest⟩
  obtain ⟨hf, hmemory, helapsed, hbits⟩ := hplain
  obtain ⟨hresult', hcpu', hmemory', haccesses'⟩ := step_bitEffect ht hbytes (a := a) rfl (e := e) rfl
  have hwritten := snd_bitEffect o c.registers.f a (bus.memory.get a)
  refine ⟨?_, hmemory'.trans hmemory.symm, ?_, haccesses'.trans hbits.symm, ?_⟩
  · rw [hresult', helapsed]
  · rw [hcpu', hmemory]
    by_cases hx : Opcode.x o = 1
    · have hnone : e.2 = none := by simpa only [hx, ↓reduceIte] using hwritten
      simp only [copy, hx, ↓reduceIte, hnone, Registers.copying_none]
      rw [← hf]
      rfl
    · obtain ⟨u, hu⟩ : ∃ u, e.2 = some u := by simpa only [hx, ↓reduceIte] using hwritten
      simp only [copy, hx, ↓reduceIte, hu, Option.elim_some, Memory.get_set_self, Registers.copying_some]
      rw [← hf]
      rfl
  · intro hx bus' o' hx' hy hget hbytes'
    have hnone : e.2 = none := by simpa only [hx, ↓reduceIte] using hwritten
    have he : bitEffect o' c.registers.f a (bus'.memory.get a) = e := by
      rw [bitEffect_congr (hx'.trans hx.symm) hy, hget]
    obtain ⟨hresult'', hcpu'', hmemory'', haccesses''⟩ := step_bitEffect ht hbytes' (a := a) rfl he
    refine ⟨hresult''.trans hresult'.symm, ?_, ?_, ?_⟩
    · rw [hcpu', hcpu'', hnone]
      simp only [Registers.copying_none]
    · rw [hmemory'', hnone]
      rfl
    · rw [haccesses'', haccesses', hget]

/-- A set of bit 0 five bytes past IX that is copied to B. -/
theorem step_indexedBits_set :
    let c : Cpu := { registers := { ix := 0x8000 } }
    let bus : FlatBus := { memory := Memory.zero.load 0 [0xDD, 0xCB, 0x05, 0xC0] }
    (c.step bus).bus.memory.get 0x8005 = 1 ∧ (c.step bus).cpu.registers.b = 1 := by
  intro c bus
  have hbytes : (c.carried.map Index.prefixByte).toList ++ bus.memory.slice c.registers.pc 4 =
      [Index.ix.prefixByte, 0xCB, 0x05, 0xC0] := by
    simp [c, bus, Memory.slice, Memory.load, Memory.get_set, Index.prefixByte]
  have hzero : bus.memory.get 0x8005 = 0 := by
    simp [bus, Memory.load, Memory.get_set]
  obtain ⟨-, hmemory, hregisters, -⟩ := step_indexedBits c bus rfl hbytes
  have ha : (c.registers.index .ix).displace 0x05 = 0x8005 := by decide
  rw [ha, bitsPage_atHl] at hmemory hregisters
  have hplain := on_bits 0xC0 .hl none { registers := { c.registers.withHl 0x8005 with wz := 0x8005 } } bus
    (congrArg some (Registers.hl_withHl c.registers 0x8005))
  have hone : (c.step bus).bus.memory.get 0x8005 = 1 := by
    rw [hmemory]
    refine (congrArg (·.get 0x8005) hplain.2.1).trans ?_
    exact (Memory.get_set_self ..).trans (congrArg (setBit 0) hzero)
  refine ⟨hone, ?_⟩
  rw [hmemory] at hone
  exact (congrArg (·.b) hregisters).trans hone

end Cpu

end Z80Machine
