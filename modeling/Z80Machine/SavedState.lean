import Z80Machine.Config
import Z80Machine.Document.Layout
import Z80Machine.Registers

/-!
Saved registers, which have to be complete, and saved configurations, in which a missing field has its
usual value. `Registers.restore?_save` and `Config.restore?_save` say that nothing is lost.
-/
namespace Z80Machine

namespace Registers

def layout : Layout Registers where
  fields :=
    [.unsigned "a" (·.a) fun k v => { k with a := v },
     .unsigned "f" (·.f.toByte) fun k v => { k with f := .ofByte v },
     .unsigned "b" (·.b) fun k v => { k with b := v },
     .unsigned "c" (·.c) fun k v => { k with c := v },
     .unsigned "d" (·.d) fun k v => { k with d := v },
     .unsigned "e" (·.e) fun k v => { k with e := v },
     .unsigned "h" (·.h) fun k v => { k with h := v },
     .unsigned "l" (·.l) fun k v => { k with l := v },
     .unsigned "a_alt" (·.shadow.a) fun k v => { k with shadow.a := v },
     .unsigned "f_alt" (·.shadow.f.toByte) fun k v => { k with shadow.f := .ofByte v },
     .unsigned "b_alt" (·.shadow.b) fun k v => { k with shadow.b := v },
     .unsigned "c_alt" (·.shadow.c) fun k v => { k with shadow.c := v },
     .unsigned "d_alt" (·.shadow.d) fun k v => { k with shadow.d := v },
     .unsigned "e_alt" (·.shadow.e) fun k v => { k with shadow.e := v },
     .unsigned "h_alt" (·.shadow.h) fun k v => { k with shadow.h := v },
     .unsigned "l_alt" (·.shadow.l) fun k v => { k with shadow.l := v },
     .unsigned "ix" (·.ix) fun k v => { k with ix := v },
     .unsigned "iy" (·.iy) fun k v => { k with iy := v },
     .unsigned "sp" (·.sp) fun k v => { k with sp := v },
     .unsigned "pc" (·.pc) fun k v => { k with pc := v },
     .unsigned "i" (·.i) fun k v => { k with i := v },
     .unsigned "r" (·.r) fun k v => { k with r := v },
     .unsigned "wz" (·.wz) fun k v => { k with wz := v },
     .bool "iff1" (·.iff1) fun k v => { k with iff1 := v },
     .bool "iff2" (·.iff2) fun k v => { k with iff2 := v },
     .unsigned "im" (·.im) fun k v => { k with im := v },
     .bool "halted" (·.halted) fun k v => { k with halted := v }]
  start := {}
  complete := true

def save (k : Registers) : Document := layout.save k

def restore? (d : Document) : Option Registers := layout.restore? d

theorem restore?_save (k : Registers) : restore? k.save = some k := by
  simp [restore?, save, layout, Layout.restore?, Layout.save, Layout.putKeyed, Field.bool,
    Field.unsigned, List.lookup_cons]

end Registers

namespace UndefinedPolicy

def name : UndefinedPolicy → String
  | .fault => "fault"
  | .nop => "nop"

def ofName? (s : String) : Option UndefinedPolicy :=
  if s = "fault" then some .fault else if s = "nop" then some .nop else none

@[simp] theorem ofName?_name (p : UndefinedPolicy) : ofName? p.name = some p := by
  cases p <;> rfl

end UndefinedPolicy

namespace Config

def layout : Layout Config where
  fields :=
    [.bool "extensions" (·.extensions) fun c v => { c with extensions := v },
     { key := "undefined_ed"
       write := fun c => .text c.undefined.name
       put := fun c d => (d.choice?.bind UndefinedPolicy.ofName?).map fun p => { c with undefined := p } },
     .unsigned "nextreg_select_port" (·.selectPort) fun c v => { c with selectPort := v },
     .unsigned "nextreg_data_port" (·.dataPort) fun c v => { c with dataPort := v }]
  start := .extended
  complete := false

def save (c : Config) : Document := layout.save c

def restore? (d : Document) : Option Config := layout.restore? d

theorem restore?_save (c : Config) : restore? c.save = some c := by
  simp [restore?, save, layout, Layout.restore?, Layout.save, Layout.putKeyed, Field.bool,
    Field.unsigned, List.lookup_cons]

end Config

end Z80Machine
