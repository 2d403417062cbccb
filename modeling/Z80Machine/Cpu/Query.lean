import Z80Machine.Cpu
import Z80Machine.Text.Hex

/-!
Looking into a processor by name: registers, pairs, interrupt state, elapsed time and single flags. A
primed name means the shadow of a pair.
-/
namespace Z80Machine

/-- What an observer sees. -/
inductive Value where
  | bool (b : Bool)
  | byte (v : Byte)
  | word (w : Word)
  | count (n : BitVec 64)
  deriving DecidableEq, Repr

/-- Bytes and words are shown in hexadecimal, counts in decimal. -/
def Value.text : Value → String
  | .bool b => if b then "true" else "false"
  | .byte v => "0x" ++ Hex.capital v
  | .word w => "0x" ++ Hex.capitalWord w
  | .count n => toString n.toNat

namespace Cpu

/-- Everything that can be asked for, in the order in which it is listed. -/
def views (c : Cpu) : List (String × Value) :=
  let k := c.registers
  [("a", .byte k.a), ("f", .byte k.f.toByte), ("b", .byte k.b), ("c", .byte k.c),
   ("d", .byte k.d), ("e", .byte k.e), ("h", .byte k.h), ("l", .byte k.l),
   ("af", .word k.af), ("bc", .word k.bc), ("de", .word k.de), ("hl", .word k.hl),
   ("af'", .word k.shadow.af), ("bc'", .word k.shadow.bc),
   ("de'", .word k.shadow.de), ("hl'", .word k.shadow.hl),
   ("ix", .word k.ix), ("iy", .word k.iy), ("sp", .word k.sp), ("pc", .word k.pc),
   ("i", .byte k.i), ("r", .byte k.r), ("wz", .word k.wz),
   ("iff1", .bool k.iff1), ("iff2", .bool k.iff2), ("im", .byte k.im), ("halted", .bool k.halted),
   ("t_states", .count c.total.count),
   ("flags.s", .bool k.f.sign), ("flags.z", .bool k.f.zero),
   ("flags.y", .bool k.f.y), ("flags.h", .bool k.f.half),
   ("flags.x", .bool k.f.x), ("flags.pv", .bool k.f.parity),
   ("flags.n", .bool k.f.subtract), ("flags.c", .bool k.f.carry)]

def query? (c : Cpu) (path : String) : Option Value := c.views.lookup path

/-- The names that have an answer. -/
def queryPaths : List String := (new .extended).views.map Prod.fst

/-- The names are the same for every processor. -/
theorem map_fst_views (c : Cpu) : c.views.map Prod.fst = queryPaths := rfl

/-- A name has an answer exactly when it is listed. -/
theorem isSome_query?_iff (c : Cpu) (path : String) :
    (c.query? path).isSome ↔ path ∈ queryPaths := by
  simp [← map_fst_views c, query?]

end Cpu

end Z80Machine
