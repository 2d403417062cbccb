import Z80Machine.Page.Base
import Z80Machine.Page.Bits
import Z80Machine.Page.Extended

/-!
The seven pages of 256 slots each, as a reader of opcodes sees them.
-/
namespace Z80Machine

inductive Page where
  | opening (b : Base)
  | bits
  | extended
  | indexedBits (i : Index)
  deriving DecidableEq, Repr

inductive Slot where
  | instruction (i : Instruction)
  | lead (l : Lead)
  | undefined
  deriving DecidableEq, Repr

namespace Page

/-- The pages in the order in which they are listed. -/
def all : List Page :=
  [.opening .hl, .bits, .extended, .opening (.index .ix), .opening (.index .iy),
    .indexedBits .ix, .indexedBits .iy]

def name : Page → String
  | .opening .hl => "main"
  | .bits => "CB"
  | .extended => "ED"
  | .opening (.index .ix) => "DD"
  | .opening (.index .iy) => "FD"
  | .indexedBits .ix => "DDCB"
  | .indexedBits .iy => "FDCB"

def ofName? (s : String) : Option Page := all.find? (·.name == s)

def slot (p : Page) (v : Byte) : Slot :=
  match p with
  | .opening b => match b.opening v with
    | .instruction i => .instruction i
    | .lead l => .lead l
  | .bits => .instruction (bitsPage v)
  | .extended => match extendedPage v with
    | some i => .instruction i
    | none => .undefined
  | .indexedBits i => .instruction (indexedBitsPage i v)

end Page

/-- The text that names a lead. -/
def Lead.name : Lead → String
  | .bits => "CB"
  | .extended => "ED"
  | .index .ix => "IX"
  | .index .iy => "IY"
  | .indexedBits .ix => "IXCB"
  | .indexedBits .iy => "IYCB"

end Z80Machine
