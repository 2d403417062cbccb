import Z80Machine.Word

/-!
The form in which state is saved: null, truth values, numbers, texts, lists and objects. Reading is
strict: a document of another kind, or a number out of range, is refused.
-/
namespace Z80Machine

inductive Document where
  | null
  | bool (b : Bool)
  | integer (n : Int)
  /-- A number written with a point, so many digits after it; never taken for an integer. -/
  | decimal (mantissa : Int) (places : Nat)
  | text (s : String)
  | list (items : List Document)
  | object (fields : List (String × Document))
  deriving Repr, Inhabited

namespace Document

def bool? : Document → Option Bool
  | .bool b => some b
  | _ => none

/-- An unsigned number of `w` bits; one that does not fit is refused. -/
def unsigned? (w : Nat) : Document → Option (BitVec w)
  | .integer n => if (BitVec.ofInt w n).toNat = n then some (BitVec.ofInt w n) else none
  | _ => none

def ofUnsigned {w : Nat} (v : BitVec w) : Document := .integer v.toNat

/-- The name of a choice that has no content: a text, or an object with that key alone and null. -/
def choice? : Document → Option String
  | .text s => some s
  | .object [(s, .null)] => some s
  | _ => none

@[simp] theorem bool?_bool (b : Bool) : (bool b).bool? = some b := rfl

@[simp] theorem unsigned?_ofUnsigned {w : Nat} (v : BitVec w) : (ofUnsigned v).unsigned? w = some v := by
  simp [ofUnsigned, unsigned?]

@[simp] theorem choice?_text (s : String) : (text s).choice? = some s := rfl

end Document

end Z80Machine
