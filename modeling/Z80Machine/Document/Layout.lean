import Z80Machine.Document

/-!
How a record is saved: its fields in order, and what is done about missing ones. A record is written as
an object and read back from an object, in which unknown keys are passed over, or from the list of its
fields.
-/
namespace Z80Machine

/-- A field of a record: how it is written, and how a record takes it from a document. -/
structure Field (σ : Type) where
  key : String
  write : σ → Document
  put : σ → Document → Option σ

structure Layout (σ : Type) where
  fields : List (Field σ)
  /-- The record in which a field that is missing stays as it is. -/
  start : σ
  /-- Whether every field has to be there. -/
  complete : Bool

namespace Field

variable {σ : Type}

/-- A truth value. -/
def bool (key : String) (get : σ → Bool) (set : σ → Bool → σ) : Field σ where
  key
  write k := .bool (get k)
  put k d := d.bool?.map (set k)

/-- An unsigned number of `w` bits. -/
def unsigned {w : Nat} (key : String) (get : σ → BitVec w) (set : σ → BitVec w → σ) : Field σ where
  key
  write k := .ofUnsigned (get k)
  put k d := (d.unsigned? w).map (set k)

end Field

namespace Layout

variable {σ : Type}

def save (layout : Layout σ) (k : σ) : Document :=
  .object (layout.fields.map fun f => (f.key, f.write k))

/-- Takes field `f` from the entries of an object. -/
def putKeyed (layout : Layout σ) (entries : List (String × Document)) (k : σ) (f : Field σ) : Option σ :=
  match entries.lookup f.key with
  | some d => f.put k d
  | none => if layout.complete then none else some k

/-- Takes the fields in turn from a list, which may end early unless the record has to be complete. -/
def putListed (layout : Layout σ) : List (Field σ) → List Document → σ → Option σ
  | [], [], k => some k
  | [], _ :: _, _ => none
  | _ :: _, [], k => if layout.complete then none else some k
  | f :: fs, d :: ds, k => do layout.putListed fs ds (← f.put k d)

def restore? (layout : Layout σ) : Document → Option σ
  | .object entries => layout.fields.foldlM (layout.putKeyed entries) layout.start
  | .list items => layout.putListed layout.fields items layout.start
  | _ => none

/-- Of an object only the entries of the fields matter, and neither their order nor other keys. -/
theorem restore?_object_congr (layout : Layout σ) {es fs : List (String × Document)}
    (h : ∀ f ∈ layout.fields, es.lookup f.key = fs.lookup f.key) :
    layout.restore? (.object es) = layout.restore? (.object fs) := by
  have go : ∀ l : List (Field σ), (∀ f ∈ l, es.lookup f.key = fs.lookup f.key) → ∀ k,
      l.foldlM (layout.putKeyed es) k = l.foldlM (layout.putKeyed fs) k := by
    intro l
    induction l with
    | nil => intros; rfl
    | cons f l ih =>
      intro h k
      have hk : layout.putKeyed es k f = layout.putKeyed fs k f := by
        simp [putKeyed, h f (by simp)]
      simp only [List.foldlM_cons, hk]
      exact bind_congr fun k' => ih (fun g hg => h g (by simp [hg])) k'
  exact go layout.fields h layout.start

end Layout

end Z80Machine
