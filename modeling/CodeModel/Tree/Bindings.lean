import CodeModel.Tree.Descent

/-!
# Bindings

A type reference is bound when it names no declaration or names a class or enum
that is attached to the root. `validateReferences` looks at every element below
the root and refuses the first reference that is not bound.
-/

namespace CodeModel

namespace Tree

/-- Whether a type reference leads to nothing that the tree declares. -/
def isDangling (t : Tree) (r : TypeRef) : Bool :=
  match r.definition? with
  | some target => !(t.isAttached target && t.isDeclaration target)
  | none => false

/-- The refusal of an element's first dangling reference. -/
def danglingReference? (t : Tree) (id : ElementId) : Option ModelError :=
  match t.get? id with
  | none => none
  | some e =>
      (e.references.find? t.isDangling).map fun r => .undeclared e.name r.name

/-- Refuses the first dangling reference below the root. -/
def validateReferences (t : Tree) : Except ModelError Unit :=
  match (t.descendants t.root).findSome? t.danglingReference? with
  | some error => .error error
  | none => .ok ()

/-- A tree is accepted when no element below the root holds a dangling
    reference. -/
theorem validateReferences_eq_ok_iff (t : Tree) :
    t.validateReferences = .ok () ↔
      ∀ id ∈ t.descendants t.root, ∀ e, t.get? id = some e →
        ∀ r ∈ e.references, t.isDangling r = false := by
  rw [validateReferences]
  constructor
  · intro h id hid e he r hr
    cases hf : (t.descendants t.root).findSome? t.danglingReference? with
    | some error => rw [hf] at h; exact absurd h (by simp)
    | none =>
        have h1 := List.findSome?_eq_none_iff.mp hf id hid
        simp only [danglingReference?, he, Option.map_eq_none_iff,
          List.find?_eq_none] at h1
        exact Bool.eq_false_iff.mpr (h1 r hr)
  · intro h
    have hf : (t.descendants t.root).findSome? t.danglingReference? = none := by
      refine List.findSome?_eq_none_iff.mpr ?_
      intro id hid
      rw [danglingReference?]
      cases he : t.get? id with
      | none => rfl
      | some e =>
          simp only [Option.map_eq_none_iff, List.find?_eq_none]
          exact fun r hr => Bool.eq_false_iff.mp (h id hid e he r hr)
    rw [hf]

end Tree

end CodeModel
