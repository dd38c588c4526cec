/-!
# Type references

A `TypeRef` is one use of a type: by a property, a parameter, a method, an
indexer, the header of a class or an import. It carries the name that is shown
and says what it stands for: a type known by its name alone, a declaration of
the same tree, or a union of alternatives, which may hold unions again.

Equality of type references is decided by `TypeRef.same`, which compares them
piece by piece.
-/

namespace CodeModel

/-- The handle of an element: its place in the arena of its tree, counted from
    zero. The place is a number without a bound here, where a machine keeps it
    in 32 bits; the two agree on every tree of fewer than `2 ^ 32` elements. -/
structure ElementId where
  index : Nat
deriving DecidableEq, Repr, Inhabited

mutual

/-- One use of a type: the name that is shown, what it stands for, and whether
    the value may be absent and whether it is a collection of the type. -/
structure TypeRef where
  name : String
  target : TypeTarget
  isNullable : Bool := false
  isCollection : Bool := false

/-- What a type reference stands for: a type known by its name alone, a class or
    enum declared in the tree, or one of several alternatives. -/
inductive TypeTarget where
  | external
  | declared (id : ElementId)
  | union (members : List TypeRef)

end

instance : Inhabited TypeRef := ⟨⟨"", .external, false, false⟩⟩

mutual

/-- Whether two type references are equal. -/
def TypeRef.same : TypeRef → TypeRef → Bool
  | ⟨n, t, a, b⟩, ⟨n', t', a', b'⟩ => n == n' && t.same t' && a == a' && b == b'

/-- Whether two targets are equal. -/
def TypeTarget.same : TypeTarget → TypeTarget → Bool
  | .external, .external => true
  | .declared i, .declared j => i == j
  | .union ms, .union ms' => TypeRef.sameAll ms ms'
  | _, _ => false

/-- Whether two lists of type references are equal. -/
def TypeRef.sameAll : List TypeRef → List TypeRef → Bool
  | [], [] => true
  | r :: rs, r' :: rs' => r.same r' && TypeRef.sameAll rs rs'
  | _, _ => false

end

mutual

/-- The comparison of type references decides equality. -/
theorem TypeRef.same_iff : ∀ r s : TypeRef, r.same s = true ↔ r = s
  | ⟨n, t, a, b⟩, ⟨n', t', a', b'⟩ => by
      simp only [TypeRef.same, Bool.and_eq_true, beq_iff_eq,
        TypeTarget.same_iff t t', TypeRef.mk.injEq]
      constructor
      · rintro ⟨⟨⟨h1, h2⟩, h3⟩, h4⟩
        exact ⟨h1, h2, h3, h4⟩
      · rintro ⟨h1, h2, h3, h4⟩
        exact ⟨⟨⟨h1, h2⟩, h3⟩, h4⟩

theorem TypeTarget.same_iff : ∀ t u : TypeTarget, t.same u = true ↔ t = u
  | .external, u => by cases u <;> simp [TypeTarget.same]
  | .declared i, u => by cases u <;> simp [TypeTarget.same]
  | .union ms, u => by
      cases u with
      | external => simp [TypeTarget.same]
      | declared i => simp [TypeTarget.same]
      | union ms' => simp [TypeTarget.same, TypeRef.sameAll_iff ms ms']

theorem TypeRef.sameAll_iff :
    ∀ rs ss : List TypeRef, TypeRef.sameAll rs ss = true ↔ rs = ss
  | [], ss => by cases ss <;> simp [TypeRef.sameAll]
  | r :: rs, ss => by
      cases ss with
      | nil => simp [TypeRef.sameAll]
      | cons s ss =>
          simp [TypeRef.sameAll, TypeRef.same_iff r s, TypeRef.sameAll_iff rs ss]

end

instance : DecidableEq TypeRef :=
  fun r s => decidable_of_iff _ (TypeRef.same_iff r s)

instance : DecidableEq TypeTarget :=
  fun t u => decidable_of_iff _ (TypeTarget.same_iff t u)

namespace TypeRef

/-- A reference to a type known by its name alone. -/
def external (name : String) : TypeRef :=
  ⟨name, .external, false, false⟩

/-- A reference bound to a declaration. -/
def declared (name : String) (id : ElementId) : TypeRef :=
  ⟨name, .declared id, false, false⟩

/-- A reference to one of several alternatives. -/
def union (name : String) (members : List TypeRef) : TypeRef :=
  ⟨name, .union members, false, false⟩

/-- The same reference for a value that may be absent. -/
def nullable (r : TypeRef) : TypeRef :=
  { r with isNullable := true }

/-- The same reference for a collection. -/
def collection (r : TypeRef) : TypeRef :=
  { r with isCollection := true }

/-- The declaration that the reference is bound to. -/
def definition? (r : TypeRef) : Option ElementId :=
  match r.target with
  | .declared id => some id
  | _ => none

/-- Whether the type is known by its name alone. -/
def isExternal (r : TypeRef) : Bool :=
  match r.target with
  | .external => true
  | _ => false

/-- Whether the reference stands for several alternatives. -/
def isUnion (r : TypeRef) : Bool :=
  match r.target with
  | .union _ => true
  | _ => false

/-- The alternatives of a union; other references have none. -/
def members (r : TypeRef) : List TypeRef :=
  match r.target with
  | .union members => members
  | _ => []

end TypeRef

end CodeModel
