import CodeModel.TypeRef.Basic

/-!
# Walking through a type reference

A type reference holds itself and, when it is a union, everything its members
hold. The walk lists them with each union before its members.

* **`walk`**: the references held, in order.
* **`rename`**: gives every reference held a new name, from what the reference
  was.
* **`renameIndexed`**: the same from the place in the walk.
* **`rebind`**: points every bound reference held at another declaration.

Main statements: `walk_rename` and `walk_rebind` say that the walk of the result
is the walk of the argument with each reference changed on its own;
`names_renameIndexed` that places are counted in the order of the walk.
-/

namespace CodeModel

mutual

/-- The references held by a reference, itself first. -/
def TypeRef.walk : TypeRef → List TypeRef
  | ⟨name, target, isNullable, isCollection⟩ =>
      ⟨name, target, isNullable, isCollection⟩ :: target.walk

/-- The references held by the members of a target. -/
def TypeTarget.walk : TypeTarget → List TypeRef
  | .external => []
  | .declared _ => []
  | .union members => TypeRef.walkAll members

/-- The references held by some references, one after another. -/
def TypeRef.walkAll : List TypeRef → List TypeRef
  | [] => []
  | r :: rest => r.walk ++ TypeRef.walkAll rest

end

mutual

/-- Names every reference held by what `f` says of it. -/
def TypeRef.rename (f : TypeRef → String) : TypeRef → TypeRef
  | ⟨name, target, isNullable, isCollection⟩ =>
      ⟨f ⟨name, target, isNullable, isCollection⟩, target.rename f, isNullable,
        isCollection⟩

/-- Names every reference held by the members of a target. -/
def TypeTarget.rename (f : TypeRef → String) : TypeTarget → TypeTarget
  | .external => .external
  | .declared id => .declared id
  | .union members => .union (TypeRef.renameAll f members)

/-- Names every reference held by some references. -/
def TypeRef.renameAll (f : TypeRef → String) : List TypeRef → List TypeRef
  | [] => []
  | r :: rest => r.rename f :: TypeRef.renameAll f rest

end

mutual

/-- Points every bound reference held at what `f` makes of its declaration. -/
def TypeRef.rebind (f : ElementId → ElementId) : TypeRef → TypeRef
  | ⟨name, target, isNullable, isCollection⟩ =>
      ⟨name, target.rebind f, isNullable, isCollection⟩

/-- Points a target and what it holds at other declarations. -/
def TypeTarget.rebind (f : ElementId → ElementId) : TypeTarget → TypeTarget
  | .external => .external
  | .declared id => .declared (f id)
  | .union members => .union (TypeRef.rebindAll f members)

/-- Points every bound reference held by some references at other declarations. -/
def TypeRef.rebindAll (f : ElementId → ElementId) : List TypeRef → List TypeRef
  | [] => []
  | r :: rest => r.rebind f :: TypeRef.rebindAll f rest

end

mutual

/-- Names every reference held by its place in the walk, the first place being
    `k`, and its name. -/
def TypeRef.renameFrom (f : Nat → String → String) (k : Nat) : TypeRef → TypeRef
  | ⟨name, target, isNullable, isCollection⟩ =>
      ⟨f k name, target.renameFrom f (k + 1), isNullable, isCollection⟩

/-- Names every reference held by the members of a target by its place. -/
def TypeTarget.renameFrom (f : Nat → String → String) (k : Nat) : TypeTarget →
    TypeTarget
  | .external => .external
  | .declared id => .declared id
  | .union members => .union (TypeRef.renameAllFrom f k members)

/-- Names every reference held by some references by its place. -/
def TypeRef.renameAllFrom (f : Nat → String → String) (k : Nat) : List TypeRef →
    List TypeRef
  | [] => []
  | r :: rest =>
      r.renameFrom f k :: TypeRef.renameAllFrom f (k + r.walk.length) rest

end

/-- Names every reference held by its place in the walk and its name. -/
def TypeRef.renameIndexed (f : Nat → String → String) (r : TypeRef) : TypeRef :=
  r.renameFrom f 0

/-- The same reference under another name. -/
def TypeRef.withName (r : TypeRef) (name : String) : TypeRef :=
  { r with name := name }

/-- The walk of a list is that of its members, one after another. -/
theorem TypeRef.walkAll_eq_flatMap (rs : List TypeRef) :
    TypeRef.walkAll rs = rs.flatMap TypeRef.walk := by
  induction rs with
  | nil => simp [TypeRef.walkAll]
  | cons r rs ih => simp [TypeRef.walkAll, ih]

mutual

/-- Renaming changes each reference of the walk on its own: its name by `f`, its
    members in turn. -/
theorem TypeRef.walk_rename (f : TypeRef → String) :
    ∀ r : TypeRef, (r.rename f).walk = r.walk.map (·.rename f)
  | ⟨n, t, a, b⟩ => by
      simp [TypeRef.rename, TypeRef.walk, TypeTarget.walk_rename f t]

/-- The walk of a renamed target is the renamed walk. -/
theorem TypeTarget.walk_rename (f : TypeRef → String) :
    ∀ t : TypeTarget, (t.rename f).walk = t.walk.map (·.rename f)
  | .external => rfl
  | .declared _ => rfl
  | .union ms => by
      simp [TypeTarget.rename, TypeTarget.walk, TypeRef.walkAll_renameAll f ms]

theorem TypeRef.walkAll_renameAll (f : TypeRef → String) :
    ∀ rs : List TypeRef, TypeRef.walkAll (TypeRef.renameAll f rs)
      = (TypeRef.walkAll rs).map (·.rename f)
  | [] => rfl
  | r :: rs => by
      simp [TypeRef.renameAll, TypeRef.walkAll, TypeRef.walk_rename f r,
        TypeRef.walkAll_renameAll f rs]

end

mutual

/-- Rebinding changes each reference of the walk on its own. -/
theorem TypeRef.walk_rebind (f : ElementId → ElementId) :
    ∀ r : TypeRef, (r.rebind f).walk = r.walk.map (·.rebind f)
  | ⟨n, t, a, b⟩ => by
      simp [TypeRef.rebind, TypeRef.walk, TypeTarget.walk_rebind f t]

/-- The walk of a target that is bound anew is the walk, bound anew. -/
theorem TypeTarget.walk_rebind (f : ElementId → ElementId) :
    ∀ t : TypeTarget, (t.rebind f).walk = t.walk.map (·.rebind f)
  | .external => rfl
  | .declared _ => rfl
  | .union ms => by
      simp [TypeTarget.rebind, TypeTarget.walk, TypeRef.walkAll_rebindAll f ms]

theorem TypeRef.walkAll_rebindAll (f : ElementId → ElementId) :
    ∀ rs : List TypeRef, TypeRef.walkAll (TypeRef.rebindAll f rs)
      = (TypeRef.walkAll rs).map (·.rebind f)
  | [] => rfl
  | r :: rs => by
      simp [TypeRef.rebindAll, TypeRef.walkAll, TypeRef.walk_rebind f r,
        TypeRef.walkAll_rebindAll f rs]

end

mutual

/-- Names are replaced by their places in the walk, counted on from `k`. -/
theorem TypeRef.names_renameFrom (f : Nat → String → String) :
    ∀ (r : TypeRef) (k : Nat), (r.renameFrom f k).walk.map (·.name)
      = (r.walk.map (·.name)).mapIdx fun i n => f (k + i) n
  | ⟨n, t, a, b⟩, k => by
      simp only [TypeRef.renameFrom, TypeRef.walk, List.map_cons, List.mapIdx_cons,
        TypeTarget.names_renameFrom f t (k + 1)]
      simp [Nat.add_assoc, Nat.add_comm 1]

theorem TypeTarget.names_renameFrom (f : Nat → String → String) :
    ∀ (t : TypeTarget) (k : Nat), (t.renameFrom f k).walk.map (·.name)
      = (t.walk.map (·.name)).mapIdx fun i n => f (k + i) n
  | .external, _ => rfl
  | .declared _, _ => rfl
  | .union ms, k => TypeRef.names_renameAllFrom f ms k

theorem TypeRef.names_renameAllFrom (f : Nat → String → String) :
    ∀ (rs : List TypeRef) (k : Nat),
      (TypeRef.walkAll (TypeRef.renameAllFrom f k rs)).map (·.name)
      = ((TypeRef.walkAll rs).map (·.name)).mapIdx fun i n => f (k + i) n
  | [], _ => rfl
  | r :: rs, k => by
      simp only [TypeRef.renameAllFrom, TypeRef.walkAll, List.map_append,
        List.mapIdx_append, TypeRef.names_renameFrom f r k,
        TypeRef.names_renameAllFrom f rs (k + r.walk.length)]
      simp [Nat.add_comm, Nat.add_left_comm]

end

/-- Places are counted in the order of the walk, from zero. -/
theorem TypeRef.names_renameIndexed (f : Nat → String → String) (r : TypeRef) :
    (r.renameIndexed f).walk.map (·.name) = (r.walk.map (·.name)).mapIdx f := by
  simp [TypeRef.renameIndexed, TypeRef.names_renameFrom f r 0]

end CodeModel
