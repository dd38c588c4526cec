import CodeModel.Tree.Basic

/-!
# Inheritance

The class that a class inherits from, the class that one inherits from, and so
on. The chain stops before it would come to a class for a second time, so it is
finite whatever the classes inherit from.
-/

namespace CodeModel

namespace Tree

/-- The class that a class inherits from. -/
def parentClass? (t : Tree) (id : ElementId) : Option ElementId :=
  match (t.class? id).bind (·.inherits) with
  | none => none
  | some r =>
      match r.definition? with
      | none => none
      | some p => if (t.class? p).isSome then some p else none

/-- The classes above `id` one after another, at most `n` of them, as long as
    none of them is in `barred` or comes for a second time. -/
def inheritanceWithin (t : Tree) : Nat → List ElementId → ElementId → List ElementId
  | 0, _, _ => []
  | n + 1, barred, id =>
      match t.parentClass? id with
      | none => []
      | some p =>
          if p ∈ barred then [] else p :: t.inheritanceWithin n (p :: barred) p

/-- The classes above a class, nearest first, up to the one before `stop` or
    before a class that was there already. -/
def inheritanceChain (t : Tree) (id : ElementId) (stop : Option ElementId) :
    List ElementId :=
  t.inheritanceWithin t.size (id :: stop.toList) id

/-- Goes up from `current` for at most `n` turns, `visited` being the classes
    that the walk has come to. It ends at a class that inherits from no class,
    from `stop`, or from one that was visited: at the class itself, or, where
    there is none to inherit from, at nothing if the class is `stop`. -/
def climb? (t : Tree) (stop : Option ElementId) :
    Nat → List ElementId → ElementId → Option ElementId
  | 0, _, current => some current
  | n + 1, visited, current =>
      match t.parentClass? current with
      | none => if some current = stop then none else some current
      | some p =>
          if some p = stop ∨ p ∈ visited then some current
          else t.climb? stop n (p :: visited) p

/-- The class farthest above a class, as far as the walk up goes. A class that
    inherits from no class is its own, unless it is `stop`. -/
def greatestGrandparent? (t : Tree) (id : ElementId) (stop : Option ElementId) :
    Option ElementId :=
  match t.class? id with
  | none => none
  | some _ => t.climb? stop t.size [id] id

end Tree

end CodeModel
