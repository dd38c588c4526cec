import CodeModel.Tree.Edit

/-!
# Copies

A copy of a subtree is new elements at the end of the arena, each element before
what it holds. Links between elements of the subtree become links between their
copies, and so do type references bound to an element of the subtree; all else
is kept.
-/

namespace CodeModel

namespace Tree

/-- The copies of what `holder` holds, laid out one subtree after another from
    the place `next` on: the handles of the direct copies, and every element
    copied with its copy. `copyOne` lays out one subtree. -/
def layOutChildren (copyOne : Nat → ElementId → List (ElementId × Element)) :
    Nat → List ElementId → List ElementId × List (ElementId × Element)
  | _, [] => ([], [])
  | next, c :: rest =>
      let copies := copyOne next c
      let (ids, more) := layOutChildren copyOne (next + copies.length) rest
      (⟨next⟩ :: ids, copies ++ more)

/-- Every element of a subtree with its copy, links made anew and references
    kept, the first copy standing at the place `next`; at most `n` levels. -/
def layOut (t : Tree) :
    Nat → Option ElementId → Nat → ElementId → List (ElementId × Element)
  | 0, _, _, _ => []
  | n + 1, parent, next, id =>
      match t.get? id with
      | none => []
      | some e =>
          let (ids, below) :=
            layOutChildren (t.layOut n (some ⟨next⟩)) (next + 1) e.children
          (id, { e with parent := parent, children := ids }) :: below

/-- Where the copy of an element stands in a layout: the last one, if it was
    reached more than once. -/
def copyOf? (base : Nat) (layout : List (ElementId × Element)) (id : ElementId) :
    Option ElementId :=
  ((layout.map (·.1)).zipIdx base).reverse.findSome? fun p =>
    if p.1 = id then some ⟨p.2⟩ else none

/-- Points the references of a layout at the copies. -/
def rebindLayout (base : Nat) (layout : List (ElementId × Element)) :
    List Element :=
  let toCopy (id : ElementId) : ElementId := (copyOf? base layout id).getD id
  (layout.zipIdx base).map fun ((source, e), place) =>
    if copyOf? base layout source = some ⟨place⟩
      then e.mapTypes (·.rebind toCopy) else e

/-- Copies the subtree at an element and gives the handle of its copy, which
    nobody holds. The root is not copied. -/
def cloneSubtree (t : Tree) (source : ElementId) :
    Except ModelError (ElementId × Tree) :=
  match t.get? source with
  | none => .error (.missing "element")
  | some _ =>
      if source = t.root then .error .rootNotCloned
      else
        let layout := t.layOut t.size none t.size source
        .ok (t.nextId,
          { t with elements := t.elements ++ (rebindLayout t.size layout).toArray })

end Tree

namespace Edit

/-- Copies the subtree at an element. -/
def cloneSubtree (source : ElementId) : Edit ElementId :=
  changeWith fun t => t.cloneSubtree source

end Edit

end CodeModel
