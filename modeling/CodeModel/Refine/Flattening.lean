import CodeModel.Refine.Traversal
import CodeModel.Tree.Clone
import CodeModel.Tree.Inheritance
import CodeModel.Tree.Insert

/-!
# Flattening inheritance

A class that inherits gets copies of the properties above it and then inherits
from nothing. Of several properties of one name the nearest counts, and a member
of the class itself comes before all of them.
-/

namespace CodeModel

namespace Tree

/-- Of some elements, those whose names are not taken, by `taken` or by one
    before. -/
def firstOfEachName (t : Tree) : List String → List ElementId → List ElementId
  | _, [] => []
  | taken, id :: rest =>
      match t.name? id with
      | none => t.firstOfEachName taken rest
      | some name =>
          if name ∈ taken then t.firstOfEachName taken rest
          else id :: t.firstOfEachName (name :: taken) rest

/-- The properties that a class gets from the classes above it, nearest class
    first. -/
def inheritedProperties (t : Tree) (id : ElementId) : List ElementId :=
  t.firstOfEachName ((t.children id).filterMap t.name?)
    ((t.inheritanceChain id none).flatMap fun c => t.childrenOfKind c .property)

end Tree

namespace Edit

/-- Copies what every class inherits into it and drops the inheritance. -/
def flattenInheritance : Edit Unit :=
  crawl fun id => do
    let t ← get
    if (t.parentClass? id).isNone then return
    let copies ← (t.inheritedProperties id).mapM cloneSubtree
    if !copies.isEmpty then add .properties id copies
    modifyElement id (Element.mapClass fun c => { c with inherits := none })

end Edit

end CodeModel
