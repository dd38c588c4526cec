import CodeModel.Tree.Edit
import CodeModel.Tree.Ancestry

/-!
# Renaming

A new name reaches everything that shows the old one: the header of a class,
every type reference bound to the declaration, and the name of every import
whose declaration sits at or below the renamed element.
-/

namespace CodeModel

namespace Tree

/-- Whether an import is bound to a declaration at or below `scope` and does not
    carry the name that imports of that declaration carry. -/
def isStaleImport (t : Tree) (scope : ElementId) (i : Import) : Bool :=
  match i.target? with
  | some target =>
      t.isWithin scope target && t.isDeclaration target && i.name
        != t.importName target
  | none => false

/-- The import under the name that imports of its declaration carry, when that
    sits at or below `scope`. -/
def refreshImport (t : Tree) (scope : ElementId) (i : Import) : Import :=
  match i.target? with
  | some target =>
      if t.isWithin scope target && t.isDeclaration target
        then { i with name := t.importName target }
      else i
  | none => i

/-- Names every import anew whose declaration sits at or below `scope`. -/
def rebindImports (t : Tree) (scope : ElementId) : Tree :=
  t.mapElements (Element.mapImports (·.map (t.refreshImport scope)))

/-- The number of imports that `rebindImports` changes. -/
def countStaleImports (t : Tree) (scope : ElementId) : Nat :=
  (t.elements.toList.map fun e => e.imports.countP (t.isStaleImport scope)).foldr
    (· + ·) 0

/-- Every type reference held in the arena with the element that holds it, in
    order. -/
def references (t : Tree) : List (ElementId × TypeRef) :=
  t.ids.flatMap fun id => (((t.get? id).map (·.references)).getD []).map (id, ·)

/-- Names every type reference held in the arena by what `f` says of it. -/
def renameReferences (t : Tree) (f : TypeRef → String) : Tree :=
  t.mapElements (Element.mapTypes (·.rename f))

/-- Shows `name` in every type reference that is bound to `id`. -/
def renameBound (t : Tree) (id : ElementId) (name : String) : Tree :=
  t.renameReferences fun r => if r.definition? = some id then name else r.name

/-- Renames an element and everything that shows its name. -/
def rename (t : Tree) (id : ElementId) (name : String) : Tree :=
  let named := t.modify id (Element.withName name)
  match t.kind? id with
  | some .classDecl | some .enumDecl => (named.renameBound id name).rebindImports id
  | some .namespaceDecl => named.rebindImports id
  | _ => named

/-- Renames an element. An empty name, the root and a handle without an element
    are refused. -/
def setName (t : Tree) (id : ElementId) (name : String) : Except ModelError Tree :=
  if name.isEmpty then .error (.empty "name")
  else if id = t.root then .error .rootNotRenamed
  else
    match t.get? id with
    | none => .error (.missing "element")
    | some _ => .ok (t.rename id name)

end Tree

namespace Edit

/-- Renames an element and everything that shows its name. -/
def setName (id : ElementId) (name : String) : Edit Unit :=
  change fun t => t.setName id name

/-- Names every import anew whose declaration sits at or below `scope`, and
    gives the number of those that changed. -/
def rebindImports (scope : ElementId) : Edit Nat :=
  changeWith fun t => .ok (t.countStaleImports scope, t.rebindImports scope)

end Edit

end CodeModel
