import CodeModel.Refine.Traversal
import CodeModel.Text.Case
import CodeModel.Tree.Insert
import CodeModel.Tree.Rename

/-!
# Moving classes

Two passes give classes another holder. A class that bears the name of a
namespace beside it moves into that namespace. A class of query parameters moves
into the request builder that takes them. The imports of what moved are named
anew.
-/

namespace CodeModel

namespace Tree

/-- The namespace in `holder` whose name is that of a class there, in whatever
    case. -/
def namesakeNamespace? (t : Tree) (holder id : ElementId) : Option ElementId :=
  let lowered (x : ElementId) : Option String := (t.name? x).map Text.lowercase
  (t.childrenOfKind holder .namespaceDecl).find? fun ns => lowered ns = lowered id

/-- For a class directly in a namespace that holds a namespace of its name: the
    two namespaces. -/
def clashingNamespace? (t : Tree) (id : ElementId) :
    Option (ElementId × ElementId) :=
  if t.kind? id = some .classDecl then
    match t.parent? id with
    | none => none
    | some holder =>
        if t.isNamespace holder then (t.namesakeNamespace? holder id).map
          (holder, ·) else none
  else none

/-- The class of query parameters that a method takes, if it sits directly in a
    namespace. -/
def queryClass? (t : Tree) (method : ElementId) : Option ElementId :=
  match (t.parameterOfKind? method .queryParameter).bind t.valueType? with
  | none => none
  | some type =>
      match type.definition? with
      | none => none
      | some target =>
          if t.isClassOf target [.queryParameters]
            ∧ (t.parent? target).any t.isNamespace then some target
          else none

/-- The classes of query parameters that a builder takes in, each once, in the
    order of its methods. -/
def queryClasses (t : Tree) (builder : ElementId) : List ElementId :=
  ((t.childrenOfKind builder .method).filterMap t.queryClass?).eraseDups

end Tree

namespace Edit

/-- Moves every class that bears the name of a namespace beside it into that
    namespace. -/
def moveIntoNamesakes : Edit Unit :=
  crawl fun id => do
    match (← get).clashingNamespace? id with
    | none => return
    | some (holder, target) =>
        discard <| remove holder id
        add .classes target [id]
        discard <| rebindImports id

/-- Moves a class into a builder, which no longer imports it. -/
def nestClass (builder id : ElementId) : Edit Unit := do
  if let some holder := (← get).parent? id then
    discard <| remove holder id
  add .innerClasses builder [id]
  modifyElement builder (Element.mapClass fun c =>
    { c with imports := c.imports.filter fun i => i.target? ≠ some id })
  discard <| rebindImports id

/-- Moves the classes of query parameters into the request builders that take
    them. -/
def nestQueryClasses : Edit Unit :=
  crawl fun id => do
    let t ← get
    if !t.isClassOf id [.requestBuilder] then return
    (t.queryClasses id).forM (nestClass id)

end Edit

end CodeModel
