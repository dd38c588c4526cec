import CodeModel.Refine.Traversal
import CodeModel.Target.ReservedNames
import CodeModel.Tree.Insert
import CodeModel.Tree.Rename

/-!
# Names that fit the target

Four passes change names: a suffix for asynchronous methods, capitals for
namespaces, an escape for reserved names, and a suffix for properties that bear
the name of their class. A class or property that is escaped keeps its former
name as its name on the wire, unless it has one already.
-/

namespace CodeModel

/-- How a reserved name is escaped: by an at sign before the capitalized name,
    or by a fixed ending. -/
inductive EscapeStyle where
  | atSign
  | suffix (ending : String)
deriving DecidableEq, Repr, Inhabited

namespace EscapeStyle

/-- The escaped name. -/
def apply : EscapeStyle → String → String
  | atSign, name => "@" ++ Text.capitalize name
  | suffix ending, name => name ++ ending

end EscapeStyle

namespace Element

/-- Whether a reserved name of the element is escaped: indexers and constructors
    keep theirs. -/
def isEscapable (e : Element) : Bool :=
  match e.content with
  | .method m => !m.kind.isConstructor
  | .indexer _ => false
  | _ => true

end Element

namespace Tree

/-- The asynchronous method of a handle whose name lacks a suffix: the name. -/
def unsuffixedAsync? (t : Tree) (suffix : String) (id : ElementId) :
    Option String :=
  match t.get? id with
  | none => none
  | some e =>
      if e.method?.any (·.isAsync)
        ∧ ¬ suffix.toList <:+ e.name.toList then some e.name else none

/-- The property of a class that bears its name. -/
def namesakeProperty? (t : Tree) (id : ElementId) : Option ElementId :=
  (t.childrenOfKind id .property).find? fun p => t.name? p = t.name? id

end Tree

namespace Edit

/-- Ends the names of asynchronous methods in a suffix. -/
def addAsyncSuffix (suffix : String) : Edit Unit :=
  crawl fun id => do
    match (← get).unsuffixedAsync? suffix id with
    | none => return
    | some name => setName id (name ++ suffix)

/-- Capitalizes the names of namespaces. -/
def capitalizeNamespaces : Edit Unit :=
  crawl fun id => do
    let e ← inspect (·.element id)
    if e.kind = .namespaceDecl ∧ Text.capitalize e.name ≠ e.name then
      setName id (Text.capitalize e.name)

/-- Escapes reserved names. -/
def escapeReservedNames (reserved : ReservedNames) (style : EscapeStyle) :
    Edit Unit :=
  crawl fun id => do
    let e ← inspect (·.element id)
    if e.isEscapable && reserved.contains e.name then
      setName id (style.apply e.name)
      modifyElement id (Element.keepWireName e.name)

/-- Ends the name of the property of a class in a suffix that bears the name of
    the class. -/
def disambiguateProperty (suffix : String) (id : ElementId) : Edit Unit := do
  let t ← get
  let e ← inspect (·.element id)
  if e.kind ≠ .classDecl then return
  match t.namesakeProperty? id with
  | none => return
  | some property =>
      discard <| remove id property
      modifyElement property (Element.keepWireName e.name)
      setName property (e.name ++ suffix)
      add .properties id [property]

/-- Ends the names of properties in a suffix that bear the name of their class. -/
def disambiguateProperties (suffix : String) : Edit Unit :=
  crawl (disambiguateProperty suffix)

end Edit

end CodeModel
