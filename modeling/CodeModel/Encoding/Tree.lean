import CodeModel.Encoding.TypeRef
import CodeModel.Json.Printer
import CodeModel.Tree.Basic

/-!
# The written form of elements and trees
-/

namespace CodeModel

namespace ClassKind

/-- Reads a kind of class. -/
def ofJson? (j : Json) : Option ClassKind :=
  j.plain?.bind ofLabel?

end ClassKind

namespace ClassDecl

/-- The written form of a class. -/
def toJson (c : ClassDecl) : Json :=
  .object
    [("kind", .string c.kind.label),
     ("declaration", .object
       [("token", .string c.token),
         ("inherits", .ofOption TypeRef.toJson c.inherits),
        ("implements", .ofList TypeRef.toJson c.implements),
        ("usings", .ofList Import.toJson c.imports)]),
     ("serialization_name", .ofOption .string c.serializationName)]

/-- Reads a class. -/
def ofJson? (j : Json) : Option ClassDecl := do
  let r ← j.record? ["kind", "declaration", "serialization_name"]
  let kind ← r.required "kind" ClassKind.ofJson?
  let header ← r.required "declaration"
    (Json.record? ["token", "inherits", "implements", "usings"])
  let token ← header.required "token" Json.string?
  let inherits ← header.optional "inherits" TypeRef.ofJson?
  let implements ← header.required "implements" (Json.list? TypeRef.ofJson?)
  let imports ← header.required "usings" (Json.list? Import.ofJson?)
  let serializationName ← r.optional "serialization_name" Json.string?
  return { kind, token, inherits, implements, imports, serializationName }

end ClassDecl

namespace MethodDecl

/-- The written form of a method. -/
def toJson (m : MethodDecl) : Json :=
  .object
    [("kind", .string m.kind.label), ("return_type", m.returnType.toJson),
      ("is_async", .bool m.isAsync)]

/-- Reads a method. -/
def ofJson? (j : Json) : Option MethodDecl := do
  let r ← j.record? ["kind", "return_type", "is_async"]
  let kind ← r.required "kind" fun k => k.plain?.bind MethodKind.ofLabel?
  let returnType ← r.required "return_type" TypeRef.ofJson?
  let isAsync ← r.required "is_async" Json.bool?
  return { kind, returnType, isAsync }

end MethodDecl

namespace PropertyDecl

/-- The written form of a property. -/
def toJson (p : PropertyDecl) : Json :=
  .object
    [("kind", .string p.kind.label), ("type_ref", p.type.toJson),
     ("serialization_name", .ofOption .string p.serializationName),
     ("default_value", .ofOption .string p.defaultValue)]

/-- Reads a property. -/
def ofJson? (j : Json) : Option PropertyDecl := do
  let r ← j.record? ["kind", "type_ref", "serialization_name", "default_value"]
  let kind ← r.required "kind" fun k => k.plain?.bind PropertyKind.ofLabel?
  let type ← r.required "type_ref" TypeRef.ofJson?
  let serializationName ← r.optional "serialization_name" Json.string?
  let defaultValue ← r.optional "default_value" Json.string?
  return { kind, type, serializationName, defaultValue }

end PropertyDecl

namespace ParameterDecl

/-- The written form of a parameter. -/
def toJson (p : ParameterDecl) : Json :=
  .object
    [("kind", .string p.kind.label), ("type_ref", p.type.toJson),
     ("default_value", .ofOption .string p.defaultValue)]

/-- Reads a parameter. -/
def ofJson? (j : Json) : Option ParameterDecl := do
  let r ← j.record? ["kind", "type_ref", "default_value"]
  let kind ← r.required "kind" fun k => k.plain?.bind ParameterKind.ofLabel?
  let type ← r.required "type_ref" TypeRef.ofJson?
  let defaultValue ← r.optional "default_value" Json.string?
  return { kind, type, defaultValue }

end ParameterDecl

namespace IndexerDecl

/-- The written form of an indexer. -/
def toJson (i : IndexerDecl) : Json :=
  .object [("index_type", i.indexType.toJson), ("return_type", i.returnType.toJson)]

/-- Reads an indexer. -/
def ofJson? (j : Json) : Option IndexerDecl := do
  let r ← j.record? ["index_type", "return_type"]
  let indexType ← r.required "index_type" TypeRef.ofJson?
  let returnType ← r.required "return_type" TypeRef.ofJson?
  return { indexType, returnType }

end IndexerDecl

namespace Content

/-- The written form of the content of an element. -/
def toJson (content : Content) : Json :=
  .ofVariant content.kind.label <|
    match content with
    | namespaceDecl imports => .object [("usings", .ofList Import.toJson imports)]
    | classDecl c => c.toJson
    | enumDecl options => .object [("options", .ofList .string options)]
    | method m => m.toJson
    | property p => p.toJson
    | parameter p => p.toJson
    | indexer i => i.toJson

/-- Reads the content of an element. -/
def ofJson? (j : Json) : Option Content := do
  let (label, content) ← j.variant?
  match ← NodeKind.ofLabel? label with
  | .namespaceDecl =>
      let r ← content.record? ["usings"]
      return namespaceDecl (← r.required "usings" (Json.list? Import.ofJson?))
  | .classDecl => return classDecl (← ClassDecl.ofJson? content)
  | .enumDecl =>
      let r ← content.record? ["options"]
      return enumDecl (← r.required "options" (Json.list? Json.string?))
  | .method => return method (← MethodDecl.ofJson? content)
  | .property => return property (← PropertyDecl.ofJson? content)
  | .parameter => return parameter (← ParameterDecl.ofJson? content)
  | .indexer => return indexer (← IndexerDecl.ofJson? content)

end Content

namespace Element

/-- The written form of an element. -/
def toJson (e : Element) : Json :=
  .object
    [("name", .string e.name), ("parent", .ofOption ElementId.toJson e.parent),
     ("children", .ofList ElementId.toJson e.children),
     ("description", .ofOption .string e.description), ("kind", e.content.toJson)]

/-- Reads an element. -/
def ofJson? (j : Json) : Option Element := do
  let r ← j.record? ["name", "parent", "children", "description", "kind"]
  let name ← r.required "name" Json.string?
  let parent ← r.optional "parent" ElementId.ofJson?
  let children ← r.required "children" (Json.list? ElementId.ofJson?)
  let description ← r.optional "description" Json.string?
  let content ← r.required "kind" Content.ofJson?
  return { name, parent, children, description, content }

end Element

namespace Tree

/-- The written form of a tree. -/
def toJson (t : Tree) : Json :=
  .object [("elements", .ofList Element.toJson t.elements.toList),
    ("root", t.root.toJson)]

/-- Reads a tree. -/
def ofJson? (j : Json) : Option Tree := do
  let r ← j.record? ["elements", "root"]
  let elements ← r.required "elements" (Json.list? Element.ofJson?)
  let root ← r.required "root" ElementId.ofJson?
  return ⟨elements.toArray, root⟩

/-- The text of a tree. -/
def pretty (t : Tree) : String :=
  t.toJson.pretty

end Tree

end CodeModel
