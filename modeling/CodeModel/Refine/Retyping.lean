import CodeModel.NameMap
import CodeModel.Refine.ImportSeeding

/-!
# Types that fit the target

Three passes change types: a native type for binary data, absence for properties
of an enum type, and the target's names for the types of the base libraries.
-/

namespace CodeModel

/-- What replaces the type and the start value of additional data. -/
structure AdditionalDataCorrection where
  typeName : String
  defaultValue : String
deriving DecidableEq, Repr, Inhabited

/-- The target's names for the types of the base libraries that are known by
    their names alone, and what replaces additional data and what deserializers
    return. In the latter an empty pair of braces stands for the class that owns
    the deserializer. -/
structure TypeCorrections where
  renames : NameMap String := .empty
  additionalData : Option AdditionalDataCorrection := none
  deserializerReturn : Option String := none
deriving DecidableEq, Inhabited

/-- Puts `filler` in place of every empty pair of braces. -/
def fillBraces (filler : List Char) : List Char → List Char
  | '\x7b' :: '\x7d' :: rest => filler ++ fillBraces filler rest
  | c :: rest => c :: fillBraces filler rest
  | [] => []

namespace TypeRef

/-- The name of binary data before it is replaced. -/
def binaryName : String :=
  "binary"

/-- Whether a reference stands for binary data. -/
def isBinary (r : TypeRef) : Bool :=
  r.isExternal && r.name == binaryName

/-- The same reference with every reference to binary data named `typeName`. -/
def replaceBinary (typeName : String) (r : TypeRef) : TypeRef :=
  r.rename fun s => if s.isBinary then typeName else s.name

/-- Whether a reference holds one to binary data. -/
def holdsBinary (r : TypeRef) : Bool :=
  r.walk.any isBinary

/-- The same reference with the target's names for types known by their names
    alone. -/
def correctNames (renames : NameMap String) (r : TypeRef) : TypeRef :=
  r.rename fun s => if s.isExternal then (renames.get? s.name).getD s.name
    else s.name

end TypeRef

namespace TypeCorrections

/-- The type that deserializers of the class `owner` return. -/
def deserializerType (template owner : String) : TypeRef :=
  .external (String.ofList (fillBraces owner.toList template.toList))

/-- The corrections by what an element is for: additional data and
    deserializers. -/
def correctKind (c : TypeCorrections) (owner : String) : Content → Content
  | .property p =>
      match p.kind, c.additionalData with
      | .additionalData, some a =>
          .property { p with
            type := p.type.withName a.typeName
            defaultValue := some a.defaultValue }
      | _, _ => .property p
  | .method m =>
      match m.kind, c.deserializerReturn with
      | .deserializer, some template =>
          .method { m with returnType := deserializerType template owner }
      | _, _ => .method m
  | content => content

/-- The corrections by the names of types, for the members of a class. -/
def correctTypes (c : TypeCorrections) : Content → Content
  | .method m =>
      .method { m with returnType := m.returnType.correctNames c.renames }
  | .property p => .property { p with type := p.type.correctNames c.renames }
  | .parameter p => .parameter { p with type := p.type.correctNames c.renames }
  | .indexer i =>
      .indexer {
        indexType := i.indexType.correctNames c.renames
        returnType := i.returnType.correctNames c.renames }
  | content => content

end TypeCorrections

namespace Tree

/-- The elements whose types a property or method answers for: itself and its
    parameters. -/
def typeHolders (t : Tree) (id : ElementId) : List ElementId :=
  match t.kind? id with
  | some .property => [id]
  | some .method => id :: t.childrenOfKind id .parameter
  | _ => []

/-- Whether a property has an enum for its type. -/
def isEnumProperty (t : Tree) (id : ElementId) : Bool :=
  match (t.property? id).bind (·.type.definition?) with
  | some target => t.kind? target = some .enumDecl
  | none => false

end Tree

namespace Edit

/-- Names binary data by a native type, which the class of a member so changed
    imports. -/
def replaceBinary (typeName : String) (spec : ImportSpec) : Edit Unit :=
  crawl fun id => do
    let t ← get
    let holders := t.typeHolders id
    let touched := holders.any fun h => (t.valueType? h).any TypeRef.holdsBinary
    holders.forM fun h =>
      modifyElement h (Element.mapValueType (TypeRef.replaceBinary typeName))
    match t.parent? id with
    | none => return
    | some owner =>
        if touched && (t.class? owner).isSome then
          discard <| addImports owner [spec.toImport]

/-- Lets properties of an enum type be absent. -/
def makeEnumPropertiesNullable : Edit Unit :=
  crawl fun id => do
    if (← get).isEnumProperty id then
      modifyElement id
        (Element.mapProperty fun p => { p with type := p.type.nullable })

/-- Puts the target's names for the types of the base libraries. -/
def correctTypes (c : TypeCorrections) : Edit Unit :=
  crawl fun id => do
    let t ← get
    let owner := ((t.parent? id).bind t.name?).getD ""
    modifyElement id (Element.mapContent fun content =>
      c.correctTypes (c.correctKind owner content))

end Edit

end CodeModel
