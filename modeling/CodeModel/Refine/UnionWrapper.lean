import CodeModel.Refine.Traversal
import CodeModel.Text.Case
import CodeModel.Tree.Insert

/-!
# Wrappers for union types

Targets without union types get a wrapper class for each union: a model with one
property for each alternative that may be absent. Where the union was used, a
reference to the wrapper takes its place. A union within a union gets a wrapper
of its own, made first.

A wrapper goes into its scope, which is the class that owns the use of the union
or the namespace around that class. Unions of the same alternatives in one scope
share a wrapper. Its name is the capitalized name of the union, or the first of
`…Wrapper`, `…Wrapper2`, `…Wrapper3`, … that is free there.
-/

namespace CodeModel

/-- Where wrappers go: into the class that owns the use, or beside that
    class. -/
inductive WrapperPlacement where
  | innerClasses
  | siblingClasses
deriving DecidableEq, Repr

/-- What a wrapper stands for: the class or namespace that holds it, and the
    alternatives. -/
structure WrapperKey where
  scope : ElementId
  members : List TypeRef
deriving DecidableEq

/-- The wrappers made so far. -/
abbrev Wrappers := List (WrapperKey × ElementId)

namespace Tree

/-- The `n`-th name to be tried in place of one that is taken, counted from
    one. -/
def wrapperName (base : String) (n : Nat) : String :=
  if n = 1 then base ++ "Wrapper" else base ++ "Wrapper" ++ n.repr

/-- The first name to be tried from the `n`-th on that is free in `scope`, among
    the next `fuel`. -/
def freeWrapperName (t : Tree) (scope : ElementId) (base : String) :
    Nat → Nat → String
  | 0, n => wrapperName base n
  | fuel + 1, n =>
      if t.hasMember scope (wrapperName base n)
        then t.freeWrapperName scope base fuel (n + 1)
      else wrapperName base n

/-- A name for a wrapper in `scope`: `base` if it is free there, else the first
    free one of the names tried in its place. There are more of those than the
    scope has members. -/
def availableName (t : Tree) (scope : ElementId) (base : String) : String :=
  if t.hasMember scope base
    then t.freeWrapperName scope base (t.children scope).length 1 else base

/-- The class that owns the use of a type by a member of it or by a parameter of
    its methods. -/
def typeOwner? (t : Tree) (id : ElementId) : Option ElementId :=
  let holder :=
    if t.kind? id = some .parameter then (t.parent? id).bind t.parent?
      else t.parent? id
  holder.filter fun c => (t.class? c).isSome

/-- The union type of a property, method, parameter or indexer. -/
def unionType? (t : Tree) (id : ElementId) : Option TypeRef :=
  (t.valueType? id).filter TypeRef.isUnion

end Tree

/-- The wrapper class of a union, without its members. -/
def wrapperClass (name : String) (members : List TypeRef) : Element :=
  let names := ", ".intercalate (members.map (·.name))
  (Element.ofClass name .model).describe
    (some s!"Union type wrapper for classes {names}")

/-- The property of a wrapper for one alternative. -/
def wrapperProperty (name : String) (type : TypeRef) : Element :=
  (Element.ofProperty name .custom type).describe
    (some s!"Union type representation for type {type.name}")

/-- The method of a wrapper that writes it. -/
def wrapperSerializer : Element :=
  Element.ofMethod "serialize" .serializer (.external "void")

/-- The parameter of that method. -/
def wrapperWriter : Element :=
  Element.ofParameter "writer" .serializer (.external "ISerializationWriter")

/-- The method of the wrapper `name` that reads it. -/
def wrapperDeserializer (name : String) : Element :=
  Element.ofMethod "getFieldDeserializers" .deserializer
    (.external s!"IDictionary<string, Action<{name}, IParseNode>>")

/-- Where a wrapper is made: the class or namespace that will hold it, and its
    slot. -/
structure WrapperSite where
  scope : ElementId
  slot : Slot

namespace Edit

/-- Makes the wrapper of a union and puts it into its scope. -/
def createWrapper (site : WrapperSite) (unionName : String) (members : List TypeRef)
    (properties : List (String × TypeRef)) : Edit ElementId := do
  let name := (← get).availableName site.scope (Text.capitalize unionName)
  let wrapper ← create (wrapperClass name members)
  let ids ← properties.mapM fun p => create (wrapperProperty p.1 p.2)
  if !ids.isEmpty then add .properties wrapper ids
  let serializer ← addNew .methods wrapper wrapperSerializer
  discard <| addNew .parameters serializer wrapperWriter
  discard <| addNew .methods wrapper (wrapperDeserializer name)
  add site.slot site.scope [wrapper]
  return wrapper

mutual

/-- What stands in the place of a type: for a union a reference to its wrapper,
    made unless there is one already, and else the type itself. -/
def standIn (site : WrapperSite) (w : Wrappers) : TypeRef →
    Edit (TypeRef × Wrappers)
  | ⟨name, .union members, isNullable, isCollection⟩ => do
      let key : WrapperKey := ⟨site.scope, members⟩
      let (wrapper, w) ←
        match w.lookup key with
        | some wrapper => pure (wrapper, w)
        | none => do
            let (properties, w) ← alternatives site w [] members
            let wrapper ← createWrapper site name members properties
            pure (wrapper, (key, wrapper) :: w)
      let e ← inspect (·.element wrapper)
      return (⟨e.name, .declared wrapper, isNullable, isCollection⟩, w)
  | ⟨name, .external, isNullable, isCollection⟩ =>
      return (⟨name, .external, isNullable, isCollection⟩, w)
  | ⟨name, .declared id, isNullable, isCollection⟩ =>
      return (⟨name, .declared id, isNullable, isCollection⟩, w)

/-- The name and type of a property for each alternative of a union whose name
    is not taken, by `taken` or by one before. -/
def alternatives (site : WrapperSite) (w : Wrappers) (taken : List String) :
    List TypeRef → Edit (List (String × TypeRef) × Wrappers)
  | [] => return ([], w)
  | member :: rest => do
      let name := Text.uncapitalize member.name
      if name ∈ taken then alternatives site w taken rest
      else
        let (type, w) ← standIn site w member
        let (properties, w) ← alternatives site w (name :: taken) rest
        return ((name, type.nullable) :: properties, w)

end

/-- Where the wrappers for the uses of a class go. -/
def wrapperSite (placement : WrapperPlacement) (owner : ElementId) :
    Edit WrapperSite := do
  match placement with
  | .innerClasses => return ⟨owner, .innerClasses⟩
  | .siblingClasses =>
      match (← get).containingNamespace? owner with
      | some scope => return ⟨scope, .classes⟩
      | none => throw (.missing "namespace")

/-- Puts a reference to a wrapper in the place of a union type. -/
def wrapUnion (placement : WrapperPlacement) (w : Wrappers) (id : ElementId) :
    Edit Wrappers := do
  let t ← get
  match t.unionType? id with
  | none => return w
  | some type =>
      match t.typeOwner? id with
      | none => throw (.unionOutsideClass type.name)
      | some owner =>
          let site ← wrapperSite placement owner
          let (wrapper, w) ← standIn site w type
          modifyElement id (Element.mapValueType fun _ => wrapper)
          return w

/-- Puts references to wrappers in the place of union types and gives the
    wrappers made. -/
def makeWrappers (placement : WrapperPlacement) : Edit Wrappers :=
  crawlWith [] (wrapUnion placement)

/-- Puts references to wrappers in the place of union types. -/
def wrapUnions (placement : WrapperPlacement) : Edit Unit :=
  discard (makeWrappers placement)

end Edit

end CodeModel
