import CodeModel.Element.Kind
import CodeModel.Import

/-!
# Elements

An element of a code model: its name, its place among the others, a description,
and the content that its kind calls for. Elements are built detached, by one
constructor for each kind and modifiers that leave elements of other kinds
alone.
-/

namespace CodeModel

/-- A class: what it is for, the identifier in its header (which is its name),
    what it inherits from and implements, its imports, and the name of the
    modelled schema on the wire where that is not the name of the class. -/
structure ClassDecl where
  kind : ClassKind := .custom
  token : String
  inherits : Option TypeRef := none
  implements : List TypeRef := []
  imports : List Import := []
  serializationName : Option String := none
deriving DecidableEq, Inhabited

/-- A method: what it is for, what it returns, and whether it runs
    asynchronously. Its parameters are children. -/
structure MethodDecl where
  kind : MethodKind := .custom
  returnType : TypeRef
  isAsync : Bool := false
deriving DecidableEq, Inhabited

/-- A property: what it is for, its type, its name on the wire where that is not
    its own name, and the expression that it starts with. -/
structure PropertyDecl where
  kind : PropertyKind := .custom
  type : TypeRef
  serializationName : Option String := none
  defaultValue : Option String := none
deriving DecidableEq, Inhabited

/-- A parameter of a method, with the expression that stands for an argument
    that is not given. -/
structure ParameterDecl where
  kind : ParameterKind := .custom
  type : TypeRef
  defaultValue : Option String := none
deriving DecidableEq, Inhabited

/-- An indexer. -/
structure IndexerDecl where
  indexType : TypeRef
  returnType : TypeRef
deriving DecidableEq, Inhabited

/-- What an element holds besides its name and place. -/
inductive Content where
  | namespaceDecl (imports : List Import)
  | classDecl (decl : ClassDecl)
  | enumDecl (options : List String)
  | method (decl : MethodDecl)
  | property (decl : PropertyDecl)
  | parameter (decl : ParameterDecl)
  | indexer (decl : IndexerDecl)
deriving DecidableEq, Inhabited

namespace Content

/-- What the content makes of an element. -/
def kind : Content → NodeKind
  | namespaceDecl _ => .namespaceDecl
  | classDecl _ => .classDecl
  | enumDecl _ => .enumDecl
  | method _ => .method
  | property _ => .property
  | parameter _ => .parameter
  | indexer _ => .indexer

end Content

/-- One element of a code model: its name, the element that holds it, the
    elements that it holds, in order, what documentation says of it, and what it
    holds besides. -/
structure Element where
  name : String
  parent : Option ElementId := none
  children : List ElementId := []
  description : Option String := none
  content : Content
deriving DecidableEq, Inhabited

namespace EnumOptions

/-- Adds an option at the end; an empty option and one that is there already add
    nothing. -/
def add (options : List String) (option : String) : List String :=
  if option.isEmpty ∨ option ∈ options then options else options ++ [option]

/-- Adds options one after another. -/
def ofList (options : List String) : List String :=
  options.foldl add []

end EnumOptions

namespace ClassDecl

/-- Adds an interface at the end unless one of that name and target is there. -/
def addInterface (c : ClassDecl) (interface : TypeRef) : ClassDecl :=
  if c.implements.any fun i => i.name = interface.name
    ∧ i.target = interface.target then c
  else { c with implements := c.implements ++ [interface] }

end ClassDecl

namespace Element

/-! ## Building -/

/-- A detached namespace. -/
def ofNamespace (name : String) : Element :=
  { name, content := .namespaceDecl [] }

/-- A detached class. -/
def ofClass (name : String) (kind : ClassKind) : Element :=
  { name, content := .classDecl { kind, token := name } }

/-- A detached enum, without the empty and the repeated options. -/
def ofEnum (name : String) (options : List String) : Element :=
  { name, content := .enumDecl (EnumOptions.ofList options) }

/-- A detached method. -/
def ofMethod (name : String) (kind : MethodKind) (returnType : TypeRef) : Element :=
  { name, content := .method { kind, returnType } }

/-- A detached property. -/
def ofProperty (name : String) (kind : PropertyKind) (type : TypeRef) : Element :=
  { name, content := .property { kind, type } }

/-- A detached parameter. -/
def ofParameter (name : String) (kind : ParameterKind) (type : TypeRef) : Element :=
  { name, content := .parameter { kind, type } }

/-- A detached indexer. -/
def ofIndexer (name : String) (indexType returnType : TypeRef) : Element :=
  { name, content := .indexer { indexType, returnType } }

/-- The same element with another description. -/
def describe (e : Element) (text : Option String) : Element :=
  { e with description := text }

/-! ## Reading -/

/-- What the element is. -/
def kind (e : Element) : NodeKind :=
  e.content.kind

/-- The class, if the element is one. -/
def class? (e : Element) : Option ClassDecl :=
  match e.content with
  | .classDecl c => some c
  | _ => none

/-- The options, if the element is an enum. -/
def options? (e : Element) : Option (List String) :=
  match e.content with
  | .enumDecl options => some options
  | _ => none

/-- The method, if the element is one. -/
def method? (e : Element) : Option MethodDecl :=
  match e.content with
  | .method m => some m
  | _ => none

/-- The property, if the element is one. -/
def property? (e : Element) : Option PropertyDecl :=
  match e.content with
  | .property p => some p
  | _ => none

/-- The parameter, if the element is one. -/
def parameter? (e : Element) : Option ParameterDecl :=
  match e.content with
  | .parameter p => some p
  | _ => none

/-- The block of imports, if the element has one. -/
def imports? (e : Element) : Option (List Import) :=
  match e.content with
  | .namespaceDecl imports => some imports
  | .classDecl c => some c.imports
  | _ => none

/-- The imports of a class or namespace; other elements have none. -/
def imports (e : Element) : List Import :=
  e.imports?.getD []

/-- The type of the element's value: what a method or indexer returns, the type
    of a property or parameter. -/
def valueType? (e : Element) : Option TypeRef :=
  match e.content with
  | .method m => some m.returnType
  | .property p => some p.type
  | .parameter p => some p.type
  | .indexer i => some i.returnType
  | _ => none

/-! ## Changing one part

Each of these leaves an element alone that has no such part. -/

/-- Replaces the content by what `f` makes of it. -/
def mapContent (f : Content → Content) (e : Element) : Element :=
  { e with content := f e.content }

/-- Changes a class. -/
def mapClass (f : ClassDecl → ClassDecl) : Element → Element :=
  mapContent fun
    | .classDecl c => .classDecl (f c)
    | content => content

/-- Changes the options of an enum. -/
def mapOptions (f : List String → List String) : Element → Element :=
  mapContent fun
    | .enumDecl options => .enumDecl (f options)
    | content => content

/-- Changes a method. -/
def mapMethod (f : MethodDecl → MethodDecl) : Element → Element :=
  mapContent fun
    | .method m => .method (f m)
    | content => content

/-- Changes a property. -/
def mapProperty (f : PropertyDecl → PropertyDecl) : Element → Element :=
  mapContent fun
    | .property p => .property (f p)
    | content => content

/-- Changes the block of imports. -/
def mapImports (f : List Import → List Import) : Element → Element :=
  mapContent fun
    | .namespaceDecl imports => .namespaceDecl (f imports)
    | .classDecl c => .classDecl { c with imports := f c.imports }
    | content => content

/-- Changes the type of the element's value. -/
def mapValueType (f : TypeRef → TypeRef) : Element → Element :=
  mapContent fun
    | .method m => .method { m with returnType := f m.returnType }
    | .property p => .property { p with type := f p.type }
    | .parameter p => .parameter { p with type := f p.type }
    | .indexer i => .indexer { i with returnType := f i.returnType }
    | content => content

/-- Sets the default value of a property or parameter. -/
def setDefault (value : Option String) : Element → Element :=
  mapContent fun
    | .property p => .property { p with defaultValue := value }
    | .parameter p => .parameter { p with defaultValue := value }
    | content => content

/-- Sets the name on the wire of a property or class. -/
def setSerializationName (name : Option String) : Element → Element :=
  mapContent fun
    | .property p => .property { p with serializationName := name }
    | .classDecl c => .classDecl { c with serializationName := name }
    | content => content

/-- Gives a property or class a name on the wire unless it has one. -/
def keepWireName (name : String) : Element → Element :=
  mapContent fun
    | .property p =>
        .property
          { p with serializationName := some (p.serializationName.getD name) }
    | .classDecl c =>
        .classDecl
          { c with serializationName := some (c.serializationName.getD name) }
    | content => content

/-- The same element under another name, which the header of a class repeats. -/
def withName (name : String) (e : Element) : Element :=
  { e.mapClass (fun c => { c with token := name }) with name }

/-- The same element without links to others. -/
def detached (e : Element) : Element :=
  { e with parent := none, children := [] }

end Element

end CodeModel
