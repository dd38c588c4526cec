import CodeModel.Tree.Clone
import CodeModel.Tree.Insert
import CodeModel.Tree.Rename

/-!
# Operations of a client

What a client can do to a tree, as data: `Construction` is a way to build an
element, `Operation` one call. A client goes on after a refused call with the
tree that the refusal left, so `Operation.runAll` runs every call, refused or
not.
-/

namespace CodeModel

/-- A way to build an element: one of the constructors for its kind, then
    modifiers, which add a description, make a method asynchronous, give a
    property or a parameter a default value, give a property or a class a name
    on the wire, and let a class inherit. -/
inductive Construction where
  | namespaceDecl (name : String)
  | classDecl (name : String) (kind : ClassKind)
  | enumDecl (name : String) (options : List String)
  | method (name : String) (kind : MethodKind) (returnType : TypeRef)
  | property (name : String) (kind : PropertyKind) (type : TypeRef)
  | parameter (name : String) (kind : ParameterKind) (type : TypeRef)
  | indexer (name : String) (indexType returnType : TypeRef)
  | described (c : Construction) (text : String)
  | asynchronous (c : Construction)
  | defaulted (c : Construction) (value : String)
  | serialized (c : Construction) (name : String)
  | inheriting (c : Construction) (type : TypeRef)

namespace Construction

/-- The element built. -/
def element : Construction → Element
  | namespaceDecl name => .ofNamespace name
  | classDecl name kind => .ofClass name kind
  | enumDecl name options => .ofEnum name options
  | method name kind returnType => .ofMethod name kind returnType
  | property name kind type => .ofProperty name kind type
  | parameter name kind type => .ofParameter name kind type
  | indexer name indexType returnType => .ofIndexer name indexType returnType
  | described c text => c.element.describe (some text)
  | asynchronous c => c.element.mapMethod fun m => { m with isAsync := true }
  | defaulted c value => c.element.setDefault (some value)
  | serialized c name => c.element.setSerializationName (some name)
  | inheriting c type =>
      c.element.mapClass fun d => { d with inherits := some type }

end Construction

/-- One call of a client. `create` makes a detached element and `add` puts a
    batch of elements into a slot; `addNew` does both for one element; `remove`
    takes an element, if one is given, out of its holder; `addNamespace` enters
    a dotted path, making the namespaces that are not there. -/
inductive Operation where
  | create (c : Construction)
  | addNamespace (start : ElementId) (path : String)
  | add (slot : Slot) (holder : ElementId) (ids : List ElementId)
  | addNew (slot : Slot) (holder : ElementId) (c : Construction)
  | addImports (target : ElementId) (new : List Import)
  | remove (holder : ElementId) (child : Option ElementId)
  | cloneSubtree (source : ElementId)
  | setName (id : ElementId) (name : String)
  | rebindImports (scope : ElementId)

namespace Operation

/-- The edit that a call stands for. -/
def apply : Operation → Edit Unit
  | create c => discard <| Edit.create c.element
  | addNamespace start path => discard <| Edit.addNamespace start path
  | add slot holder ids => Edit.add slot holder ids
  | addNew slot holder c => discard <| Edit.addNew slot holder c.element
  | addImports target new => discard <| Edit.addImports target new
  | remove _ none => pure ()
  | remove holder (some child) => discard <| Edit.remove holder child
  | cloneSubtree source => discard <| Edit.cloneSubtree source
  | setName id name => Edit.setName id name
  | rebindImports scope => discard <| Edit.rebindImports scope

/-- The tree that a call leaves, refused or not. -/
def step (t : Tree) (op : Operation) : Tree :=
  Edit.treeOf (op.apply.run t)

/-- The tree that calls leave one after another. -/
def runAll (ops : List Operation) (t : Tree) : Tree :=
  ops.foldl step t

end Operation

end CodeModel
