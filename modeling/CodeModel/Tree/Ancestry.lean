import CodeModel.Text.Dotted
import CodeModel.Tree.Basic

/-!
# Where an element sits

The holder of an element, the holder of that, and so on up: the ancestors. From
them follow whether an element is attached to the root, which namespace it sits
in, the dotted name of that namespace, and the name that an import of it
carries.

The walk upwards takes at most as many steps as the arena has elements, which is
enough whenever no element is its own ancestor.
-/

namespace CodeModel

namespace Tree

/-- The ancestors of an element, nearest first, at most `n` of them. -/
def ancestorsWithin (t : Tree) : Nat → ElementId → List ElementId
  | 0, _ => []
  | n + 1, id =>
      match t.parent? id with
      | none => []
      | some p => p :: t.ancestorsWithin n p

/-- The ancestors of an element, nearest first. -/
def ancestors (t : Tree) (id : ElementId) : List ElementId :=
  t.ancestorsWithin t.size id

/-- Whether `a` is strictly above `id`. -/
def isAncestor (t : Tree) (a id : ElementId) : Bool :=
  (t.ancestors id).contains a

/-- Whether an element is the root or below it. -/
def isAttached (t : Tree) (id : ElementId) : Bool :=
  id == t.root || t.isAncestor t.root id

/-- Whether `id` is `scope` or below it. -/
def isWithin (t : Tree) (scope id : ElementId) : Bool :=
  id == scope || t.isAncestor scope id

/-- Whether a handle names a namespace. -/
def isNamespace (t : Tree) (id : ElementId) : Bool :=
  t.kind? id = some .namespaceDecl

/-- The nearest namespace strictly above an element. -/
def containingNamespace? (t : Tree) (id : ElementId) : Option ElementId :=
  (t.ancestors id).find? t.isNamespace

/-- A namespace itself; for other elements the namespace they sit in. -/
def namespaceOf? (t : Tree) (id : ElementId) : Option ElementId :=
  match t.kind? id with
  | none => none
  | some .namespaceDecl => some id
  | some _ => t.containingNamespace? id

/-- The names of the namespaces from below the root down to `id`. -/
def namespaceSegments (t : Tree) (id : ElementId) : List String :=
  (((id :: t.ancestors id).takeWhile (· ≠ t.root)).filter
    t.isNamespace).reverse.filterMap t.name?

/-- The dotted name of the namespace of an element. -/
def qualifiedName (t : Tree) (id : ElementId) : String :=
  match t.namespaceOf? id with
  | some ns => Dotted.join (t.namespaceSegments ns)
  | none => ""

/-- The name that an import of a declaration carries: the dotted name of the
    namespace it sits in, or its own name at the root. -/
def importName (t : Tree) (id : ElementId) : String :=
  let qualified :=
    match t.containingNamespace? id with
    | some ns => t.qualifiedName ns
    | none => ""
  if qualified.isEmpty then (t.name? id).getD "" else qualified

/-- A path taken relative to a namespace: when it repeats the dotted name of the
    namespace and a dot, what comes after. -/
def relativePath (t : Tree) (start : ElementId) (path : String) : String :=
  Dotted.relativeTo (t.qualifiedName start) path

end Tree

end CodeModel
