import CodeModel.Tree.Ancestry

/-!
# What lies below an element

* **`descendants`**: everything below an element, each element before what it
  holds.
* **`findChild?`**: the first element of a name and kind, those held directly
  before deeper ones. A namespace is also found by a dotted path.
* **`findChildren`**: all of them.

The walk downwards goes at most as deep as the arena has elements, which is
enough whenever no element is below itself.
-/

namespace CodeModel

namespace Tree

/-- What lies below an element down to a depth of `n`, each element before what
    it holds. -/
def descendantsWithin (t : Tree) : Nat → ElementId → List ElementId
  | 0, _ => []
  | n + 1, id => (t.children id).flatMap fun c => c :: t.descendantsWithin n c

/-- Everything below an element, each element before what it holds. -/
def descendants (t : Tree) (id : ElementId) : List ElementId :=
  t.descendantsWithin t.size id

/-- The classes of some kinds below an element. -/
def classesOfKind (t : Tree) (id : ElementId) (kinds : List ClassKind) :
    List ElementId :=
  (t.descendants id).filter fun c => t.isClassOf c kinds

/-- The first element of a name and kind down to a depth of `n`. -/
def findWithin (t : Tree) (name : String) (kind : NodeKind) : Nat → ElementId →
    Option ElementId
  | 0, _ => none
  | n + 1, id =>
      match t.child? id name kind with
      | some found => some found
      | none => (t.children id).findSome? (t.findWithin name kind n)

/-- The namespace reached from another by a dotted path. -/
def namespaceAt? (t : Tree) (start : ElementId) (path : String) :
    Option ElementId :=
  (Dotted.split (t.relativePath start path)).foldlM
    (fun id segment => t.child? id segment .namespaceDecl)
    start

/-- Refuses an empty name and a handle without an element, as both searches do. -/
def checkSearch (t : Tree) (start : ElementId) (name : String) :
    Except ModelError Unit :=
  if name.isEmpty then .error (.empty "name")
  else
    match t.get? start with
    | some _ => .ok ()
    | none => .error (.missing "element")

/-- The first element of a name and kind below `start`: those held directly
    first, then what each of them holds, in order. A namespace may be given by a
    dotted path. -/
def findChild? (t : Tree) (start : ElementId) (name : String) (kind : NodeKind) :
    Except ModelError (Option ElementId) := do
  t.checkSearch start name
  if kind = .namespaceDecl
    ∧ Dotted.HasDot name then return t.namespaceAt? start name
  else return t.findWithin name kind t.size start

/-- Whether an element answers to a name: by its own name, or as a namespace by
    its dotted name or by its path from `start`. -/
def answersTo (t : Tree) (start : ElementId) (name : String) (kind : NodeKind)
    (id : ElementId) : Bool :=
  if kind = .namespaceDecl ∧ Dotted.HasDot name then
    t.isNamespace id
      ∧ (t.qualifiedName id = name ∨ t.namespaceAt? start name = some id)
  else t.isNamed id name kind

/-- All elements of a name and kind below `start`, in the order of
    `descendants`. -/
def findChildren (t : Tree) (start : ElementId) (name : String) (kind : NodeKind) :
    Except ModelError (List ElementId) := do
  t.checkSearch start name
  return (t.descendants start).filter (t.answersTo start name kind)

end Tree

end CodeModel
