import CodeModel.Element.References
import CodeModel.Error

/-!
# Trees

All elements of a model live in one arena. An element is named by its place
there, so links and type references stay valid while it is renamed, moved or
taken out. Nothing is ever removed from the arena; an element that nobody holds
is detached.

Main statements: `get?_modify` and `get?_push` say what the two ways to change
an arena do to every element; all other changes are made of these.
-/

namespace CodeModel

/-- A code model: the arena, which has every element ever made, attached or not,
    and the root namespace. -/
structure Tree where
  elements : Array Element
  root : ElementId
deriving DecidableEq, Inhabited

namespace Tree

/-- The tree that holds the unnamed root namespace only. -/
def initial : Tree :=
  ⟨#[Element.ofNamespace ""], ⟨0⟩⟩

/-- The number of elements ever made. -/
def size (t : Tree) : Nat :=
  t.elements.size

/-- The element of a handle. -/
def get? (t : Tree) (id : ElementId) : Option Element :=
  t.elements[id.index]?

/-- The element of a handle; a handle without one is refused. -/
def element (t : Tree) (id : ElementId) : Except ModelError Element :=
  match t.get? id with
  | some e => .ok e
  | none => .error (.missing "element")

/-- The handle that the next element will get. -/
def nextId (t : Tree) : ElementId :=
  ⟨t.elements.size⟩

/-- Every handle of the arena, ascending. -/
def ids (t : Tree) : List ElementId :=
  (List.range t.size).map ElementId.mk

/-- Changes the element of a handle; a handle without one changes nothing. -/
def modify (t : Tree) (id : ElementId) (f : Element → Element) : Tree :=
  { t with elements := t.elements.modify id.index f }

/-- Changes every element of the arena. -/
def mapElements (t : Tree) (f : Element → Element) : Tree :=
  { t with elements := t.elements.map f }

/-- Makes room for one more element. -/
def push (t : Tree) (e : Element) : Tree :=
  { t with elements := t.elements.push e }

/-! ## One element -/

/-- The name of an element. -/
def name? (t : Tree) (id : ElementId) : Option String :=
  (t.get? id).map (·.name)

/-- The holder of an element. -/
def parent? (t : Tree) (id : ElementId) : Option ElementId :=
  (t.get? id).bind (·.parent)

/-- The elements held by an element, in order. -/
def children (t : Tree) (id : ElementId) : List ElementId :=
  ((t.get? id).map (·.children)).getD []

/-- What an element is. -/
def kind? (t : Tree) (id : ElementId) : Option NodeKind :=
  (t.get? id).map (·.kind)

/-- The class of a handle. -/
def class? (t : Tree) (id : ElementId) : Option ClassDecl :=
  (t.get? id).bind (·.class?)

/-- The method of a handle. -/
def method? (t : Tree) (id : ElementId) : Option MethodDecl :=
  (t.get? id).bind (·.method?)

/-- The property of a handle. -/
def property? (t : Tree) (id : ElementId) : Option PropertyDecl :=
  (t.get? id).bind (·.property?)

/-- The parameter of a handle. -/
def parameter? (t : Tree) (id : ElementId) : Option ParameterDecl :=
  (t.get? id).bind (·.parameter?)

/-- The type of the value of a handle. -/
def valueType? (t : Tree) (id : ElementId) : Option TypeRef :=
  (t.get? id).bind (·.valueType?)

/-- Whether a handle names a class of one of some kinds. -/
def isClassOf (t : Tree) (id : ElementId) (kinds : List ClassKind) : Bool :=
  match t.class? id with
  | some c => kinds.contains c.kind
  | none => false

/-- Whether a handle names a class or an enum. -/
def isDeclaration (t : Tree) (id : ElementId) : Bool :=
  match t.kind? id with
  | some kind => kind.isDeclaration
  | none => false

/-- Whether a handle names an element of a kind and a name. -/
def isNamed (t : Tree) (id : ElementId) (name : String) (kind : NodeKind) : Bool :=
  match t.get? id with
  | some e => e.kind = kind ∧ e.name = name
  | none => false

/-! ## The elements held by one -/

/-- The elements of a kind held by an element, in order. -/
def childrenOfKind (t : Tree) (id : ElementId) (kind : NodeKind) : List ElementId :=
  (t.children id).filter fun c => t.kind? c = some kind

/-- The first element held that has a name and a kind. -/
def child? (t : Tree) (id : ElementId) (name : String) (kind : NodeKind) :
    Option ElementId :=
  (t.children id).find? fun c => t.isNamed c name kind

/-- Whether an element of some name is held. -/
def hasMember (t : Tree) (id : ElementId) (name : String) : Bool :=
  (t.children id).any fun c => t.name? c = some name

/-- The indexer of a class. -/
def indexer? (t : Tree) (id : ElementId) : Option ElementId :=
  (t.childrenOfKind id .indexer).head?

/-- The first parameter of a method that is of some kind. -/
def parameterOfKind? (t : Tree) (id : ElementId) (kind : ParameterKind) :
    Option ElementId :=
  (t.childrenOfKind id .parameter).find? fun p =>
    (t.parameter? p).any fun d => d.kind = kind

/-! ## Laws -/

/-- Modifying an element changes what is at its place, and nothing else. -/
theorem get?_modify (t : Tree) (id other : ElementId) (f : Element → Element) :
    (t.modify id f).get? other = if other = id then (t.get? other).map f
      else t.get? other := by
  obtain ⟨i⟩ := id
  obtain ⟨j⟩ := other
  simp only [get?, modify, Array.getElem?_modify, ElementId.mk.injEq]
  by_cases h : i = j
  · simp [h]
  · have h' : ¬ j = i := fun hc => h hc.symm
    simp [h, h']

/-- A new element is at the next place. -/
theorem get?_push (t : Tree) (e : Element) (id : ElementId) :
    (t.push e).get? id = if id = t.nextId then some e else t.get? id := by
  obtain ⟨i⟩ := id
  simp only [get?, push, nextId, Array.getElem?_push, ElementId.mk.injEq]

/-- Every element is changed in its place. -/
theorem get?_mapElements (t : Tree) (f : Element → Element) (id : ElementId) :
    (t.mapElements f).get? id = (t.get? id).map f := by
  simp [get?, mapElements]

@[simp]
theorem size_modify (t : Tree) (id : ElementId) (f : Element → Element) :
    (t.modify id f).size = t.size := by
  simp [size, modify]

@[simp]
theorem size_push (t : Tree) (e : Element) : (t.push e).size = t.size + 1 := by
  simp [size, push]

/-- The arena is without gaps. -/
theorem get?_isSome_iff (t : Tree) (id : ElementId) :
    (t.get? id).isSome ↔ id.index < t.size := by
  simp [get?, size]

end Tree

end CodeModel
