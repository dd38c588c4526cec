import CodeModel.Tree.Descent
import CodeModel.Tree.Edit

/-!
# Putting elements into a tree

Elements join a tree in batches, through one of eight slots. A slot says what
holds the elements and what they have to be. A batch is checked as a whole
before any of it is attached (`insert_eq_ok_iff`): every element must exist, be
free, not lie above its holder, be listed once and collide with nothing.

Two elements of one holder collide when they bear one name, with two exceptions:
overloads whose parameter types differ, and the request builder property that
stands beside the method which the indexer used to be.
-/

namespace CodeModel

/-- A place where elements join others: the namespaces, classes and enums of a
    namespace, the classes, properties and methods of a class and its indexer,
    and the parameters of a method. -/
inductive Slot where
  | namespaces
  | classes
  | enums
  | innerClasses
  | properties
  | methods
  | parameters
  | indexer
deriving DecidableEq, Repr

namespace Slot

/-- What holds the elements. -/
def holderKind : Slot → NodeKind
  | namespaces | classes | enums => .namespaceDecl
  | innerClasses | properties | methods | indexer => .classDecl
  | parameters => .method

/-- What the elements are. -/
def memberKind : Slot → NodeKind
  | namespaces => .namespaceDecl
  | classes | innerClasses => .classDecl
  | enums => .enumDecl
  | properties => .property
  | methods => .method
  | parameters => .parameter
  | indexer => .indexer

/-- How a refusal calls the holder. -/
def holderArgument : Slot → String
  | namespaces => "parent"
  | classes | enums => "namespace"
  | innerClasses | properties | methods | indexer => "class"
  | parameters => "method"

/-- How a refusal calls the elements. -/
def memberArgument : Slot → String
  | namespaces => "namespace"
  | classes | innerClasses => "classes"
  | enums => "enums"
  | properties => "properties"
  | methods => "methods"
  | parameters => "parameters"
  | indexer => "indexer"

end Slot

/-! ## Collisions -/

namespace Content

/-- Whether two elements could stand side by side under one name, their
    parameters being as given. -/
def coexist (sameSignature : Bool) : Content → Content → Bool
  | .method m, .method n =>
      m.kind.isOverloadable && n.kind.isOverloadable && !sameSignature
  | .property p, .method m =>
      p.kind = .requestBuilder ∧ m.kind = .indexerBackwardCompatibility
  | .method m, .property p =>
      p.kind = .requestBuilder ∧ m.kind = .indexerBackwardCompatibility
  | _, _ => false

end Content

namespace Tree

/-- The types of the parameters of a method, as overloads are told apart by
    them. -/
def signature (t : Tree) (method : ElementId) : List String :=
  ((t.childrenOfKind method .parameter).filterMap t.parameter?).map fun p =>
    if p.type.isCollection then p.type.name ++ "[]" else p.type.name

/-- Whether two elements collide as members of one holder. -/
def collides (t : Tree) (a b : ElementId) : Bool :=
  match t.get? a, t.get? b with
  | some x, some y =>
      x.name == y.name && !Content.coexist (t.signature a == t.signature b)
        x.content y.content
  | _, _ => false

/-! ## Checking and attaching a batch -/

/-- The element of a handle, refused unless it is of a kind. -/
def expectKind (t : Tree) (id : ElementId) (kind : NodeKind) (argument : String) :
    Except ModelError Element :=
  match t.get? id with
  | none => .error (.missing argument)
  | some e =>
      if e.kind = kind then .ok e else .error (.wrongKind e.name e.kind kind)

/-- Refuses an element that cannot join `holder` after the elements `earlier` of
    its batch. -/
def checkMember (t : Tree) (slot : Slot) (holder : ElementId) (holderName : String)
    (earlier : List ElementId) (child : ElementId) : Except ModelError Unit :=
  match t.get? child with
  | none => .error (.missing slot.memberArgument)
  | some e =>
      if e.kind ≠ slot.memberKind
        then .error (.notAccepted e.kind e.name holderName)
      else if child = t.root ∨ e.parent.isSome then .error (.alreadyHeld e.name)
      else if child = holder
        ∨ t.isAncestor child holder then .error (.belowItself e.name)
      else if child ∈ earlier then .error (.listedTwice e.name)
      else if e.kind = .indexer ∧
          ((t.indexer? holder).isSome ∨ earlier.any fun c =>
            t.kind? c = some .indexer) then
        .error (.secondIndexer holderName)
      else if (t.children holder ++ earlier).any fun c => t.collides c child then
        .error (.nameTaken e.name holderName)
      else .ok ()

/-- Refuses a batch one of whose elements cannot join `holder` after those
    before it. -/
def checkMembers (t : Tree) (slot : Slot) (holder : ElementId)
    (holderName : String) :
    List ElementId → List ElementId → Except ModelError Unit
  | _, [] => .ok ()
  | earlier, c :: rest =>
      match t.checkMember slot holder holderName earlier c with
      | .error e => .error e
      | .ok () => t.checkMembers slot holder holderName (earlier ++ [c]) rest

/-- Links elements to a holder, after those it holds. -/
def attach (t : Tree) (holder : ElementId) (ids : List ElementId) : Tree :=
  (ids.foldl (fun t c => t.modify c fun e => { e with parent := some holder })
    t).modify holder
    fun e => { e with children := e.children ++ ids }

/-- Puts a batch of elements into a slot of a holder. -/
def insert (t : Tree) (slot : Slot) (holder : ElementId) (ids : List ElementId) :
    Except ModelError Tree :=
  match t.expectKind holder slot.holderKind slot.holderArgument with
  | .error e => .error e
  | .ok e =>
      if ids.isEmpty then .error (.empty slot.memberArgument)
      else
        match t.checkMembers slot holder e.name [] ids with
        | .error e => .error e
        | .ok () => .ok (t.attach holder ids)

/-- Takes an element out of its holder. The result says whether there was
    anything to take out. -/
def detach (t : Tree) (holder child : ElementId) : Bool × Tree :=
  if child ∈ t.children holder then
    (true, (t.modify holder fun e =>
      { e with children := e.children.erase child }).modify child
      fun e => { e with parent := none })
  else (false, t)

/-- A batch goes in exactly when its holder is of the right kind, there is
    something to put in, and no element of it is refused. -/
theorem insert_eq_ok_iff (t t' : Tree) (slot : Slot) (holder : ElementId)
    (ids : List ElementId) :
    t.insert slot holder ids = .ok t' ↔
      ∃ e, t.get? holder = some e ∧ e.kind = slot.holderKind ∧ ids ≠ []
        ∧ t.checkMembers slot holder e.name [] ids = .ok ()
        ∧ t' = t.attach holder ids := by
  rw [insert, expectKind]
  cases hg : t.get? holder with
  | none => simp
  | some e =>
      by_cases hk : e.kind = slot.holderKind
      · cases ids with
        | nil => simp [hk]
        | cons c rest =>
            cases hc : t.checkMembers slot holder e.name [] (c :: rest) with
            | error err => simp [hk, hc]
            | ok u => simp [hk, hc, eq_comm]
      · simp [hk]

end Tree

namespace Edit

/-- Makes a detached element. -/
def create (e : Element) : Edit ElementId :=
  changeWith fun t =>
    if e.name.isEmpty then .error (.empty "name")
      else .ok (t.nextId, t.push e.detached)

/-- Puts elements into a slot of a holder. -/
def add (slot : Slot) (holder : ElementId) (ids : List ElementId) : Edit Unit :=
  change fun t => t.insert slot holder ids

/-- Makes an element and puts it into a slot of a holder. The element stays in
    the arena when the slot refuses it. -/
def addNew (slot : Slot) (holder : ElementId) (e : Element) : Edit ElementId := do
  let id ← create e
  add slot holder [id]
  return id

/-- The namespace of one name in another, made when it is not there. -/
def enterNamespace (holder : ElementId) (segment : String) : Edit ElementId := do
  if segment.isEmpty then throw (.empty "namespace segment")
  match (← get).child? holder segment .namespaceDecl with
  | some existing => return existing
  | none => addNew .namespaces holder (Element.ofNamespace segment)

/-- The namespace reached from another by a dotted path, with every namespace on
    the way made that is not there. A path that repeats the dotted name of the
    namespace is taken relative to it. -/
def addNamespace (start : ElementId) (path : String) : Edit ElementId := do
  if path.isEmpty then throw (.empty "name")
  let _ ← inspect fun t => t.expectKind start .namespaceDecl "parent"
  (Dotted.split ((← get).relativePath start path)).foldlM enterNamespace start

/-- Takes an element out of its holder. -/
def remove (holder child : ElementId) : Edit Bool :=
  changeWith fun t => .ok (t.detach holder child)

/-- Adds imports to a class or namespace and gives the number of those that were
    new. -/
def addImports (target : ElementId) (new : List Import) : Edit Nat :=
  changeWith fun t =>
    if new.isEmpty then .error (.empty "usings")
    else if new.any fun i => i.name.isEmpty then .error (.empty "using name")
    else
      match t.get? target with
      | none => .error (.missing "target")
      | some e =>
          match e.imports? with
          | none => .error (.noImportBlock e.name)
          | some block =>
              let grown := Import.addImports block new
              .ok (grown.length - block.length,
                t.modify target (Element.mapImports fun _ => grown))

end Edit

end CodeModel
