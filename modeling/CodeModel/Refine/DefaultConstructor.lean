import CodeModel.Refine.Traversal
import CodeModel.Tree.Insert

/-!
# Constructors for default values

A class with a property that starts with a value gets a constructor that sets
it, unless it has one. A class of query parameters gets none, and a class that
inherits only if asked for.
-/

namespace CodeModel

namespace Tree

/-- Whether some property of a class starts with a value. -/
def hasDefaults (t : Tree) (id : ElementId) : Bool :=
  ((t.childrenOfKind id .property).filterMap t.property?).any fun p =>
    p.defaultValue.any fun v => !v.isEmpty

/-- Whether a class has a constructor. -/
def hasConstructor (t : Tree) (id : ElementId) : Bool :=
  ((t.childrenOfKind id .method).filterMap t.method?).any
    fun m => m.kind.isConstructor

/-- Whether a class is to get a constructor. -/
def lacksConstructor (t : Tree) (inheritingToo : Bool) (id : ElementId) : Bool :=
  match t.class? id with
  | none => false
  | some c =>
      c.kind != .queryParameters && (inheritingToo || c.inherits.isNone)
        && t.hasDefaults id
        && !t.hasConstructor id

end Tree

/-- The constructor of the class `owner`. -/
def defaultConstructor (owner : String) : Element :=
  (Element.ofMethod "constructor" .constructor (.external "void")).describe
    (some s!"Instantiates a new {owner} and sets the default values.")

namespace Edit

/-- Adds a constructor to every class that is to get one. -/
def addConstructors (inheritingToo : Bool) : Edit Unit :=
  crawl fun id => do
    let t ← get
    if t.lacksConstructor inheritingToo id then
      discard <| addNew .methods id (defaultConstructor ((t.name? id).getD ""))

end Edit

end CodeModel
