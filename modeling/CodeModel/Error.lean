import CodeModel.Element.Kind

/-!
# What can go wrong in a model

Every refusal of an operation on a model is one cause of `ModelError`. A cause
belongs to a category, which callers tell apart, and has one message, which
people read.
-/

namespace CodeModel

/-- Why an operation on a model was refused. An argument can be missing or
    empty; an element can be of a kind that the operation or the holder does not
    take, be held already, hold itself, be listed twice in a batch, be a second
    indexer, or collide with a member; the root is neither copied nor renamed;
    an element may have no block of imports, and only classes and enums are
    imported; a union may be used where no class owns it; a reference may be
    bound to nothing that the tree declares; and a declaration may sit in no
    namespace. -/
inductive ModelError where
  | missing (argument : String)
  | empty (argument : String)
  | wrongKind (name : String) (actual expected : NodeKind)
  | notAccepted (kind : NodeKind) (name holder : String)
  | alreadyHeld (name : String)
  | belowItself (name : String)
  | listedTwice (name : String)
  | secondIndexer (holder : String)
  | nameTaken (name holder : String)
  | rootNotCloned
  | rootNotRenamed
  | noImportBlock (name : String)
  | notImportable (name : String)
  | unionOutsideClass (name : String)
  | undeclared (element reference : String)
  | outsideNamespaces (name : String)
deriving DecidableEq, Repr

/-- The categories of refusals. -/
inductive ErrorCategory where
  | invalidArgument
  | invalidOperation
  | unresolvedReference
deriving DecidableEq, Repr

namespace ModelError

/-- The category of a cause. -/
def category : ModelError → ErrorCategory
  | missing _ => .invalidArgument
  | empty _ => .invalidArgument
  | undeclared _ _ => .unresolvedReference
  | outsideNamespaces _ => .unresolvedReference
  | _ => .invalidOperation

/-- What is wrong, without its category. -/
def detail : ModelError → String
  | missing argument => s!"`{argument}`: value is missing"
  | empty argument => s!"`{argument}`: value is empty"
  | wrongKind name actual expected =>
      s!"`{name}` is a {actual.label}, expected a {expected.label}"
  | notAccepted kind name holder =>
      s!"cannot add {kind.label} `{name}` to `{holder}`"
  | alreadyHeld name =>
      s!"`{name}` already belongs to another element, remove it first"
  | belowItself name => s!"`{name}` cannot be added below itself"
  | listedTwice name => s!"`{name}` appears twice in the same insertion"
  | secondIndexer holder => s!"`{holder}` already has an indexer, remove it first"
  | nameTaken name holder =>
      s!"an element named `{name}` already exists in `{holder}`"
  | rootNotCloned => "the root namespace cannot be cloned"
  | rootNotRenamed => "the root namespace cannot be renamed"
  | noImportBlock name => s!"`{name}` has no declaration block to hold imports"
  | notImportable name => s!"`{name}` is not a class or enum and cannot be imported"
  | unionOutsideClass name => s!"union type `{name}` is used outside of a class"
  | undeclared element reference =>
      s!"`{element}` references `{reference}` which is not declared in the tree"
  | outsideNamespaces name => s!"`{name}` is not attached to a namespace"

/-- The message of a cause. -/
def message (e : ModelError) : String :=
  match e.category with
  | .invalidArgument => s!"Invalid argument {e.detail}"
  | .invalidOperation => s!"Invalid operation: {e.detail}"
  | .unresolvedReference => s!"Unresolved reference: {e.detail}"

end ModelError

end CodeModel
