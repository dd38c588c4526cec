import CodeModel.ImportPath
import CodeModel.Refine.Traversal
import CodeModel.Tree.Insert

/-!
# Imports of declarations

A class imports the declarations of the tree that its header and its members
refer to. Where files are imported, each of them is found by a relative path.
-/

namespace CodeModel

namespace Tree

/-- The types by which a member of a class refers to declarations. A class
    within the class stands for itself, so it gives none here. -/
def memberTypes (t : Tree) (id : ElementId) : List TypeRef :=
  match t.get? id with
  | none => []
  | some e =>
      match e.content with
      | .classDecl _ => []
      | .indexer i => [i.indexType, i.returnType]
      | .method m => m.returnType :: e.children.filterMap t.valueType?
      | _ => e.valueType?.toList

/-- The types by which the header of a class refers to declarations. -/
def headerTypes (t : Tree) (id : ElementId) : List TypeRef :=
  match t.class? id with
  | none => []
  | some c => c.inherits.toList ++ c.implements

/-- The declarations that a class refers to in its header and its members, each
    once, in the order in which it comes to them. -/
def referencedDeclarations (t : Tree) (id : ElementId) : List ElementId :=
  let types := t.headerTypes id ++ (t.children id).flatMap t.memberTypes
  ((types.flatMap TypeRef.walk).filterMap TypeRef.definition?).eraseDups

/-- The import of a declaration that a class refers to; `none` for the class
    itself, for what lies below it, and, unless asked for, for what shares its
    namespace. -/
def importOf? (t : Tree) (ownNamespaceToo : Bool) (id target : ElementId) :
    Option Import :=
  if t.isWithin id target then none
  else if !ownNamespaceToo
    ∧ t.containingNamespace? target = t.containingNamespace? id then none
  else (t.name? target).map fun name =>
    .ofSymbol (t.importName target) (.declared name target)

/-- The same import with the path to its declaration, when it is bound to one. -/
def withImportPath (t : Tree) (id : ElementId) (i : Import) :
    Except ModelError Import :=
  match i.target? with
  | none => .ok i
  | some target =>
      match t.importPath id target with
      | .ok path => .ok { i with path := some path }
      | .error e => .error e

end Tree

namespace Edit

/-- Makes every class import the declarations it refers to. -/
def importReferenced (ownNamespaceToo : Bool) : Edit Unit :=
  crawl fun id => do
    let t ← get
    if (t.class? id).isNone then return
    let new :=
      (t.referencedDeclarations id).filterMap (t.importOf? ownNamespaceToo id)
    if new.isEmpty then return
    discard <| addImports id new

/-- Gives every import of a class that is bound to a declaration the path to
    it. -/
def resolveImportPaths : Edit Unit :=
  crawl fun id => do
    match (← get).class? id with
    | none => return
    | some c =>
        let resolved ← inspect fun t => c.imports.mapM (t.withImportPath id)
        modifyElement id (Element.mapImports fun _ => resolved)

end Edit

end CodeModel
