import CodeModel.Refine.Traversal
import CodeModel.Tree.Insert

/-!
# Imports that a target always needs

Some imports do not come from the model but from the target: base libraries of
classes of some kinds, and the interface by which models are serialized.
-/

namespace CodeModel

/-- An import that a target asks for: the module, and the symbol for targets
    that import symbols one by one. -/
structure ImportSpec where
  moduleName : String
  symbol : Option String := none
deriving DecidableEq, Repr, Inhabited

namespace ImportSpec

/-- The import of a declaration block. -/
def toImport (s : ImportSpec) : Import :=
  match s.symbol with
  | some symbol => .ofSymbol s.moduleName (.external symbol)
  | none => .ofModule s.moduleName

end ImportSpec

/-- An import for all classes of some kinds; no kinds stand for all. -/
structure DefaultImport where
  kinds : List ClassKind
  spec : ImportSpec
deriving DecidableEq, Repr, Inhabited

namespace DefaultImport

/-- Whether classes of a kind get the import. -/
def appliesTo (d : DefaultImport) (kind : ClassKind) : Bool :=
  d.kinds.isEmpty || d.kinds.contains kind

end DefaultImport

namespace Edit

/-- Gives every class the imports for its kind. -/
def seedImports (defaults : List DefaultImport) : Edit Unit :=
  crawl fun id => do
    match (← get).class? id with
    | none => return
    | some c =>
        let new := (defaults.filter (·.appliesTo c.kind)).map (·.spec.toImport)
        if new.isEmpty then return
        discard <| addImports id new

/-- Makes every model class implement an interface and import it. -/
def implementInModels (interface : String) (spec : ImportSpec) : Edit Unit :=
  crawl fun id => do
    if !(← get).isClassOf id [.model] then return
    modifyElement id (Element.mapClass (·.addInterface (.external interface)))
    discard <| addImports id [spec.toImport]

end Edit

end CodeModel
