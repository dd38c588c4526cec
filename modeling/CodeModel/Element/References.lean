import CodeModel.Element.Basic
import CodeModel.TypeRef.Walk

/-!
# The type references of an element

An element holds type references in slots: the header and the imports of a
class, the imports of a namespace, the types of a method, property, parameter or
indexer. `typeSlots` lists what stands in them, in a fixed order, and `mapTypes`
changes it; `references` walks through all of it.

Main statement: `typeSlots_mapTypes`, the slots of a changed element are the
changed slots.
-/

namespace CodeModel

namespace Import

/-- Changes the symbol of an import. -/
def mapSymbol (f : TypeRef → TypeRef) (i : Import) : Import :=
  { i with symbol := i.symbol.map f }

end Import

namespace Content

/-- What stands in the type slots, in order. -/
def typeSlots : Content → List TypeRef
  | namespaceDecl imports => imports.filterMap (·.symbol)
  | classDecl c =>
      c.inherits.toList ++ c.implements ++ c.imports.filterMap (·.symbol)
  | enumDecl _ => []
  | method m => [m.returnType]
  | property p => [p.type]
  | parameter p => [p.type]
  | indexer i => [i.indexType, i.returnType]

/-- Changes what stands in the type slots. -/
def mapTypes (f : TypeRef → TypeRef) : Content → Content
  | namespaceDecl imports => namespaceDecl (imports.map (·.mapSymbol f))
  | classDecl c =>
      classDecl { c with
        inherits := c.inherits.map f
        implements := c.implements.map f
        imports := c.imports.map (·.mapSymbol f) }
  | enumDecl options => enumDecl options
  | method m => method { m with returnType := f m.returnType }
  | property p => property { p with type := f p.type }
  | parameter p => parameter { p with type := f p.type }
  | indexer i =>
      indexer { indexType := f i.indexType, returnType := f i.returnType }

/-- Changing the symbols of imports changes the list of their symbols. -/
theorem filterMap_symbol_map (f : TypeRef → TypeRef) (imports : List Import) :
    (imports.map (·.mapSymbol f)).filterMap (·.symbol)
      = (imports.filterMap (·.symbol)).map f := by
  induction imports with
  | nil => rfl
  | cons i rest ih =>
      cases h : i.symbol <;> simp [Import.mapSymbol, h] at ih ⊢ <;> exact ih

/-- What `mapTypes` does, said slot by slot: the slots of the result are the
    images of the slots. -/
theorem typeSlots_mapTypes (f : TypeRef → TypeRef) (content : Content) :
    (content.mapTypes f).typeSlots = content.typeSlots.map f := by
  cases content with
  | namespaceDecl imports => exact filterMap_symbol_map f imports
  | classDecl c =>
      have h := filterMap_symbol_map f c.imports
      cases hi : c.inherits <;> simp [mapTypes, typeSlots, hi, h]
  | enumDecl _ => rfl
  | method _ => rfl
  | property _ => rfl
  | parameter _ => rfl
  | indexer _ => rfl

/-- Other types make no other kind. -/
theorem kind_mapTypes (f : TypeRef → TypeRef) (content : Content) :
    (content.mapTypes f).kind = content.kind := by
  cases content <;> rfl

end Content

namespace Element

/-- What stands in the type slots of an element, in order. -/
def typeSlots (e : Element) : List TypeRef :=
  e.content.typeSlots

/-- Every type reference held by an element, members of unions included. -/
def references (e : Element) : List TypeRef :=
  e.typeSlots.flatMap TypeRef.walk

/-- Changes what stands in the type slots of an element. -/
def mapTypes (f : TypeRef → TypeRef) : Element → Element :=
  mapContent (Content.mapTypes f)

@[simp]
theorem typeSlots_mapTypes (f : TypeRef → TypeRef) (e : Element) :
    (e.mapTypes f).typeSlots = e.typeSlots.map f :=
  Content.typeSlots_mapTypes f e.content

@[simp]
theorem kind_mapTypes (f : TypeRef → TypeRef) (e : Element) :
    (e.mapTypes f).kind = e.kind :=
  Content.kind_mapTypes f e.content

/-- Renaming in every slot renames every reference held. -/
theorem references_rename (f : TypeRef → String) (e : Element) :
    (e.mapTypes (·.rename f)).references = e.references.map (·.rename f) := by
  simp only [references, typeSlots_mapTypes, List.flatMap_map, List.map_flatMap,
    TypeRef.walk_rename]

/-- Rebinding in every slot rebinds every reference held. -/
theorem references_rebind (f : ElementId → ElementId) (e : Element) :
    (e.mapTypes (·.rebind f)).references = e.references.map (·.rebind f) := by
  simp only [references, typeSlots_mapTypes, List.flatMap_map, List.map_flatMap,
    TypeRef.walk_rebind]

end Element

end CodeModel
