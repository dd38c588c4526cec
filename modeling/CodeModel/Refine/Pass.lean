import CodeModel.Refine.DefaultConstructor
import CodeModel.Refine.Flattening
import CodeModel.Refine.ImportResolution
import CodeModel.Refine.Relocation
import CodeModel.Refine.Renaming
import CodeModel.Refine.Retyping
import CodeModel.Refine.UnionWrapper

/-!
# Passes

A pass is one change of a whole tree, with its parameters. `Pass.name` is how
messages call it, and `Pass.apply` is the edit that it stands for.
-/

namespace CodeModel

/-- One change of a whole tree. `moveIntoNamesakes` moves classes that bear the
    name of a namespace beside them into it, `seedImports` gives classes the
    imports for their kinds, `nestQueryClasses` moves classes of query
    parameters into the builders that take them, and `disambiguateProperties`
    renames properties that bear the name of their class; the others do what
    their names say. -/
inductive Pass where
  | seedImports (defaults : List DefaultImport)
  | moveIntoNamesakes
  | wrapUnions (placement : WrapperPlacement)
  | flattenInheritance
  | importReferenced (ownNamespaceToo : Bool)
  | addAsyncSuffix (suffix : String)
  | nestQueryClasses
  | implementInModels (interface : String) (spec : ImportSpec)
  | capitalizeNamespaces
  | replaceBinary (typeName : String) (spec : ImportSpec)
  | makeEnumPropertiesNullable
  | escapeReservedNames (reserved : ReservedNames) (style : EscapeStyle)
  | disambiguateProperties (suffix : String)
  | addConstructors (inheritingToo : Bool)
  | correctTypes (corrections : TypeCorrections)
  | resolveImportPaths
deriving DecidableEq

namespace Pass

/-- The name of a pass in messages. -/
def name : Pass → String
  | seedImports _ => "add_default_imports"
  | moveIntoNamesakes => "move_classes_with_namespace_names_under_namespace"
  | wrapUnions _ => "convert_union_types_to_wrapper"
  | flattenInheritance => "flatten_inheritance"
  | importReferenced _ => "add_properties_and_methods_types_imports"
  | addAsyncSuffix _ => "add_async_suffix"
  | nestQueryClasses => "add_inner_classes"
  | implementInModels _ _ => "add_parsable_inheritance"
  | capitalizeNamespaces => "capitalize_namespaces_first_letters"
  | replaceBinary _ _ => "replace_binary_by_native_type"
  | makeEnumPropertiesNullable => "make_enum_properties_nullable"
  | escapeReservedNames _ _ => "replace_reserved_names"
  | disambiguateProperties _ => "disambiguate_properties_with_class_names"
  | addConstructors _ => "add_constructors_for_default_values"
  | correctTypes _ => "correct_core_types"
  | resolveImportPaths => "replace_relative_imports_by_paths"

/-- The edit that a pass stands for. -/
def apply : Pass → Edit Unit
  | seedImports defaults => Edit.seedImports defaults
  | moveIntoNamesakes => Edit.moveIntoNamesakes
  | wrapUnions placement => Edit.wrapUnions placement
  | flattenInheritance => Edit.flattenInheritance
  | importReferenced ownNamespaceToo => Edit.importReferenced ownNamespaceToo
  | addAsyncSuffix suffix => Edit.addAsyncSuffix suffix
  | nestQueryClasses => Edit.nestQueryClasses
  | implementInModels interface spec => Edit.implementInModels interface spec
  | capitalizeNamespaces => Edit.capitalizeNamespaces
  | replaceBinary typeName spec => Edit.replaceBinary typeName spec
  | makeEnumPropertiesNullable => Edit.makeEnumPropertiesNullable
  | escapeReservedNames reserved style => Edit.escapeReservedNames reserved style
  | disambiguateProperties suffix => Edit.disambiguateProperties suffix
  | addConstructors inheritingToo => Edit.addConstructors inheritingToo
  | correctTypes corrections => Edit.correctTypes corrections
  | resolveImportPaths => Edit.resolveImportPaths

end Pass

end CodeModel
