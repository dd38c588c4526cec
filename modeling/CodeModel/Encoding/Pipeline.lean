import CodeModel.Encoding.Configuration
import CodeModel.Encoding.Tree
import CodeModel.Refine.Pipeline

/-!
# The written form of passes and pipelines
-/

namespace CodeModel

namespace ImportSpec

/-- The written form of an import that a target asks for. -/
def toJson (s : ImportSpec) : Json :=
  .object [("namespace", .string s.moduleName),
    ("symbol", .ofOption .string s.symbol)]

/-- Reads an import that a target asks for. -/
def ofJson? (j : Json) : Option ImportSpec := do
  let r ← j.record? ["namespace", "symbol"]
  let moduleName ← r.required "namespace" Json.string?
  let symbol ← r.optional "symbol" Json.string?
  return ⟨moduleName, symbol⟩

end ImportSpec

namespace DefaultImport

/-- The written form of an import for classes of some kinds. -/
def toJson (d : DefaultImport) : Json :=
  .object [("kinds", .ofList (fun k => .string k.label) d.kinds),
    ("import", d.spec.toJson)]

/-- Reads an import for classes of some kinds. -/
def ofJson? (j : Json) : Option DefaultImport := do
  let r ← j.record? ["kinds", "import"]
  let kinds ← r.required "kinds" (Json.list? ClassKind.ofJson?)
  let spec ← r.required "import" ImportSpec.ofJson?
  return ⟨kinds, spec⟩

end DefaultImport

namespace EscapeStyle

/-- The written form of a style of escaping. -/
def toJson : EscapeStyle → Json
  | atSign => .string "AtPrefixCapitalized"
  | suffix ending => .ofVariant "Suffix" (.string ending)

/-- Reads a style of escaping. -/
def ofJson? (j : Json) : Option EscapeStyle :=
  match j.variant? with
  | some ("AtPrefixCapitalized", .null) => some atSign
  | some ("Suffix", content) => content.string?.map suffix
  | _ => none

end EscapeStyle

namespace WrapperPlacement

/-- Whether wrappers go into classes. -/
def isInner : WrapperPlacement → Bool
  | innerClasses => true
  | siblingClasses => false

/-- Into classes, or beside them. -/
def ofInner (inner : Bool) : WrapperPlacement :=
  if inner then innerClasses else siblingClasses

end WrapperPlacement

namespace AdditionalDataCorrection

/-- The written form of what replaces additional data. -/
def toJson (a : AdditionalDataCorrection) : Json :=
  .object [("type_name", .string a.typeName),
    ("default_value", .string a.defaultValue)]

/-- Reads what replaces additional data. -/
def ofJson? (j : Json) : Option AdditionalDataCorrection := do
  let r ← j.record? ["type_name", "default_value"]
  let typeName ← r.required "type_name" Json.string?
  let defaultValue ← r.required "default_value" Json.string?
  return ⟨typeName, defaultValue⟩

end AdditionalDataCorrection

namespace TypeCorrections

/-- Reads a table of renames. -/
def renamesOfJson? : Json → Option (NameMap String)
  | .object fields =>
      (fields.mapM fun (f : String × Json) => f.2.string?.map (f.1, ·)).map
        NameMap.ofList
  | _ => none

/-- The written form of corrections. -/
def toJson (c : TypeCorrections) : Json :=
  .object
    [("renames", .object
      (c.renames.entries.map fun (name, renamed) => (name, .string renamed))),
     ("additional_data",
       .ofOption AdditionalDataCorrection.toJson c.additionalData),
     ("deserializer_return", .ofOption .string c.deserializerReturn)]

/-- Reads corrections. -/
def ofJson? (j : Json) : Option TypeCorrections := do
  let r ← j.record? ["renames", "additional_data", "deserializer_return"]
  let renames ← r.required "renames" renamesOfJson?
  let additionalData ← r.optional "additional_data" AdditionalDataCorrection.ofJson?
  let deserializerReturn ← r.optional "deserializer_return" Json.string?
  return { renames, additionalData, deserializerReturn }

end TypeCorrections

namespace Pass

/-- The written form of a pass. -/
def toJson : Pass → Json
  | seedImports defaults =>
      .ofVariant "AddDefaultImports"
        (.object [("imports", .ofList DefaultImport.toJson defaults)])
  | moveIntoNamesakes => .string "MoveClassesWithNamespaceNamesUnderNamespace"
  | wrapUnions placement =>
      .ofVariant "ConvertUnionTypesToWrapper"
        (.object [("use_inner_classes", .bool placement.isInner)])
  | flattenInheritance => .string "FlattenInheritance"
  | importReferenced ownNamespaceToo =>
      .ofVariant "AddPropertiesAndMethodTypesImports"
        (.object [("include_current_namespace", .bool ownNamespaceToo)])
  | addAsyncSuffix suffix =>
      .ofVariant "AddAsyncSuffix" (.object [("suffix", .string suffix)])
  | nestQueryClasses => .string "AddInnerClasses"
  | implementInModels interface spec =>
      .ofVariant "AddParsableInheritance"
        (.object [("interface", .string interface), ("import", spec.toJson)])
  | capitalizeNamespaces => .string "CapitalizeNamespacesFirstLetters"
  | replaceBinary typeName spec =>
      .ofVariant "ReplaceBinaryByNativeType"
        (.object [("type_name", .string typeName), ("import", spec.toJson)])
  | makeEnumPropertiesNullable => .string "MakeEnumPropertiesNullable"
  | escapeReservedNames reserved style =>
      .ofVariant "ReplaceReservedNames"
        (.object [("reserved", reserved.toJson), ("escape", style.toJson)])
  | disambiguateProperties suffix =>
      .ofVariant "DisambiguatePropertiesWithClassNames"
        (.object [("suffix", .string suffix)])
  | addConstructors inheritingToo =>
      .ofVariant "AddConstructorsForDefaultValues"
        (.object [("add_if_inherited", .bool inheritingToo)])
  | correctTypes corrections =>
      .ofVariant "CorrectCoreTypes" (.object [("corrections", corrections.toJson)])
  | resolveImportPaths => .string "ReplaceRelativeImportsByPaths"

/-- Reads a pass to which nothing belongs. -/
def ofPlainName? : String → Option Pass
  | "MoveClassesWithNamespaceNamesUnderNamespace" => some moveIntoNamesakes
  | "FlattenInheritance" => some flattenInheritance
  | "AddInnerClasses" => some nestQueryClasses
  | "CapitalizeNamespacesFirstLetters" => some capitalizeNamespaces
  | "MakeEnumPropertiesNullable" => some makeEnumPropertiesNullable
  | "ReplaceRelativeImportsByPaths" => some resolveImportPaths
  | _ => none

/-- Reads the one parameter of a pass, which is written with its name. -/
def ofParameter? {α : Type} (field : String) (read : Json → Option α)
    (content : Json) : Option α := do
  let r ← content.fields?
  r.required field read

/-- Reads the two parameters of a pass, which are written with their names. -/
def ofParameters? {α β : Type} (first : String) (readFirst : Json → Option α)
    (second : String) (readSecond : Json → Option β) (content : Json) :
    Option (α × β) := do
  let r ← content.fields?
  return (← r.required first readFirst, ← r.required second readSecond)

/-- Reads a pass with parameters. -/
def ofVariant? (name : String) (content : Json) : Option Pass :=
  match name with
  | "AddDefaultImports" =>
      (ofParameter? "imports" (Json.list? DefaultImport.ofJson?) content).map
        seedImports
  | "ConvertUnionTypesToWrapper" =>
      (ofParameter? "use_inner_classes" Json.bool? content).map
        fun b => wrapUnions (.ofInner b)
  | "AddPropertiesAndMethodTypesImports" =>
      (ofParameter? "include_current_namespace" Json.bool? content).map
        importReferenced
  | "AddAsyncSuffix" =>
      (ofParameter? "suffix" Json.string? content).map addAsyncSuffix
  | "AddParsableInheritance" =>
      (ofParameters? "interface" Json.string? "import" ImportSpec.ofJson?
          content).map fun p =>
        implementInModels p.1 p.2
  | "ReplaceBinaryByNativeType" =>
      (ofParameters? "type_name" Json.string? "import" ImportSpec.ofJson?
          content).map fun p =>
        replaceBinary p.1 p.2
  | "ReplaceReservedNames" =>
      (ofParameters? "reserved" ReservedNames.ofJson? "escape" EscapeStyle.ofJson?
          content).map fun p =>
        escapeReservedNames p.1 p.2
  | "DisambiguatePropertiesWithClassNames" =>
      (ofParameter? "suffix" Json.string? content).map disambiguateProperties
  | "AddConstructorsForDefaultValues" =>
      (ofParameter? "add_if_inherited" Json.bool? content).map addConstructors
  | "CorrectCoreTypes" =>
      (ofParameter? "corrections" TypeCorrections.ofJson? content).map correctTypes
  | _ => none

/-- Reads a pass. -/
def ofJson? (j : Json) : Option Pass :=
  match j.variant? with
  | none => none
  | some (name, content) =>
      match ofPlainName? name, content with
      | some pass, .null => some pass
      | some _, _ => none
      | none, content => ofVariant? name content

end Pass

namespace Pipeline

/-- The written form of a pipeline. -/
def toJson (p : Pipeline) : Json :=
  .object [("language", p.language.toJson),
    ("passes", .ofList Pass.toJson p.passes)]

/-- Reads a pipeline. -/
def ofJson? (j : Json) : Option Pipeline := do
  let r ← j.record? ["language", "passes"]
  let language ← r.required "language" Language.ofJson?
  let passes ← r.required "passes" (Json.list? Pass.ofJson?)
  return ⟨language, passes⟩

end Pipeline

end CodeModel
