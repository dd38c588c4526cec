import CodeModel.Refine.Pass
import CodeModel.Target.Configuration

/-!
# The passes of each target

Every target language has a fixed list of passes. Two of them, flattening and
the suffix for asynchronous methods, are there only when the configuration calls
for them.
-/

namespace CodeModel

namespace ImportSpec

/-- The import of a whole module. -/
def ofModule (moduleName : String) : ImportSpec :=
  ⟨moduleName, none⟩

/-- The import of one symbol of a module. -/
def ofSymbol (moduleName symbol : String) : ImportSpec :=
  ⟨moduleName, some symbol⟩

end ImportSpec

namespace DefaultImport

/-- An import for every class. -/
def forAll (spec : ImportSpec) : DefaultImport :=
  ⟨[], spec⟩

/-- An import for the classes of one kind. -/
def forKind (kind : ClassKind) (spec : ImportSpec) : DefaultImport :=
  ⟨[kind], spec⟩

end DefaultImport

namespace Configuration

/-- The flattening of inheritance, when it is called for. -/
def flattening (c : Configuration) : List Pass :=
  if c.flattensInheritance then [.flattenInheritance] else []

/-- The suffix for asynchronous methods, when it is called for. -/
def asyncSuffix (c : Configuration) : List Pass :=
  if c.usesNativeAsync then [] else [.addAsyncSuffix "Async"]

/-! ## C# -/

/-- The namespace of the serialization interfaces. -/
def csharpSerialization : String :=
  "Microsoft.Kiota.Abstractions.Serialization"

/-- The imports of C# classes by their kinds. -/
def csharpImports : List DefaultImport :=
  ["System", "System.Collections.Generic", "System.Linq"].map
      (fun n => .forAll (.ofModule n))
    ++ ["System.Threading.Tasks", "System.IO", "Microsoft.Kiota.Abstractions",
      csharpSerialization].map
      (fun n => .forKind .requestBuilder (.ofModule n))

/-- The passes for C#. -/
def csharpPasses (c : Configuration) : List Pass :=
  [.seedImports csharpImports, .moveIntoNamesakes, .wrapUnions .innerClasses]
    ++ c.flattening
    ++ [.nestQueryClasses, .importReferenced false]
    ++ c.asyncSuffix
    ++ [.implementInModels "IParsable" (.ofModule csharpSerialization),
        .capitalizeNamespaces,
        .replaceBinary "Stream" (.ofModule "System.IO"),
        .makeEnumPropertiesNullable,
        .escapeReservedNames c.reservedNames .atSign,
        .disambiguateProperties "_prop",
        .addConstructors false]

/-! ## Java -/

/-- The package of the base library. -/
def javaAbstractions : String :=
  "com.microsoft.kiota"

/-- The package of the serialization interfaces. -/
def javaSerialization : String :=
  "com.microsoft.kiota.serialization"

/-- The imports of Java classes by their kinds. -/
def javaImports : List DefaultImport :=
  [(javaAbstractions, "HttpCore"), (javaAbstractions, "HttpMethod"),
      (javaAbstractions, "RequestInfo"), (javaAbstractions, "ResponseHandler"),
      ("java.util.concurrent", "CompletableFuture")].map
      (fun p => .forKind .requestBuilder (.ofSymbol p.1 p.2))
    ++ [(javaSerialization, "SerializationWriter"),
      (javaSerialization, "ParseNode"),
      ("java.util", "Map"), ("java.util", "HashMap")].map
      (fun p => .forKind .model (.ofSymbol p.1 p.2))

/-- The passes for Java. -/
def javaPasses (c : Configuration) : List Pass :=
  [.seedImports javaImports, .wrapUnions .innerClasses]
    ++ c.flattening
    ++ [.nestQueryClasses, .importReferenced false]
    ++ c.asyncSuffix
    ++ [.implementInModels "Parsable" (.ofSymbol javaSerialization "Parsable"),
        .replaceBinary "InputStream" (.ofSymbol "java.io" "InputStream"),
        .makeEnumPropertiesNullable,
        .escapeReservedNames c.reservedNames (.suffix "_escaped"),
        .addConstructors true]

/-! ## TypeScript -/

/-- The module of the base library. -/
def typescriptAbstractions : String :=
  "@microsoft/kiota-abstractions"

/-- The imports of TypeScript classes by their kinds. -/
def typescriptImports : List DefaultImport :=
  ["HttpCore", "HttpMethod", "RequestInfo", "ResponseHandler"].map
      (fun s => .forKind .requestBuilder (.ofSymbol typescriptAbstractions s))
    ++ ["SerializationWriter", "ParseNode"].map
      (fun s => .forKind .model (.ofSymbol typescriptAbstractions s))

/-- The TypeScript names for the types of the base library. -/
def typescriptCorrections : TypeCorrections where
  renames := NameMap.ofList
    [("IHttpCore", "HttpCore"),
     ("ISerializationWriterFactory", "SerializationWriterFactory"),
     ("ISerializationWriter", "SerializationWriter"),
     ("IParseNode", "ParseNode"),
     ("IResponseHandler", "ResponseHandler"),
     ("DateTimeOffset", "Date"),
     ("Stream", "ReadableStream")]
  additionalData := some ⟨"Map<string, unknown>", "new Map<string, unknown>()"⟩
  deserializerReturn :=
    some "Map<string, (item: \x7b\x7d, node: ParseNode) => void>"

/-- The passes for TypeScript. -/
def typescriptPasses (c : Configuration) : List Pass :=
  [.seedImports typescriptImports, .wrapUnions .siblingClasses]
    ++ c.flattening
    ++ [.escapeReservedNames c.reservedNames (.suffix "_escaped"),
      .importReferenced true]
    ++ c.asyncSuffix
    ++ [.resolveImportPaths,
        .implementInModels "Parsable" (.ofSymbol typescriptAbstractions "Parsable"),
        .correctTypes typescriptCorrections,
        .makeEnumPropertiesNullable]

/-! ## Go -/

/-- The module of the base library. -/
def goAbstractions : String :=
  "github.com/microsoft/kiota/abstractions/go"

/-- The module of the serialization interfaces. -/
def goSerialization : String :=
  "github.com/microsoft/kiota/abstractions/go/serialization"

/-- The imports of Go classes by their kinds. -/
def goImports : List DefaultImport :=
  [.forKind .requestBuilder (.ofModule goAbstractions),
    .forKind .model (.ofModule goSerialization)]

/-- The passes for Go. -/
def goPasses (c : Configuration) : List Pass :=
  [.seedImports goImports, .wrapUnions .siblingClasses]
    ++ c.flattening
    ++ [.importReferenced false]
    ++ c.asyncSuffix
    ++ [.implementInModels "Parsable" (.ofSymbol goSerialization "Parsable"),
        .makeEnumPropertiesNullable,
        .escapeReservedNames c.reservedNames (.suffix "Escaped"),
        .addConstructors true]

/-- The passes for the target of a configuration. -/
def passes (c : Configuration) : List Pass :=
  match c.language with
  | .csharp => c.csharpPasses
  | .java => c.javaPasses
  | .typescript => c.typescriptPasses
  | .go => c.goPasses

end Configuration

end CodeModel
