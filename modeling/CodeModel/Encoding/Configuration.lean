import CodeModel.Json.Basic
import CodeModel.Target.Configuration

/-!
# The written form of configurations and reserved names
-/

namespace CodeModel

namespace Language

/-- A language is written by its name. -/
def toJson (l : Language) : Json :=
  .string l.name

/-- Reads a language. -/
def ofJson? (j : Json) : Option Language :=
  j.plain?.bind ofName?

/-- A language is read back from its label. -/
theorem ofJson?_toJson (l : Language) : ofJson? l.toJson = some l :=
  ofName?_name l

end Language

namespace ReservedNames

/-- The written form of a set of reserved names. -/
def toJson (r : ReservedNames) : Json :=
  .object [("names", .ofList .string r.toList)]

/-- Reads a set of reserved names, which are taken as they are written. -/
def ofJson? (j : Json) : Option ReservedNames := do
  let r ← j.record? ["names"]
  return ofStored (← r.required "names" (Json.list? Json.string?))

end ReservedNames

namespace Configuration

/-- The names of the fields of a written configuration. -/
def fieldNames : List String :=
  ["language", "native_async", "flatten_inheritance", "additional_reserved_names"]

/-- The written form of a configuration. -/
def toJson (c : Configuration) : Json :=
  .object
    [("language", c.language.toJson),
      ("native_async", .ofOption .bool c.nativeAsync),
     ("flatten_inheritance", .ofOption .bool c.flattenInheritance),
     ("additional_reserved_names", .ofList .string c.additionalReservedNames)]

/-- Reads a configuration, every field of which may be missing. One that is
    written as the list of its values may stop early. -/
def ofJson? (j : Json) : Option Configuration := do
  let r ←
    match j with
    | .object fields => some fields
    | .array items =>
        if items.length ≤ fieldNames.length
          then some (fieldNames.zip items) else none
    | _ => none
  let language ← Record.withDefault r "language" .csharp Language.ofJson?
  let nativeAsync ← Record.optional r "native_async" Json.bool?
  let flattenInheritance ← Record.optional r "flatten_inheritance" Json.bool?
  let additionalReservedNames ←
    Record.withDefault r "additional_reserved_names" [] (Json.list? Json.string?)
  return { language, nativeAsync, flattenInheritance, additionalReservedNames }

end Configuration

end CodeModel
