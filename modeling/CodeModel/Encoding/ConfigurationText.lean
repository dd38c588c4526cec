import CodeModel.Target.Configuration
import CodeModel.Toml.Document

/-!
# Configurations in TOML

A configuration is the top table of a TOML document. Keys that it does not know
are passed over. The language is written by its name, or as a table with that
name for its only key and nothing in it.
-/

namespace CodeModel

namespace Toml

/-- Whether a value is a list or a table with nothing in it. -/
def isHollow : Toml → Bool
  | .array items => items.isEmpty
  | .table fields => fields.isEmpty
  | _ => false

/-- A text. -/
def string? : Toml → Option String
  | .string s => some s
  | _ => none

/-- A truth value. -/
def boolean? : Toml → Option Bool
  | .boolean b => some b
  | _ => none

/-- A list of texts. -/
def strings? : Toml → Option (List String)
  | .array items => items.mapM string?
  | _ => none

/-- A target language. -/
def language? : Toml → Option Language
  | .string name => Language.ofName? name
  | .table [(name, content)] =>
      if content.isHollow then Language.ofName? name else none
  | _ => none

/-- What a key holds, or `default` when the key is not there. -/
def field? {α : Type} (fields : List (String × Toml)) (key : String) (default : α)
    (read : Toml → Option α) : Option α :=
  match fields.lookup key with
  | none => some default
  | some v => read v

end Toml

namespace Configuration

/-- The configuration of a document, which is not checked. -/
def ofToml? : Toml → Option Configuration
  | .table fields => do
      let language ← Toml.field? fields "language" .csharp Toml.language?
      let nativeAsync ←
        Toml.field? fields "native_async" none fun v => v.boolean?.map some
      let flattenInheritance ←
        Toml.field? fields "flatten_inheritance" none fun v => v.boolean?.map some
      let additionalReservedNames ←
        Toml.field? fields "additional_reserved_names" [] Toml.strings?
      return { language, nativeAsync, flattenInheritance, additionalReservedNames }
  | _ => none

/-- Reads and checks the configuration of a document. -/
def ofText (text : String) : Except ConfigError Configuration :=
  match (Toml.document? text).bind ofToml? with
  | none => .error .unreadable
  | some c =>
      match c.validate with
      | .error e => .error e
      | .ok () => .ok c

end Configuration

end CodeModel
