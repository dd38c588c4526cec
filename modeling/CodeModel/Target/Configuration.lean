import CodeModel.Target.ReservedNames

/-!
# Configurations

What a user sets for one target: the language, and options that fall back to
what suits the language.
-/

namespace CodeModel

/-- The options for one target: whether asynchronous methods are marked by the
    emitter, whether inherited properties are copied into the classes that
    inherit them, and the names to be escaped besides the keywords. -/
structure Configuration where
  language : Language := .csharp
  nativeAsync : Option Bool := none
  flattenInheritance : Option Bool := none
  additionalReservedNames : List String := []
deriving DecidableEq, Inhabited

/-- What can be wrong with a configuration: no language has the name given, a
    name to be escaped is blank, or the document is not a configuration. -/
inductive ConfigError where
  | unknownLanguage (name : String)
  | blankReservedName
  | unreadable
deriving DecidableEq, Repr

namespace ConfigError

/-- The message of a cause; a document that cannot be read has none. -/
def message? : ConfigError → Option String
  | unknownLanguage name =>
      some s!"Configuration error: unknown generation language `{name}`"
  | blankReservedName =>
      some
        "Configuration error: additional_reserved_names cannot contain empty entries"
  | unreadable => none

end ConfigError

namespace Language

/-- The language that a user asks for, refused when there is none of that name. -/
def ofUserText (text : String) : Except ConfigError Language :=
  match ofUserText? text with
  | some l => .ok l
  | none => .error (.unknownLanguage (normalize text))

end Language

namespace Configuration

/-- Refuses a blank name to be escaped. -/
def validate (c : Configuration) : Except ConfigError Unit :=
  if c.additionalReservedNames.any fun n =>
    Text.IsBlank n then .error .blankReservedName else .ok ()

/-- Whether asynchronous methods are marked by the emitter. -/
def usesNativeAsync (c : Configuration) : Bool :=
  c.nativeAsync.getD c.language.hasNativeAsync

/-- Whether inherited properties are copied. -/
def flattensInheritance (c : Configuration) : Bool :=
  c.flattenInheritance.getD !c.language.supportsInheritance

/-- The names to be escaped: the keywords of the language and the additional
    ones. -/
def reservedNames (c : Configuration) : ReservedNames :=
  c.language.reservedNames.withAdditional c.additionalReservedNames

end Configuration

end CodeModel
