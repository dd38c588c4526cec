import CodeModel.NameMap
import CodeModel.Target.Language

/-!
# Reserved names

The identifiers that a target language keeps for itself. They are held in lower
case, and an identifier is reserved in whatever case it is written.
-/

namespace CodeModel

/-- A set of reserved names, in ascending order. -/
structure ReservedNames where
  names : NameMap Unit
deriving DecidableEq, Inhabited

namespace ReservedNames

/-- The set of names that are given as they are to be held. -/
def ofStored (names : List String) : ReservedNames :=
  ⟨NameMap.ofList (names.map (·, ()))⟩

/-- The set of the lower case of some names. -/
def ofList (names : List String) : ReservedNames :=
  ofStored (names.map Text.lowercase)

/-- Adds names, without white space around them and in lower case. -/
def withAdditional (r : ReservedNames) (names : List String) : ReservedNames :=
  ⟨r.names.insertAll (names.map fun n => (Text.lowercase (Text.trim n), ()))⟩

/-- Whether a name is reserved, in whatever case it is written. -/
def contains (r : ReservedNames) (name : String) : Bool :=
  r.names.contains (Text.lowercase name)

/-- The number of reserved names. -/
def size (r : ReservedNames) : Nat :=
  r.names.size

/-- The names held, ascending. -/
def toList (r : ReservedNames) : List String :=
  r.names.names

end ReservedNames

namespace Language

/-- The keywords of a language. -/
def keywords : Language → List String
  | csharp =>
      ["abstract", "as", "base", "bool", "break", "byte", "case", "catch", "char",
        "checked",
       "class", "const", "continue", "decimal", "default", "delegate", "do",
         "double", "else",
       "enum", "event", "explicit", "extern", "false", "finally", "fixed",
         "float", "for",
       "foreach", "goto", "if", "implicit", "in", "int", "interface", "internal",
         "is", "lock",
       "long", "namespace", "new", "null", "object", "operator", "out",
         "override", "params",
       "private", "protected", "public", "readonly", "ref", "return", "sbyte",
         "sealed", "short",
       "sizeof", "stackalloc", "static", "string", "struct", "switch", "this",
         "throw", "true",
       "try", "typeof", "uint", "ulong", "unchecked", "unsafe", "ushort", "using",
         "virtual",
       "void", "volatile", "while"]
  | java =>
      ["abstract", "assert", "boolean", "break", "byte", "case", "catch",
        "char", "class",
       "const", "continue", "default", "do", "double", "else", "enum",
         "extends", "false",
       "final", "finally", "float", "for", "goto", "if", "implements", "import",
         "instanceof",
       "int", "interface", "long", "native", "new", "null", "package", "private",
         "protected",
       "public", "return", "short", "static", "strictfp", "super", "switch",
         "synchronized",
       "this", "throw", "throws", "transient", "true", "try", "void",
         "volatile", "while"]
  | typescript =>
      ["any", "as", "boolean", "break", "case", "catch", "class", "const",
        "constructor",
       "continue", "debugger", "declare", "default", "delete", "do", "else",
         "enum", "export",
       "extends", "false", "finally", "for", "from", "function", "get", "if",
         "implements",
       "import", "in", "instanceof", "interface", "let", "module", "new",
         "null", "number",
       "of", "package", "private", "protected", "public", "require", "return",
         "set", "static",
       "string", "super", "switch", "symbol", "this", "throw", "true", "try",
         "type", "typeof",
       "var", "void", "while", "with", "yield"]
  | go =>
      ["break", "case", "chan", "const", "continue", "default", "defer", "else",
        "fallthrough",
       "for", "func", "go", "goto", "if", "import", "interface", "map",
         "package", "range",
       "return", "select", "struct", "switch", "type", "var"]

/-- The reserved names of a language. -/
def reservedNames (l : Language) : ReservedNames :=
  ReservedNames.ofList l.keywords

end Language

end CodeModel
