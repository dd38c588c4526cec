import CodeModel.Text.Blank
import CodeModel.Text.Case

/-!
# Target languages

The languages that code can be generated for, with the names by which a user may
ask for them.
-/

namespace CodeModel

/-- A language that code is generated for. -/
inductive Language where
  | csharp
  | java
  | typescript
  | go
deriving DecidableEq, Repr, Inhabited

namespace Language

/-- All target languages. -/
def all : List Language :=
  [csharp, java, typescript, go]

/-- The name of a language, as it is shown and written. -/
def name : Language → String
  | csharp => "csharp"
  | java => "java"
  | typescript => "typescript"
  | go => "go"

/-- The other names that a user may use. -/
def aliases : Language → List String
  | csharp => ["c#", "cs"]
  | java => []
  | typescript => ["ts"]
  | go => ["golang"]

/-- The language of a written name. -/
def ofName? (name : String) : Option Language :=
  all.find? fun l => l.name == name

/-- A language is told by its name. -/
theorem ofName?_name (l : Language) : ofName? l.name = some l := by
  cases l <;> decide

/-- What a user's name for a language is compared by: without white space around
    it, in lower case. -/
def normalize (text : String) : String :=
  Text.lowercase (Text.trim text)

/-- The language that a user asks for. -/
def ofUserText? (text : String) : Option Language :=
  all.find? fun l => (l.name :: l.aliases).contains (normalize text)

/-- Whether the emitter marks asynchronous methods by itself, so that their
    names need no suffix. -/
def hasNativeAsync : Language → Bool
  | csharp => false
  | _ => true

/-- Whether classes of the language inherit from each other. -/
def supportsInheritance : Language → Bool
  | go => false
  | _ => true

end Language

end CodeModel
