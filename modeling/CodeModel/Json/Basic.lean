/-!
# JSON values

The values in which models, pipelines and configurations are written. All
numbers are whole. Records and variants have fixed shapes: a record is an object
whose fields have names, and a variant is its name alone or an object with that
name for its only field.
-/

namespace CodeModel

/-- A JSON value with whole numbers. -/
inductive Json where
  | null
  | bool (value : Bool)
  | number (value : Int)
  | string (value : String)
  | array (items : List Json)
  | object (fields : List (String × Json))
deriving Inhabited

/-- The named values of a record. -/
abbrev Record := List (String × Json)

namespace Json

/-! ## Writing -/

/-- The value of a number that counts from zero. -/
def ofNat (n : Nat) : Json :=
  .number n

/-- An absent value or a value. -/
def ofOption {α : Type} (write : α → Json) : Option α → Json
  | none => .null
  | some a => write a

/-- A list of values. -/
def ofList {α : Type} (write : α → Json) (items : List α) : Json :=
  .array (items.map write)

/-- A variant to which something belongs. -/
def ofVariant (name : String) (content : Json) : Json :=
  .object [(name, content)]

/-! ## Reading -/

/-- A truth value. -/
def bool? : Json → Option Bool
  | .bool b => some b
  | _ => none

/-- A number that counts from zero. -/
def nat? : Json → Option Nat
  | .number (.ofNat n) => some n
  | _ => none

/-- A text. -/
def string? : Json → Option String
  | .string s => some s
  | _ => none

/-- A list of values, each of which can be read. -/
def list? {α : Type} (read : Json → Option α) : Json → Option (List α)
  | .array items => items.mapM read
  | _ => none

/-- An absent value or one that can be read. -/
def option? {α : Type} (read : Json → Option α) : Json → Option (Option α)
  | .null => some none
  | j => (read j).map some

/-- The record whose fields are written with their names. -/
def fields? : Json → Option Record
  | .object fields => some fields
  | _ => none

/-- The record with fields of the names given. A record may also be written as
    the list of its values, in the order of the names. -/
def record? (names : List String) : Json → Option Record
  | .object fields => some fields
  | .array items =>
      if items.length = names.length then some (names.zip items) else none
  | _ => none

/-- The name of a variant and what belongs to it, which is `null` for a name
    alone. -/
def variant? : Json → Option (String × Json)
  | .string name => some (name, .null)
  | .object [(name, content)] => some (name, content)
  | _ => none

/-- A variant to which nothing belongs. -/
def plain? : Json → Option String
  | j =>
      match j.variant? with
      | some (name, .null) => some name
      | _ => none

mutual

/-- How deep the value is nested. -/
def depth : Json → Nat
  | .array items => depthOfItems items + 1
  | .object fields => depthOfFields fields + 1
  | _ => 1

/-- How deep the deepest of some values is nested. -/
def depthOfItems : List Json → Nat
  | [] => 0
  | j :: rest => max j.depth (depthOfItems rest)

/-- How deep the deepest value of a record is nested. -/
def depthOfFields : List (String × Json) → Nat
  | [] => 0
  | (_, j) :: rest => max j.depth (depthOfFields rest)

end

end Json

namespace Record

/-- The value of a field that must be there. -/
def required {α : Type} (r : Record) (name : String) (read : Json → Option α) :
    Option α :=
  (r.lookup name).bind read

/-- The value of a field that may be missing or `null`. -/
def optional {α : Type} (r : Record) (name : String) (read : Json → Option α) :
    Option (Option α) :=
  match r.lookup name with
  | none => some none
  | some j => j.option? read

/-- The value of a field that may be missing but not `null`. -/
def withDefault {α : Type} (r : Record) (name : String) (default : α)
    (read : Json → Option α) : Option α :=
  match r.lookup name with
  | none => some default
  | some j => read j

end Record

end CodeModel
