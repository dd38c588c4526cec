import CodeModel.Toml.Basic

/-!
# Building tables

The lines of a document build one tree of tables. A table may be written by a
header, be implied by the header of a table within it, or come about by a dotted
key. A table has at most one header, a dotted key adds to no table that has one,
and no key has two values.
-/

namespace CodeModel

namespace Toml

/-- A table as it is built: the value of a key; a table, with whether it has had
    no header so far and whether a dotted key made it; or a list of tables that
    are written one by one, of which the last is the one being written. -/
inductive Node where
  | value (v : Toml)
  | table (implied dotted : Bool) (fields : List (String × Node))
  | tables (earlier : List (List (String × Node))) (last : List (String × Node))
deriving Inhabited

/-- The keys of a table with what they hold. -/
abbrev Fields := List (String × Node)

/-- Replaces what a key holds. -/
def setField (key : String) (node : Node) (fields : Fields) : Fields :=
  fields.map fun f => if f.1 = key then (key, node) else f

/-- Changes the table that a path leads to; `dotted` says whether the path
    belongs to a dotted key, and the change is told whether a dotted key made
    the table. Tables on the way are made if they are not there. -/
def changeAt (dotted : Bool) (change : Bool → Fields → Option Fields) :
    List String → Bool → Fields → Option Fields
  | [], madeByKey, fields => change madeByKey fields
  | key :: path, _, fields =>
      match fields.lookup key with
      | none => do
          let below ← changeAt dotted change path dotted []
          return fields ++ [(key, .table true dotted below)]
      | some (.value _) => none
      | some (.table implied madeByKey below) => do
          if dotted && !implied then none
          let below ← changeAt dotted change path madeByKey below
          return setField key (.table implied madeByKey below) fields
      | some (.tables earlier last) => do
          let last ← changeAt dotted change path false last
          return setField key (.tables earlier last) fields

/-- Adds a key that is not there. A key after a path goes only into a table that
    a dotted key made, and a key without one only into a table that none
    made. -/
def addValue (hasPath : Bool) (key : String) (v : Toml) (madeByKey : Bool)
    (fields : Fields) : Option Fields :=
  if madeByKey ≠ hasPath ∨ (fields.lookup key).isSome then none
  else some (fields ++ [(key, .value v)])

/-- Adds the value of a dotted key to the table under `header`. -/
def assign (header path : List String) (key : String) (v : Toml) (root : Fields) :
    Option Fields :=
  changeAt false
    (fun _ fields => changeAt true (addValue (!path.isEmpty) key v) path false
      fields) header false root

/-- Begins the table of a header. -/
def beginTable (path : List String) (key : String) (root : Fields) :
    Option Fields :=
  changeAt false
    (fun _ fields =>
      match fields.lookup key with
      | none => some (fields ++ [(key, .table false false [])])
      | some (.table true false below) =>
          some (setField key (.table false false below) fields)
      | some _ => none)
    path false root

/-- Begins one more table of a list. -/
def beginItem (path : List String) (key : String) (root : Fields) : Option Fields :=
  changeAt false
    (fun _ fields =>
      match fields.lookup key with
      | none => some (fields ++ [(key, .tables [] [])])
      | some (.tables earlier last) =>
          some (setField key (.tables (earlier ++ [last]) []) fields)
      | some _ => none)
    path false root

/-- The keys of an inline table, each with the path before it and its value. -/
def inlineTable (pairs : List (List String × String × Toml)) : Option Fields :=
  pairs.foldlM (fun fields (path, key, v) => assign [] path key v fields) []

mutual

/-- What a node stands for. -/
def Node.toToml : Node → Toml
  | .value v => v
  | .table _ _ fields => .table (fieldsToToml fields)
  | .tables earlier last =>
      .array (itemsToToml earlier ++ [.table (fieldsToToml last)])

/-- What the keys of a table stand for. -/
def fieldsToToml : List (String × Node) → List (String × Toml)
  | [] => []
  | (key, node) :: rest => (key, node.toToml) :: fieldsToToml rest

/-- What the tables of a list stand for. -/
def itemsToToml : List (List (String × Node)) → List Toml
  | [] => []
  | fields :: rest => .table (fieldsToToml fields) :: itemsToToml rest

end

end Toml

end CodeModel
