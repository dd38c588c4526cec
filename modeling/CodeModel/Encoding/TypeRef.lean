import CodeModel.Import
import CodeModel.Json.Basic

/-!
# The written form of type references and imports
-/

namespace CodeModel

namespace ElementId

/-- A handle is written as its place. -/
def toJson (id : ElementId) : Json :=
  .ofNat id.index

/-- Reads a handle: any natural number, as a handle has no bound. A reader that
    keeps handles in 32 bits takes the same numbers below `2 ^ 32` and refuses
    the others. -/
def ofJson? (j : Json) : Option ElementId :=
  j.nat?.map ElementId.mk

/-- A handle is read back from its place. -/
theorem ofJson?_toJson (id : ElementId) : ofJson? id.toJson = some id := rfl

end ElementId

mutual

/-- The written form of a type reference. -/
def TypeRef.toJson : TypeRef → Json
  | ⟨name, target, isNullable, isCollection⟩ =>
      .object
        [("name", .string name), ("target", target.toJson),
          ("is_nullable", .bool isNullable),
         ("is_collection", .bool isCollection)]

/-- The written form of what a reference stands for. -/
def TypeTarget.toJson : TypeTarget → Json
  | .external => .string "External"
  | .declared id => .ofVariant "Declared" id.toJson
  | .union members => .ofVariant "Union" (.array (TypeRef.toJsonAll members))

/-- The written forms of some type references. -/
def TypeRef.toJsonAll : List TypeRef → List Json
  | [] => []
  | r :: rest => r.toJson :: TypeRef.toJsonAll rest

end

/-- Reads what a reference stands for, given how to read a member of a union. -/
def TypeTarget.ofJsonWith? (readMember : Json → Option TypeRef) (j : Json) :
    Option TypeTarget :=
  match j.variant? with
  | some ("External", .null) => some .external
  | some ("Declared", content) => (ElementId.ofJson? content).map .declared
  | some ("Union", content) => (content.list? readMember).map .union
  | _ => none

/-- Reads a type reference that is nested at most `n` deep. -/
def TypeRef.ofJsonWithin? : Nat → Json → Option TypeRef
  | 0, _ => none
  | n + 1, j => do
      let r ← j.record? ["name", "target", "is_nullable", "is_collection"]
      let name ← r.required "name" Json.string?
      let target ← r.required "target"
        (TypeTarget.ofJsonWith? (TypeRef.ofJsonWithin? n))
      let isNullable ← r.required "is_nullable" Json.bool?
      let isCollection ← r.required "is_collection" Json.bool?
      return ⟨name, target, isNullable, isCollection⟩

/-- Reads a type reference. -/
def TypeRef.ofJson? (j : Json) : Option TypeRef :=
  TypeRef.ofJsonWithin? j.depth j

namespace Import

/-- The written form of an import. -/
def toJson (i : Import) : Json :=
  .object
    [("name", .string i.name), ("declaration", .ofOption TypeRef.toJson i.symbol),
     ("path", .ofOption .string i.path)]

/-- Reads an import. -/
def ofJson? (j : Json) : Option Import := do
  let r ← j.record? ["name", "declaration", "path"]
  let name ← r.required "name" Json.string?
  let symbol ← r.optional "declaration" TypeRef.ofJson?
  let path ← r.optional "path" Json.string?
  return ⟨name, symbol, path⟩

end Import

end CodeModel
