import CodeModel.Tree.Edit
import CodeModel.Tree.Rename

/-!
# Amending one element

Changes to what one element holds besides its name and its links. An amendment
that is not for elements of that kind changes nothing and says so in its result.
-/

namespace CodeModel

namespace Edit

/-- Sets what documentation says of an element. -/
def setDescription (id : ElementId) (text : Option String) : Edit Unit := do
  let _ ← inspect (·.element id)
  modifyElement id (Element.describe · text)

/-- Sets the class that a class inherits from. -/
def setInherits (id : ElementId) (type : Option TypeRef) : Edit Bool := do
  modifyElement id (Element.mapClass fun c => { c with inherits := type })
  return ((← get).class? id).isSome

/-- Makes a class implement an interface, and says whether it did not do so
    before. -/
def addInterface (id : ElementId) (interface : TypeRef) : Edit (Option Bool) := do
  match (← get).class? id with
  | none => return none
  | some c =>
      modifyElement id (Element.mapClass (·.addInterface interface))
      return some ((c.addInterface interface).implements.length
        ≠ c.implements.length)

/-- Makes a class or namespace import something, and says whether it did not do
    so before. -/
def declareImport (id : ElementId) (i : Import) : Edit (Option Bool) := do
  let e ← inspect (·.element id)
  modifyElement id (Element.mapImports (Import.addImport · i))
  return e.imports?.map fun block =>
    (Import.addImport block i).length ≠ block.length

/-- Makes a class implement nothing, and gives the number of interfaces it had. -/
def clearInterfaces (id : ElementId) : Edit (Option Nat) := do
  let c? := (← get).class? id
  modifyElement id (Element.mapClass fun c => { c with implements := [] })
  return c?.map (·.implements.length)

/-- Makes a class import nothing, and gives the number of imports it had. -/
def clearImports (id : ElementId) : Edit (Option Nat) := do
  let c? := (← get).class? id
  modifyElement id (Element.mapClass fun c => { c with imports := [] })
  return c?.map (·.imports.length)

/-- Sets the type of an element's value. -/
def setValueType (id : ElementId) (type : TypeRef) : Edit Bool := do
  let e ← inspect (·.element id)
  modifyElement id (Element.mapValueType fun _ => type)
  return e.valueType?.isSome

/-- Sets whether a method runs asynchronously. -/
def setAsync (id : ElementId) (isAsync : Bool) : Edit Bool := do
  modifyElement id (Element.mapMethod fun m => { m with isAsync := isAsync })
  return ((← get).method? id).isSome

/-- Sets the default value of a property or parameter. -/
def setDefault (id : ElementId) (value : Option String) : Edit Bool := do
  modifyElement id (Element.setDefault value)
  let t ← get
  return (t.property? id).isSome || (t.parameter? id).isSome

/-- Adds an option to an enum, and says whether it was new. -/
def addOption (id : ElementId) (option : String) : Edit (Option Bool) := do
  let e ← inspect (·.element id)
  modifyElement id (Element.mapOptions (EnumOptions.add · option))
  return e.options?.map fun options =>
    (EnumOptions.add options option).length ≠ options.length

/-- Gives every type reference named `old` the name `new`, and lists the
    references there were with the elements that hold them. -/
def renameTypes (old new : String) : Edit (List (ElementId × String)) := do
  let t ← get
  set (t.renameReferences fun r => if r.name = old then new else r.name)
  return t.references.map fun p => (p.1, p.2.name)

end Edit

end CodeModel
