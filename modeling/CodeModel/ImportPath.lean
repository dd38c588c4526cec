import CodeModel.Text.Case
import CodeModel.Tree.Ancestry

/-!
# Relative import paths

The path from a file of one namespace to a declaration of another: up out of
what the two namespaces do not share, down into the rest, then the declaration.
Namespaces are compared letter by letter; the path itself is in lower case.
-/

namespace CodeModel

namespace ImportPath

/-- The number of segments with which both lists begin. -/
def commonCount : List String → List String → Nat
  | a :: as, b :: bs => if a = b then commonCount as bs + 1 else 0
  | _, _ => 0

/-- The path from a file in the namespace `start` to the declaration `name` of
    the namespace `goal`. -/
def relative (start goal : List String) (name : String) : String :=
  let shared := commonCount start goal
  let down := "/".intercalate ((goal.drop shared).map Text.lowercase)
  let up :=
    if shared = start.length then "./"
      else String.join (List.replicate (start.length - shared) "../")
  up ++ (if down.isEmpty then "" else down ++ "/") ++ Text.lowercase name

end ImportPath

namespace Tree

/-- The path by which a file holding `start` imports the class or enum
    `target`. -/
def importPath (t : Tree) (start target : ElementId) : Except ModelError String :=
  match t.namespaceOf? start with
  | none => .error (.missing "from")
  | some here =>
      match t.get? target with
      | none => .error (.missing "element")
      | some e =>
          if !e.kind.isDeclaration then .error (.notImportable e.name)
          else
            match t.containingNamespace? target with
            | none => .error (.outsideNamespaces e.name)
            | some there =>
                .ok (ImportPath.relative (t.namespaceSegments here)
                  (t.namespaceSegments there) e.name)

end Tree

end CodeModel
