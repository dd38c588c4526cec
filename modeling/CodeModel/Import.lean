import CodeModel.TypeRef.Basic

/-!
# Imports

An import of a declaration block names a module and, where one symbol of it is
meant, that symbol. Two imports are the same when they bring in the same thing:
`Import.key` says what that is. The path to the imported declaration plays no
part.

Main statements: `sameImport_equivalence`, and the two laws of a block of
imports, which grows only at its end (`addImport_eq`) and never holds one import
twice (`distinct_addImports`).
-/

namespace CodeModel

/-- An import of a declaration block: the module or namespace, the symbol, where
    one is meant, and the relative path to the declaration, once it is known. -/
structure Import where
  name : String
  symbol : Option TypeRef := none
  path : Option String := none
deriving DecidableEq, Inhabited

/-- What an import brings in: a whole module, a declaration of the tree, or a
    symbol that is known by its name alone. -/
inductive ImportKey where
  | whole (name : String)
  | declaration (name : String) (id : ElementId)
  | symbol (name symbol : String)
deriving DecidableEq, Repr

namespace Import

/-- An import of a whole module. -/
def ofModule (name : String) : Import :=
  ⟨name, none, none⟩

/-- An import of one symbol of a module. -/
def ofSymbol (name : String) (symbol : TypeRef) : Import :=
  ⟨name, some symbol, none⟩

/-- What the import brings in. -/
def key (i : Import) : ImportKey :=
  match i.symbol with
  | none => .whole i.name
  | some r =>
      match r.definition? with
      | some id => .declaration i.name id
      | none => .symbol i.name r.name

/-- Two imports are the same when they bring in the same thing. -/
def SameImport (a b : Import) : Prop :=
  a.key = b.key

instance (a b : Import) : Decidable (SameImport a b) :=
  inferInstanceAs (Decidable (a.key = b.key))

/-- The declaration that an import is bound to. -/
def target? (i : Import) : Option ElementId :=
  i.symbol.bind TypeRef.definition?

/-- Being the same import is an equivalence, since it is having the same key. -/
theorem sameImport_equivalence : Equivalence SameImport where
  refl _ := rfl
  symm h := h.symm
  trans h h' := h.trans h'

/-- Adds an import at the end of a block unless the block holds the same one. -/
def addImport (block : List Import) (i : Import) : List Import :=
  if block.any fun j => SameImport j i then block else block ++ [i]

/-- Adds imports to a block one after another. -/
def addImports (block new : List Import) : List Import :=
  new.foldl addImport block

/-- No two imports of the block are the same. -/
def Distinct (block : List Import) : Prop :=
  block.Pairwise fun a b => ¬ SameImport a b

/-- An import is dropped if its like is there, and comes last if not. -/
theorem addImport_eq (block : List Import) (i : Import) :
    (addImport block i = block ∧ ∃ j ∈ block, SameImport j i)
      ∨ (addImport block i = block ++ [i] ∧ ∀ j ∈ block, ¬ SameImport j i) := by
  rw [addImport]
  by_cases h : (block.any fun j => decide (SameImport j i)) = true
  · rw [if_pos h]
    obtain ⟨j, hj, hs⟩ := List.any_eq_true.mp h
    exact Or.inl ⟨rfl, j, hj, of_decide_eq_true hs⟩
  · rw [if_neg h]
    refine Or.inr ⟨rfl, fun j hj hs =>
      h (List.any_eq_true.mpr ⟨j, hj, decide_eq_true hs⟩)⟩

/-- Adding one import brings no import in twice. -/
theorem distinct_addImport {block : List Import} (h : Distinct block) (i : Import) :
    Distinct (addImport block i) := by
  rcases addImport_eq block i with ⟨heq, -⟩ | ⟨heq, hnew⟩
  · rw [heq]; exact h
  · rw [heq]
    refine List.pairwise_append.mpr ⟨h, List.pairwise_singleton .., ?_⟩
    intro a ha b hb
    rw [List.mem_singleton.mp hb]
    exact hnew a ha

/-- Neither does adding several, one after another. -/
theorem distinct_addImports {block : List Import} (h : Distinct block)
    (new : List Import) : Distinct (addImports block new) := by
  induction new generalizing block with
  | nil => exact h
  | cons i new ih => exact ih (distinct_addImport h i)

end Import

end CodeModel
