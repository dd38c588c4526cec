import CodeModel.Tree.Basic

/-!
# Edits

An `Edit` is a change to a tree that gives a result or is refused. A refused
edit leaves the tree as its steps before the refusal left it. Most operations
are refused before they change anything: they are written as functions of the
tree and made edits by `inspect`, `change` and `changeWith`, which keep the tree
of a refused edit (`run_inspect`, `run_change`, `run_changeWith`).
-/

namespace CodeModel

/-- A change to a tree, with a result or a refusal. -/
abbrev Edit := EStateM ModelError Tree

namespace Edit

variable {α : Type}

/-- Looks at the tree and may refuse; changes nothing. -/
def inspect (f : Tree → Except ModelError α) : Edit α := fun t =>
  match f t with
  | .ok a => .ok a t
  | .error e => .error e t

/-- Looks at the tree. -/
def observe (f : Tree → α) : Edit α := fun t =>
  .ok (f t) t

/-- Replaces the tree, or refuses and leaves it as it was. -/
def change (f : Tree → Except ModelError Tree) : Edit Unit := fun t =>
  match f t with
  | .ok t' => .ok () t'
  | .error e => .error e t

/-- Replaces the tree and gives a result, or refuses and leaves the tree as it
    was. -/
def changeWith (f : Tree → Except ModelError (α × Tree)) : Edit α := fun t =>
  match f t with
  | .ok (a, t') => .ok a t'
  | .error e => .error e t

/-- Changes one element; a handle without one changes nothing. -/
def modifyElement (id : ElementId) (f : Element → Element) : Edit Unit :=
  modify (·.modify id f)

/-- The tree that an edit leaves, whether or not it was refused. -/
def treeOf : EStateM.Result ModelError Tree α → Tree
  | .ok _ t => t
  | .error _ t => t

/-- A look fails or gives something, and changes nothing either way. -/
theorem run_inspect (f : Tree → Except ModelError α) (t : Tree) :
    (∃ a, f t = .ok a ∧ (inspect f).run t = .ok a t)
      ∨ ∃ e, f t = .error e ∧ (inspect f).run t = .error e t := by
  simp only [inspect, EStateM.run]
  cases f t with
  | ok a => exact Or.inl ⟨a, rfl, rfl⟩
  | error e => exact Or.inr ⟨e, rfl, rfl⟩

/-- A change fails and leaves the tree alone, or succeeds. -/
theorem run_change (f : Tree → Except ModelError Tree) (t : Tree) :
    (∃ t', f t = .ok t' ∧ (change f).run t = .ok () t')
      ∨ ∃ e, f t = .error e ∧ (change f).run t = .error e t := by
  simp only [change, EStateM.run]
  cases f t with
  | ok t' => exact Or.inl ⟨t', rfl, rfl⟩
  | error e => exact Or.inr ⟨e, rfl, rfl⟩

theorem run_changeWith (f : Tree → Except ModelError (α × Tree)) (t : Tree) :
    (∃ a t', f t = .ok (a, t') ∧ (changeWith f).run t = .ok a t')
      ∨ ∃ e, f t = .error e ∧ (changeWith f).run t = .error e t := by
  simp only [changeWith, EStateM.run]
  cases f t with
  | ok p => exact Or.inl ⟨p.1, p.2, rfl, rfl⟩
  | error e => exact Or.inr ⟨e, rfl, rfl⟩

end Edit

end CodeModel
