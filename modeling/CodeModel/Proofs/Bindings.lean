import CodeModel.Proofs.Renames
import CodeModel.Proofs.Walks
import CodeModel.Refine.Retyping
import CodeModel.Tree.Bindings

/-!
# The declarations that an element refers to

Whether references are bound depends on the declarations they lead to and not on
the names they show. So a reference is taken for the list of its `definitions`,
and an element for the list of its `targets`. Renaming leaves both alone, and
every other change of an element is described by what it does to them.

Main statement: `WellLinked.validateReferences_iff`, a well-linked tree is
accepted exactly when every element below the root refers to attached
declarations only.
-/

namespace CodeModel

namespace TypeRef

/-- The declarations that a reference and its members lead to. -/
def definitions (r : TypeRef) : List ElementId :=
  r.walk.filterMap definition?

/-- Showing another name binds to nothing else. -/
theorem definition?_rename (f : TypeRef → String) (r : TypeRef) :
    (r.rename f).definition? = r.definition? := by
  obtain ⟨name, target, isNullable, isCollection⟩ := r
  cases target <;> rfl

theorem definitions_rename (f : TypeRef → String) (r : TypeRef) :
    (r.rename f).definitions = r.definitions := by
  rw [definitions, walk_rename, List.filterMap_map]
  exact List.filterMap_congr fun s _ => definition?_rename f s

/-- The declarations of a reference are those of what it stands for. -/
theorem definitions_eq_of_target_eq {r s : TypeRef} (h : r.target = s.target) :
    r.definitions = s.definitions := by
  obtain ⟨name, target, isNullable, isCollection⟩ := r
  obtain ⟨name', target', isNullable', isCollection'⟩ := s
  obtain rfl : target = target' := h
  cases target <;> rfl

theorem definitions_external (name : String) : (external name).definitions = [] :=
  rfl

theorem definitions_declared (name : String) (id : ElementId) :
    (declared name id).definitions = [id] := rfl

/-- What a reference is bound to is among its definitions. -/
theorem mem_definitions_of_definition? {r : TypeRef} {d : ElementId}
    (h : r.definition? = some d) : d ∈ r.definitions := by
  refine List.mem_filterMap.mpr ⟨r, ?_, h⟩
  obtain ⟨name, target, isNullable, isCollection⟩ := r
  exact List.mem_cons_self

/-- A union leads to what its members lead to. -/
theorem definitions_union (name : String) (members : List TypeRef)
    (isNullable isCollection : Bool) :
    (TypeRef.mk name (.union members) isNullable isCollection).definitions =
      members.flatMap definitions := by
  simp only [definitions, walk, TypeTarget.walk, walkAll_eq_flatMap,
    List.filterMap_cons, definition?, List.filterMap_flatMap]
  rfl

/-- Binding anew changes the definitions one by one. -/
theorem definitions_rebind (f : ElementId → ElementId) (r : TypeRef) :
    (r.rebind f).definitions = r.definitions.map f := by
  have hone : ∀ s : TypeRef, (s.rebind f).definition? = s.definition?.map f := by
    rintro ⟨name, target, isNullable, isCollection⟩
    cases target <;> rfl
  rw [definitions, definitions, walk_rebind, List.filterMap_map, List.map_filterMap]
  exact List.filterMap_congr fun s _ => hone s

mutual

/-- A reference all of whose declarations stay is the same. -/
theorem rebind_eq_self {f : ElementId → ElementId} :
    ∀ r : TypeRef, (∀ d ∈ r.definitions, f d = d) → r.rebind f = r
  | ⟨_, .external, _, _⟩, _ => rfl
  | ⟨name, .declared id, isNullable, isCollection⟩, h => by
      rw [rebind, TypeTarget.rebind, h id (mem_definitions_of_definition? rfl)]
  | ⟨name, .union members, isNullable, isCollection⟩, h => by
      rw [definitions_union] at h
      rw [rebind, TypeTarget.rebind, rebindAll_eq_self members fun r hr d hd =>
        h d (List.mem_flatMap.mpr ⟨r, hr, hd⟩)]

/-- References stay as they are when what they lead to does. -/
theorem rebindAll_eq_self {f : ElementId → ElementId} : ∀ rs : List TypeRef,
    (∀ r ∈ rs, ∀ d ∈ r.definitions, f d = d) → rebindAll f rs = rs
  | [], _ => rfl
  | r :: rest, h => by
      obtain ⟨hr, hrest⟩ := List.forall_mem_cons.mp h
      rw [rebindAll, rebind_eq_self r hr, rebindAll_eq_self rest hrest]

end

end TypeRef

namespace Import

/-- An import is bound to what its symbol leads to. -/
theorem mem_definitions_of_target? {i : Import} {d : ElementId}
    (h : i.target? = some d) : ∃ r, i.symbol = some r ∧ d ∈ r.definitions := by
  obtain ⟨r, hr, hd⟩ := Option.bind_eq_some_iff.mp h
  exact ⟨r, hr, TypeRef.mem_definitions_of_definition? hd⟩

/-- What an import brings in under its name: a whole module, a declaration of
    the tree, or a symbol known by its name alone. -/
def subject? (i : Import) : Option (ElementId ⊕ String) :=
  i.symbol.map fun r =>
    match r.definition? with
    | some id => .inl id
    | none => .inr r.name

/-- Two imports are the same when they bring in the same under the same name. -/
theorem key_eq_iff {i j : Import} :
    i.key = j.key ↔ i.name = j.name ∧ i.subject? = j.subject? := by
  have hread : ∀ i : Import, i.key =
      match i.subject? with
      | none => .whole i.name
      | some (.inl id) => .declaration i.name id
      | some (.inr symbol) => .symbol i.name symbol := by
    intro i
    rw [key, subject?]
    cases i.symbol with
    | none => rfl
    | some r => cases hdef : r.definition? <;> simp [hdef]
  constructor
  · rw [hread i, hread j]
    rcases i.subject? with _ | (_ | _) <;> rcases j.subject?
      with _ | (_ | _) <;> simp
  · rintro ⟨hname, hsubject⟩
    rw [hread i, hread j, hname, hsubject]

/-- Imports of one subject have one target. -/
theorem target?_eq_of_subject?_eq {i j : Import} (h : i.subject? = j.subject?) :
    i.target? = j.target? := by
  have hread : ∀ i : Import, i.target? = i.subject?.bind Sum.getLeft? := by
    intro i
    rw [target?, subject?]
    cases i.symbol with
    | none => rfl
    | some r => cases hdef : r.definition? <;> simp [hdef]
  rw [hread, hread, h]

end Import

namespace Element

/-- The declarations that an element refers to. -/
def targets (e : Element) : List ElementId :=
  e.references.filterMap TypeRef.definition?

/-- The targets of an element are the definitions in its slots. -/
theorem targets_eq_flatMap (e : Element) :
    e.targets = e.typeSlots.flatMap TypeRef.definitions := by
  rw [targets, references, List.filterMap_flatMap]
  rfl

theorem targets_eq_of_content_eq {e e' : Element} (h : e'.content = e.content) :
    e'.targets = e.targets := by
  rw [targets_eq_flatMap, targets_eq_flatMap, typeSlots, typeSlots, h]

theorem imports_eq_of_content_eq {e e' : Element} (h : e'.content = e.content) :
    e'.imports = e.imports := by
  rw [imports, imports, imports?, imports?, h]

/-- An element refers to a declaration exactly when a slot leads there. -/
theorem mem_targets_iff {e : Element} {d : ElementId} :
    d ∈ e.targets ↔ ∃ r ∈ e.typeSlots, d ∈ r.definitions := by
  rw [targets_eq_flatMap]
  exact List.mem_flatMap

/-- Renaming leads nowhere else. -/
theorem targets_rename (f : TypeRef → String) (e : Element) :
    (e.mapTypes (·.rename f)).targets = e.targets := by
  rw [targets_eq_flatMap, targets_eq_flatMap, typeSlots_mapTypes, List.flatMap_map]
  exact congrArg (List.flatMap · e.typeSlots) (funext fun r =>
    TypeRef.definitions_rename f r)

/-- Binding the slots anew changes the targets one by one. -/
theorem targets_rebind (f : ElementId → ElementId) (e : Element) :
    (e.mapTypes (·.rebind f)).targets = e.targets.map f := by
  rw [targets_eq_flatMap, targets_eq_flatMap, typeSlots_mapTypes, List.flatMap_map,
    List.map_flatMap]
  exact congrArg (List.flatMap · e.typeSlots) (funext fun r =>
    TypeRef.definitions_rebind f r)

/-- The symbols of its imports stand in the slots of an element. -/
theorem mem_typeSlots_of_symbol {e : Element} {i : Import} (hi : i ∈ e.imports)
    {r : TypeRef} (hr : i.symbol = some r) : r ∈ e.typeSlots := by
  have hsymbol : r ∈ e.imports.filterMap (·.symbol) :=
    List.mem_filterMap.mpr ⟨i, hi, hr⟩
  rw [imports, imports?] at hsymbol
  rw [typeSlots]
  cases hc : e.content <;> rw [hc] at hsymbol
  case namespaceDecl => exact hsymbol
  case classDecl => exact List.mem_append_right _ hsymbol
  all_goals exact absurd hsymbol List.not_mem_nil

/-- The import block of an element takes part in what it refers to through the
    symbols of its imports. -/
theorem mem_targets_of_symbol {e : Element} {i : Import}
    (hi : i ∈ e.imports) {r : TypeRef} (hr : i.symbol = some r) {d : ElementId}
    (hd : d ∈ r.definitions) : d ∈ e.targets :=
  mem_targets_iff.mpr ⟨r, mem_typeSlots_of_symbol hi hr, hd⟩

/-- What an import is bound to is among the targets. -/
theorem mem_targets_of_target? {e : Element} {i : Import} (hi : i ∈ e.imports)
    {d : ElementId} (h : i.target? = some d) : d ∈ e.targets := by
  obtain ⟨r, hr, hd⟩ := Import.mem_definitions_of_target? h
  exact mem_targets_of_symbol hi hr hd

/-- Other imports bring in their own declarations at most. -/
theorem targets_mapImports_subset {f : List Import → List Import} {e : Element}
    {d : ElementId} (h : d ∈ (e.mapImports f).targets) :
    d ∈ e.targets ∨ ∃ i ∈ f e.imports, ∃ r, i.symbol = some r
      ∧ d ∈ r.definitions := by
  obtain ⟨r, hr, hd⟩ := mem_targets_iff.mp h
  unfold mapImports mapContent typeSlots Content.typeSlots at hr
  cases hc : e.content <;> rw [hc] at hr
  case namespaceDecl imports =>
    obtain ⟨i, hi, hs⟩ := List.mem_filterMap.mp hr
    refine Or.inr ⟨i, ?_, r, hs, hd⟩
    simpa [Element.imports, imports?, hc] using hi
  case classDecl c =>
    rcases List.mem_append.mp hr with hr | hr
    · refine Or.inl (mem_targets_iff.mpr ⟨r, ?_, hd⟩)
      rw [typeSlots, hc]
      exact List.mem_append_left _ hr
    · obtain ⟨i, hi, hs⟩ := List.mem_filterMap.mp hr
      refine Or.inr ⟨i, ?_, r, hs, hd⟩
      simpa [Element.imports, imports?, hc] using hi
  all_goals
    refine Or.inl (mem_targets_iff.mpr ⟨r, ?_, hd⟩)
    rw [typeSlots, hc]
    exact hr

/-- Naming imports anew changes no slot for a type. -/
theorem typeSlots_mapImports_eq {f : List Import → List Import} {e : Element}
    (h : (f e.imports).filterMap (·.symbol) = e.imports.filterMap (·.symbol)) :
    (e.mapImports f).typeSlots = e.typeSlots := by
  obtain ⟨name, parent, children, description, content⟩ := e
  cases content with
  | namespaceDecl imports => exact h
  | classDecl c => exact congrArg (c.inherits.toList ++ c.implements ++ ·) h
  | _ => rfl

/-- Naming imports anew changes nothing that is referred to. -/
theorem targets_mapImports_eq {f : List Import → List Import} {e : Element}
    (h : (f e.imports).filterMap (·.symbol) = e.imports.filterMap (·.symbol)) :
    (e.mapImports f).targets = e.targets := by
  rw [targets_eq_flatMap, targets_eq_flatMap, typeSlots_mapImports_eq h]

/-- Only elements with a block of imports have imports to change. -/
theorem imports_mapImports (f : List Import → List Import) (e : Element) :
    (e.mapImports f).imports = if e.imports?.isSome then f e.imports else [] := by
  obtain ⟨name, parent, children, description, content⟩ := e
  cases content <;> rfl

/-- Changing types changes the symbols of imports. -/
theorem imports_mapTypes (f : TypeRef → TypeRef) (e : Element) :
    (e.mapTypes f).imports = e.imports.map (·.mapSymbol f) := by
  obtain ⟨name, parent, children, description, content⟩ := e
  cases content <;> rfl

end Element

namespace Tree

variable {t t' : Tree}

/-- Refreshing an import leaves its symbol alone. -/
theorem symbol_refreshImport (scope : ElementId) (i : Import) :
    (t.refreshImport scope i).symbol = i.symbol := by
  rw [refreshImport]
  cases i.target? with
  | none => rfl
  | some target =>
      dsimp only
      split <;> rfl

theorem target?_refreshImport (scope : ElementId) (i : Import) :
    (t.refreshImport scope i).target? = i.target? := by
  rw [Import.target?, Import.target?, symbol_refreshImport]

/-- So refreshing imports leaves all targets alone. -/
theorem targets_refreshImports (scope : ElementId) (e : Element) :
    (e.mapImports (·.map (t.refreshImport scope))).targets = e.targets := by
  refine Element.targets_mapImports_eq ?_
  rw [List.filterMap_map]
  exact List.filterMap_congr fun i _ => symbol_refreshImport scope i

/-! ## Bound trees -/

/-- Every element below the root refers to attached declarations only. -/
def Bound (t : Tree) : Prop :=
  ∀ id e, t.get? id = some e → Ancestor t t.root id →
    ∀ d ∈ e.targets, Attached t d ∧ t.isDeclaration d = true

/-- A well-linked tree is accepted exactly when it is bound. -/
theorem WellLinked.validateReferences_iff (hwl : WellLinked t) :
    t.validateReferences = .ok () ↔ Bound t := by
  have hdangling : ∀ r : TypeRef, t.isDangling r = false ↔
      ∀ d, r.definition? = some d → Attached t d ∧ t.isDeclaration d = true := by
    intro r
    rw [isDangling]
    cases r.definition? with
    | none => simp
    | some target => simp [← hwl.isAttached_iff]
  rw [validateReferences_eq_ok_iff]
  constructor
  · intro h id e he ha d hd
    obtain ⟨r, hr, hdef⟩ := List.mem_filterMap.mp hd
    exact (hdangling r).mp (h id (hwl.mem_descendants_iff.mpr ha) e he r hr) d hdef
  · intro h id hid e he r hr
    refine (hdangling r).mpr fun d hdef => ?_
    exact h id e he (hwl.mem_descendants_iff.mp hid) d
      (List.mem_filterMap.mpr ⟨r, hr, hdef⟩)

end Tree

end CodeModel
