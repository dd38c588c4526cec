import CodeModel.Proofs.Steps
import CodeModel.Refine.ImportSeeding
import CodeModel.Refine.Retyping

/-!
# Amendments

What passes do to the content of single elements: they add and drop imports,
interfaces and inheritance, give types other names and keep names on the wire.
Each such change leaves the frame of the element alone, makes it refer to
nothing that is not attached, and leaves its imports named and distinct.

Main statements: `trimmed_…`, the changes that only drop, and `amended_…`, the
changes that add as well.
-/

namespace CodeModel

namespace Import

/-- A block is free of repetitions when no two of its imports bring in the same
    thing. -/
theorem distinct_iff_nodup_keys {block : List Import} :
    Distinct block ↔ (block.map key).Nodup := by
  rw [Distinct, List.Nodup, List.pairwise_map]
  rfl

/-- Nothing else is in a block after imports were added. -/
theorem mem_addImports {block new : List Import} {i : Import}
    (h : i ∈ addImports block new) : i ∈ block ∨ i ∈ new := by
  induction new generalizing block with
  | nil => exact Or.inl h
  | cons j rest ih =>
      rcases ih h with h | h
      · rcases addImport_eq block j with ⟨heq, -⟩ | ⟨heq, -⟩
        · rw [heq] at h
          exact Or.inl h
        · rw [heq, List.mem_append, List.mem_singleton] at h
          rcases h with h | rfl
          · exact Or.inl h
          · exact Or.inr List.mem_cons_self
      · exact Or.inr (List.mem_cons_of_mem _ h)

/-- Adding imports loses none. -/
theorem mem_addImports_of_mem {block new : List Import} {i : Import}
    (h : i ∈ block) : i ∈ addImports block new := by
  induction new generalizing block with
  | nil => exact h
  | cons j rest ih =>
      refine ih ?_
      rcases addImport_eq block j with ⟨heq, -⟩ | ⟨heq, -⟩
      · rw [heq]
        exact h
      · rw [heq]
        exact List.mem_append_left _ h

/-- What is added to a block is brought in by the block, if not by the import
    that was to be added. -/
theorem exists_mem_addImports_of_mem {block new : List Import} {i : Import}
    (h : i ∈ new) : ∃ j ∈ addImports block new, j.key = i.key := by
  induction new generalizing block with
  | nil => exact absurd h List.not_mem_nil
  | cons k rest ih =>
      rcases List.mem_cons.mp h with rfl | h
      · rcases addImport_eq block i with ⟨heq, j, hj, hsame⟩ | ⟨heq, -⟩
        · exact ⟨j, mem_addImports_of_mem hj, hsame⟩
        · have hadded : i ∈ addImports (addImport block i) rest := by
            refine mem_addImports_of_mem ?_
            rw [heq]
            exact List.mem_append_right _ (List.mem_singleton_self i)
          exact ⟨i, hadded, rfl⟩
      · exact ih h

/-- Imports that bring in the same are bound to the same. -/
theorem target?_eq_of_key_eq {i j : Import} (h : i.key = j.key) :
    i.target? = j.target? ∧ i.name = j.name := by
  obtain ⟨hname, hsubject⟩ := key_eq_iff.mp h
  exact ⟨target?_eq_of_subject?_eq hsubject, hname⟩

end Import

namespace ImportSpec

/-- What a target asks for is known by its name alone. -/
theorem definitions_toImport {s : ImportSpec} {r : TypeRef}
    (h : s.toImport.symbol = some r) : r.definitions = [] := by
  rw [toImport] at h
  cases hs : s.symbol with
  | none => simp [hs, Import.ofModule] at h
  | some name =>
      simp only [hs, Import.ofSymbol, Option.some.injEq] at h
      rw [← h]
      rfl

/-- It is bound to no declaration. -/
theorem target?_toImport (s : ImportSpec) : s.toImport.target? = none := by
  rw [toImport]
  cases s.symbol <;> rfl

end ImportSpec

namespace Element

/-- What an element refers to is read off its content. -/
theorem targets_mapContent (f : Content → Content) (e : Element) :
    (e.mapContent f).targets = (f e.content).typeSlots.flatMap
      TypeRef.definitions :=
  targets_eq_flatMap _

/-- The type of the value is one of the slots. -/
theorem mem_typeSlots_of_valueType? {e : Element} {r : TypeRef}
    (h : e.valueType? = some r) : r ∈ e.typeSlots := by
  rw [valueType?] at h
  unfold typeSlots Content.typeSlots
  cases hc : e.content <;> rw [hc] at h <;> simp_all

/-- An interface more changes neither place nor name. -/
theorem frame_addInterface (interface : TypeRef) (e : Element) :
    (e.mapClass (·.addInterface interface)).frame = e.frame := by
  refine frame_mapClass (fun c => ?_) e
  rw [ClassDecl.addInterface]
  split <;> rfl

/-- An interface known by its name alone refers to nothing. -/
theorem targets_addInterface (name : String) (e : Element) :
    (e.mapClass (·.addInterface (.external name))).targets = e.targets := by
  rw [mapClass, targets_mapContent, targets_eq_flatMap, typeSlots]
  cases e.content with
  | classDecl c =>
      dsimp only
      rw [ClassDecl.addInterface]
      split
      · rfl
      · simp [Content.typeSlots, TypeRef.definitions_external]
  | _ => rfl

/-- A class with an interface more is what it was. -/
theorem holds_addInterface (interface : TypeRef) (e : Element) :
    Holds e (e.mapClass (·.addInterface interface)) := by
  refine holds_mapClass (fun c => ?_) e
  rw [ClassDecl.addInterface]
  split <;> rfl

theorem imports_addInterface (interface : TypeRef) (e : Element) :
    (e.mapClass (·.addInterface interface)).imports = e.imports := by
  obtain ⟨name, parent, children, description, content⟩ := e
  cases content with
  | classDecl c =>
      show (c.addInterface interface).imports = c.imports
      rw [ClassDecl.addInterface]
      split <;> rfl
  | _ => rfl

/-- What a value is bound to does not depend on the name shown. -/
theorem targets_mapValueType_rename (f : TypeRef → String) (e : Element) :
    (e.mapValueType (·.rename f)).targets = e.targets := by
  rw [mapValueType, targets_mapContent, targets_eq_flatMap, typeSlots]
  cases e.content <;> simp [Content.typeSlots, TypeRef.definitions_rename]

theorem imports_mapValueType (f : TypeRef → TypeRef) (e : Element) :
    (e.mapValueType f).imports = e.imports := by
  obtain ⟨name, parent, children, description, content⟩ := e
  cases content <;> rfl

theorem targets_makeNullable (e : Element) :
    (e.mapProperty fun p => { p with type := p.type.nullable }).targets
      = e.targets := by
  rw [mapProperty, targets_mapContent, targets_eq_flatMap, typeSlots]
  cases e.content with
  | property p =>
      have hsame : p.type.nullable.definitions = p.type.definitions :=
        TypeRef.definitions_eq_of_target_eq rfl
      simp [Content.typeSlots, hsame]
  | _ => rfl

theorem imports_mapProperty (f : PropertyDecl → PropertyDecl) (e : Element) :
    (e.mapProperty f).imports = e.imports := by
  obtain ⟨name, parent, children, description, content⟩ := e
  cases content <;> rfl

/-- Noting the name on the wire trims an element: nothing new is referred to,
    and no import is added. -/
theorem trimmed_keepWireName (name : String) (e : Element) :
    Trimmed e (e.keepWireName name) where
  frame_eq := frame_keepWireName name e
  targets_subset d hd := by
    have hsame : (e.keepWireName name).targets = e.targets := by
      rw [keepWireName, targets_mapContent, targets_eq_flatMap, typeSlots]
      cases e.content <;> rfl
    exact hsame ▸ hd
  imports_sublist := by
    have hsame : (e.keepWireName name).imports = e.imports := by
      obtain ⟨oldName, parent, children, description, content⟩ := e
      cases content <;> rfl
    rw [hsame]
  holds := holds_keepWireName name e

/-- A change of classes that drops types and imports at most. -/
theorem trimmed_mapClass {f : ClassDecl → ClassDecl}
    (htoken : ∀ c, (f c).token = c.token) (hkind : ∀ c, (f c).kind = c.kind)
    (htypes : ∀ c, ∀ r ∈ (Content.classDecl (f c)).typeSlots, r
      ∈ (Content.classDecl c).typeSlots)
    (himports : ∀ c, List.Sublist (f c).imports c.imports) (e : Element) :
    Trimmed e (e.mapClass f) where
  frame_eq := frame_mapClass htoken e
  targets_subset d hd := by
    obtain ⟨name, parent, children, description, content⟩ := e
    cases content with
    | classDecl c =>
        obtain ⟨r, hr, hdef⟩ := mem_targets_iff.mp hd
        exact mem_targets_iff.mpr ⟨r, htypes c r hr, hdef⟩
    | _ => exact hd
  imports_sublist := by
    obtain ⟨name, parent, children, description, content⟩ := e
    cases content with
    | classDecl c => exact himports c
    | _ => exact List.Sublist.refl _
  holds := holds_mapClass hkind e

/-- Leaving imports out trims an element. -/
theorem trimmed_filterImports (p : Import → Bool) (e : Element) :
    Trimmed e (e.mapClass fun c => { c with imports := c.imports.filter p }) := by
  refine trimmed_mapClass (f := fun c => { c with imports := c.imports.filter p })
    (fun _ => rfl)
    (fun _ => rfl) (fun c r hr => ?_) (fun c => List.filter_sublist) e
  rcases List.mem_append.mp hr with hr | hr
  · exact List.mem_append_left _ hr
  · refine List.mem_append_right _ ?_
    exact ((List.filter_sublist).filterMap _).subset hr

theorem trimmed_dropInheritance (e : Element) :
    Trimmed e (e.mapClass fun c => { c with inherits := none }) := by
  refine trimmed_mapClass (f := fun c => { c with inherits := none }) (fun _ => rfl)
    (fun _ => rfl) (fun c r hr => ?_) (fun c => List.Sublist.refl _) e
  show r ∈ c.inherits.toList ++ c.implements ++ c.imports.filterMap (·.symbol)
  rw [List.append_assoc]
  exact List.mem_append_right _ hr

theorem imports_dropInheritance (e : Element) :
    (e.mapClass fun c => { c with inherits := none }).imports = e.imports := by
  obtain ⟨name, parent, children, description, content⟩ := e
  cases content <;> rfl

/-- Of a class, filtering leaves the imports that pass. -/
theorem imports_filterImports (p : Import → Bool) {e : Element}
    (h : e.kind = .classDecl) :
    (e.mapClass fun c => { c with imports := c.imports.filter p }).imports
      = e.imports.filter p := by
  obtain ⟨name, parent, children, description, content⟩ := e
  cases content with
  | classDecl c => rfl
  | _ => cases h

/-! ## Names on the wire, types of its own, and imports that stay -/

theorem wireSlot?_mapImports (f : List Import → List Import) (e : Element) :
    (e.mapImports f).wireSlot? = e.wireSlot? := by
  obtain ⟨name, parent, children, description, content⟩ := e
  cases content <;> rfl

theorem wireSlot?_mapTypes (f : TypeRef → TypeRef) (e : Element) :
    (e.mapTypes f).wireSlot? = e.wireSlot? := by
  obtain ⟨name, parent, children, description, content⟩ := e
  cases content <;> rfl

theorem wireSlot?_mapValueType (f : TypeRef → TypeRef) (e : Element) :
    (e.mapValueType f).wireSlot? = e.wireSlot? := by
  obtain ⟨name, parent, children, description, content⟩ := e
  cases content <;> rfl

theorem wireSlot?_withName (name : String) (e : Element) :
    (e.withName name).wireSlot? = e.wireSlot? := by
  obtain ⟨oldName, parent, children, description, content⟩ := e
  cases content <;> rfl

theorem wireSlot?_filterImports (p : Import → Bool) (e : Element) :
    (e.mapClass fun c => { c with imports := c.imports.filter p }).wireSlot?
      = e.wireSlot? := by
  obtain ⟨name, parent, children, description, content⟩ := e
  cases content <;> rfl

/-- The types of its own are those outside the imports. -/
theorem ownTypes_mapImports (f : List Import → List Import) (e : Element) :
    (e.mapImports f).ownTypes = e.ownTypes := by
  obtain ⟨name, parent, children, description, content⟩ := e
  cases content <;> rfl

theorem ownTypes_withName (name : String) (e : Element) :
    (e.withName name).ownTypes = e.ownTypes := by
  obtain ⟨oldName, parent, children, description, content⟩ := e
  cases content <;> rfl

/-- A note of the name on the wire touches no type. -/
theorem ownTypes_keepWireName (name : String) (e : Element) :
    (e.keepWireName name).ownTypes = e.ownTypes := by
  obtain ⟨oldName, parent, children, description, content⟩ := e
  cases content <;> rfl

theorem imports_keepWireName (name : String) (e : Element) :
    (e.keepWireName name).imports = e.imports := by
  obtain ⟨oldName, parent, children, description, content⟩ := e
  cases content <;> rfl

/-- Other names lead to the same targets. -/
theorem ownTargets_rename (f : TypeRef → String) (e : Element) :
    (e.mapTypes (·.rename f)).ownTargets = e.ownTargets := by
  obtain ⟨name, parent, children, description, content⟩ := e
  cases content with
  | classDecl c =>
      cases hi : c.inherits <;>
        simp [mapTypes, mapContent, Content.mapTypes, ownTargets, ownTypes, hi,
          List.flatMap_map, TypeRef.definitions_rename]
  | _ =>
      simp [mapTypes, mapContent, Content.mapTypes, ownTargets, ownTypes,
        indexType?, valueType?, TypeRef.definitions_rename]

/-- Only classes and properties have room for a name on the wire. -/
theorem wireSlot?_eq_none_of_kind {e : Element} (hclass : e.kind ≠ .classDecl)
    (hproperty : e.kind ≠ .property) : e.wireSlot? = none := by
  unfold kind at hclass hproperty
  rw [wireSlot?]
  cases hc : e.content with
  | classDecl c =>
      rw [hc] at hclass
      exact absurd rfl hclass
  | property p =>
      rw [hc] at hproperty
      exact absurd rfl hproperty
  | _ => rfl

/-- What is not imported is referred to by an element of its own, unless it has
    imports. -/
theorem ownTargets_eq_targets {e : Element} (h : e.imports? = none) :
    e.ownTargets = e.targets := by
  rw [targets_eq_flatMap, ownTargets, ownTypes, typeSlots]
  rw [imports?] at h
  cases hc : e.content <;> rw [hc] at h
  case namespaceDecl => cases h
  case classDecl => cases h
  all_goals simp [Content.typeSlots, indexType?, valueType?, hc]

/-- A change that adds imports at most. -/
theorem mended_addImports (e : Element) (new : List Import) :
    Mended e (e.mapImports fun _ => Import.addImports e.imports new) where
  wireSlot?_eq := wireSlot?_mapImports _ e
  ownTargets_subset d hd := by
    rw [ownTargets, ownTypes_mapImports] at hd
    exact hd
  keys_subset i hi := by
    refine ⟨i, ?_, rfl⟩
    rw [imports_mapImports]
    split
    · exact Import.mem_addImports_of_mem hi
    next hnone =>
      rw [imports, Option.not_isSome_iff_eq_none.mp hnone] at hi
      exact absurd hi List.not_mem_nil

/-- A change that touches neither imports nor names on the wire. -/
theorem mended_of_eq {e e' : Element} (hslot : e'.wireSlot? = e.wireSlot?)
    (htargets : ∀ d ∈ e'.ownTargets, d ∈ e.ownTargets)
    (himports : e'.imports = e.imports) : Mended e e' :=
  ⟨hslot, htargets, fun i hi => ⟨i, himports ▸ hi, rfl⟩⟩

/-- An interface known by its name alone refers to nothing in the tree. -/
theorem mended_addInterface (name : String) (e : Element) :
    Mended e (e.mapClass (·.addInterface (.external name))) := by
  have hslot : (e.mapClass (·.addInterface (.external name))).wireSlot?
      = e.wireSlot? := by
    obtain ⟨oldName, parent, children, description, content⟩ := e
    cases content with
    | classDecl c =>
        show some (c.addInterface _).serializationName = some c.serializationName
        rw [ClassDecl.addInterface]
        split <;> rfl
    | _ => rfl
  refine mended_of_eq hslot (fun d hd => ?_) (imports_addInterface _ e)
  obtain ⟨oldName, parent, children, description, content⟩ := e
  cases content with
  | classDecl c =>
      rw [ownTargets, ownTypes] at hd ⊢
      dsimp only [mapClass, mapContent] at hd ⊢
      rw [ClassDecl.addInterface] at hd
      split at hd
      · exact hd
      · simp only [List.flatMap_append, List.flatMap_cons, List.flatMap_nil,
          TypeRef.definitions_external, List.append_nil] at hd ⊢
        exact hd
  | _ => exact hd

/-- Dropping inheritance refers to less. -/
theorem mended_dropInheritance (e : Element) :
    Mended e (e.mapClass fun c => { c with inherits := none }) := by
  obtain ⟨name, parent, children, description, content⟩ := e
  cases content with
  | classDecl c =>
      refine mended_of_eq rfl (fun d hd => ?_) rfl
      obtain ⟨r, hr, hd⟩ := List.mem_flatMap.mp hd
      exact List.mem_flatMap.mpr ⟨r, List.mem_append_right _ hr, hd⟩
  | _ => exact mended_of_eq rfl (fun d hd => hd) rfl

/-- Another name for the type of the value mends nothing but the name. -/
theorem mended_mapValueType_rename (f : TypeRef → String) (e : Element) :
    Mended e (e.mapValueType (·.rename f)) := by
  refine mended_of_eq (wireSlot?_mapValueType _ e)
    (fun d hd => ?_) (imports_mapValueType _ e)
  have hsame : (e.mapValueType (·.rename f)).ownTargets = e.ownTargets := by
    obtain ⟨name, parent, children, description, content⟩ := e
    cases content <;>
      simp [mapValueType, mapContent, ownTargets, ownTypes, indexType?, valueType?,
        TypeRef.definitions_rename]
  exact hsame ▸ hd

/-- A property that may be absent refers to what it referred to. -/
theorem mended_makeNullable (e : Element) :
    Mended e (e.mapProperty fun p => { p with type := p.type.nullable }) := by
  obtain ⟨name, parent, children, description, content⟩ := e
  cases content with
  | property p =>
      refine mended_of_eq rfl (fun d hd => ?_) rfl
      have hsame : p.type.nullable.definitions = p.type.definitions :=
        TypeRef.definitions_eq_of_target_eq rfl
      simpa [ownTargets, ownTypes, indexType?, valueType?, mapProperty, mapContent,
        hsame] using hd
  | _ => exact mended_of_eq rfl (fun d hd => hd) rfl

/-- An element that has no name on the wire has none to be written down. -/
theorem notesWireName_of_none {e : Element} (h : e.wireSlot? = none) :
    e.NotesWireName fun e₁ => e₁ := by
  refine ⟨fun e₁ h₁ => ?_, fun _ => rfl, fun _ => rfl⟩
  rw [h₁, h, Option.map_none]

/-- Noting the name that an element bears is what a renaming asks for. -/
theorem notesWireName_keepWireName (e : Element) :
    e.NotesWireName (Element.keepWireName e.name) := by
  refine ⟨fun e₁ h₁ => ?_, ownTypes_keepWireName e.name,
    imports_keepWireName e.name⟩
  rw [← h₁]
  obtain ⟨name, parent, children, description, content⟩ := e₁
  cases content <;> rfl

end Element

namespace TypeCorrections

variable (c : TypeCorrections) (owner : String)

/-- What correcting the types of a method makes of it: a deserializer may be
    given another type. -/
theorem correctTypes_method (m : MethodDecl) :
    ∃ r, c.correctTypes (c.correctKind owner (.method m))
      = .method { m with returnType := r }
      ∧ ((∃ name, r = (TypeRef.external name).correctNames c.renames)
        ∨ r = m.returnType.correctNames c.renames) := by
  simp only [correctKind]
  split
  · exact ⟨_, rfl, Or.inl ⟨_, rfl⟩⟩
  · exact ⟨_, rfl, Or.inr rfl⟩

/-- What correcting the types of a property makes of it: the type of additional
    data may be named anew. -/
theorem correctTypes_property (p : PropertyDecl) :
    (∃ a, p.kind = .additionalData ∧ c.additionalData = some a
        ∧ c.correctTypes (c.correctKind owner (.property p)) = .property { p with
            type := (p.type.withName a.typeName).correctNames c.renames
            defaultValue := some a.defaultValue })
      ∨ c.correctTypes (c.correctKind owner (.property p)) =
          .property { p with type := p.type.correctNames c.renames } := by
  simp only [correctKind]
  split
  next a hkind ha => exact Or.inl ⟨a, hkind, ha, rfl⟩
  · exact Or.inr rfl

/-- Corrections of the base types keep the kind. -/
theorem kind_correct (content : Content) :
    (c.correctTypes (c.correctKind owner content)).kind = content.kind := by
  cases content with
  | method m => obtain ⟨r, hm, -⟩ := c.correctTypes_method owner m; rw [hm]; rfl
  | property p =>
      rcases c.correctTypes_property owner p
        with ⟨a, -, -, hp⟩ | hp <;> rw [hp] <;> rfl
  | _ => rfl

theorem token?_correct (content : Content) :
    (c.correctTypes (c.correctKind owner content)).token? = content.token? := by
  cases content with
  | method m => obtain ⟨r, hm, -⟩ := c.correctTypes_method owner m; rw [hm]; rfl
  | property p =>
      rcases c.correctTypes_property owner p
        with ⟨a, -, -, hp⟩ | hp <;> rw [hp] <;> rfl
  | _ => rfl

/-- Correcting the types of an element refers to nothing new. -/
theorem targets_correct_subset (e : Element) {d : ElementId} (hd : d ∈ (e.mapContent
      fun content => c.correctTypes (c.correctKind owner content)).targets) :
    d ∈ e.targets := by
  have hrename : ∀ r : TypeRef, (r.correctNames c.renames).definitions
      = r.definitions := fun r =>
    TypeRef.definitions_rename _ r
  rw [Element.targets_mapContent] at hd
  rw [Element.targets_eq_flatMap, Element.typeSlots]
  cases hc : e.content with
  | method m =>
      obtain ⟨r, hm, hr⟩ := c.correctTypes_method owner m
      rw [hc, hm] at hd
      simp only [Content.typeSlots, List.flatMap_cons, List.flatMap_nil,
        List.append_nil] at hd ⊢
      rcases hr with ⟨name, rfl⟩ | rfl
      · rw [hrename, TypeRef.definitions_external] at hd
        exact absurd hd List.not_mem_nil
      · rwa [hrename] at hd
  | property p =>
      have hsame : ∀ name, (p.type.withName name).definitions
          = p.type.definitions := fun name =>
        TypeRef.definitions_eq_of_target_eq rfl
      rw [hc] at hd
      rcases c.correctTypes_property owner p
        with ⟨a, -, -, hp⟩ | hp <;> rw [hp] at hd <;>
        simpa [Content.typeSlots, hrename, hsame] using hd
  | parameter p =>
      rw [hc] at hd; simpa [correctKind, correctTypes, Content.typeSlots, hrename]
        using hd
  | indexer i =>
      rw [hc] at hd; simpa [correctKind, correctTypes, Content.typeSlots, hrename]
        using hd
  | namespaceDecl imports => rw [hc] at hd; exact hd
  | classDecl d => rw [hc] at hd; exact hd
  | enumDecl options => rw [hc] at hd; exact hd

theorem wireSlot?_correct (e : Element) :
    (e.mapContent fun content =>
      c.correctTypes (c.correctKind owner content)).wireSlot? = e.wireSlot? := by
  obtain ⟨name, parent, children, description, content⟩ := e
  cases content with
  | method m =>
      obtain ⟨r, hm, -⟩ := c.correctTypes_method owner m
      rw [Element.mapContent, hm]
      rfl
  | property p =>
      rcases c.correctTypes_property owner p
        with ⟨a, -, -, hp⟩ | hp <;> rw [Element.mapContent, hp] <;> rfl
  | _ => rfl

theorem imports?_correct (e : Element) :
    (e.mapContent fun content =>
      c.correctTypes (c.correctKind owner content)).imports? = e.imports? := by
  obtain ⟨name, parent, children, description, content⟩ := e
  cases content with
  | method m =>
      obtain ⟨r, hm, -⟩ := c.correctTypes_method owner m
      rw [Element.mapContent, hm]
      rfl
  | property p =>
      rcases c.correctTypes_property owner p
        with ⟨a, -, -, hp⟩ | hp <;> rw [Element.mapContent, hp] <;> rfl
  | _ => rfl

theorem imports_correct (e : Element) :
    (e.mapContent fun content =>
      c.correctTypes (c.correctKind owner content)).imports = e.imports := by
  rw [Element.imports, imports?_correct, Element.imports]

/-- A corrected element goes by its name on the wire and imports what it
    imported. -/
theorem mended_correct (e : Element) :
    Element.Mended e (e.mapContent fun content =>
      c.correctTypes (c.correctKind owner content)) := by
  refine Element.mended_of_eq (c.wireSlot?_correct owner e)
    (fun d hd => ?_) (c.imports_correct owner e)
  cases he : e.imports? with
  | none =>
      rw [Element.ownTargets_eq_targets ((c.imports?_correct owner e).trans he)]
        at hd
      rw [Element.ownTargets_eq_targets he]
      exact c.targets_correct_subset owner e hd
  | some block =>
      -- Classes and namespaces are left alone.
      obtain ⟨name, parent, children, description, content⟩ := e
      cases content <;> first | exact hd | cases he

end TypeCorrections

namespace Tree

variable {t t' : Tree} {n : Nat} {K : StepKind → Prop}

/-! ## Imports that are brought in -/

/-- An element with the same imports imports nothing new. -/
theorem linksOutward_of_eq {id : ElementId} {e e' : Element}
    (h : e'.imports = e.imports) : LinksOutward K t id e e' := by
  rintro d ⟨i, hi, htarget⟩
  exact Or.inl ⟨i, h ▸ hi, htarget⟩

/-- New imports lead outward if each of them does. -/
theorem linksOutward_addImports {id : ElementId} {e : Element}
    (he : e.imports?.isSome) {new : List Import}
    (hnew : ∀ i ∈ new, ∀ d, i.target? = some d → K .link ∧ ¬ Within t id d) :
    LinksOutward K t id e (e.mapImports fun _ => Import.addImports e.imports new) :=
      by
  rintro d ⟨i, hi, htarget⟩
  rw [Element.imports_mapImports, if_pos he] at hi
  rcases Import.mem_addImports hi with hi | hi
  · exact Or.inl ⟨i, hi, htarget⟩
  · exact Or.inr (hnew i hi d htarget)

/-! ## Amendments -/

/-- A change that touches neither frame nor references nor imports is an
    amendment. -/
theorem amended_of_eq {e e' : Element} (hframe : e'.frame = e.frame) (htargets :
      ∀ d ∈ e'.targets, d ∈ e.targets ∨ (Attached t d ∧ t.isDeclaration d = true))
    (himports : e'.imports = e.imports) (hholds : Element.Holds e e') :
    Amended t e e' where
  frame_eq := hframe
  targets_bound := htargets
  imports_named i hi := Or.inl ⟨i, himports ▸ hi, rfl⟩
  distinct h := himports ▸ h
  holds := hholds

/-- Imports whose symbols are attached declarations, under the names that
    imports of them carry, may be added. -/
theorem amended_addImports {e : Element} (he : e.imports?.isSome)
    {new : List Import} (hbound : ∀ i ∈ new, ∀ r, i.symbol = some r →
      ∀ d ∈ r.definitions, Attached t d ∧ t.isDeclaration d = true)
    (hname : ∀ i ∈ new, ∀ d, i.target? = some d → i.name = t.importName d) :
    Amended t e (e.mapImports fun _ => Import.addImports e.imports new) := by
  have himports : (e.mapImports fun _ => Import.addImports e.imports new).imports =
      Import.addImports e.imports new := by
    rw [Element.imports_mapImports, if_pos he]
  exact
    { frame_eq := Element.frame_mapImports _ e
      targets_bound := fun d hd => by
        rcases Element.targets_mapImports_subset hd with hd | ⟨i, hi, r, hr, hdef⟩
        · exact Or.inl hd
        · rcases Import.mem_addImports hi with hi | hi
          · exact Or.inl (Element.mem_targets_of_symbol hi hr hdef)
          · exact Or.inr (hbound i hi r hr d hdef)
      imports_named := fun i hi => by
        rw [himports] at hi
        rcases Import.mem_addImports hi with hi | hi
        · exact Or.inl ⟨i, hi, rfl⟩
        · refine Or.inr fun d hd => ⟨?_, hname i hi d hd⟩
          obtain ⟨r, hr, hdef⟩ := Import.mem_definitions_of_target? hd
          exact (hbound i hi r hr d hdef).1
      distinct := fun h => by
        rw [himports]
        exact Import.distinct_addImports h new
      holds := Element.holds_mapImports _ e }

/-- Imports that a target asks for are bound to nothing, so they amend an
    element. -/
theorem amended_addSpecs {e : Element} (he : e.imports?.isSome) {new : List Import}
    (hnew : ∀ i ∈ new, ∃ s : ImportSpec, i = s.toImport) :
    Amended t e (e.mapImports fun _ => Import.addImports e.imports new) := by
  refine amended_addImports he (fun i hi r hr d hd => ?_) fun i hi d hd => ?_
  · obtain ⟨s, rfl⟩ := hnew i hi
    rw [ImportSpec.definitions_toImport hr] at hd
    exact absurd hd List.not_mem_nil
  · obtain ⟨s, rfl⟩ := hnew i hi
    rw [ImportSpec.target?_toImport] at hd
    cases hd

end Tree

end CodeModel
