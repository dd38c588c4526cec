import CodeModel.Proofs.Flattening
import CodeModel.Proofs.UnionLowering

/-!
# Passes that cannot fail

Most passes are never refused on a stable tree: the names that they give are not
empty, the imports that they add are of something, and what they put into a
class collides with nothing. A pass that has this property is `Pass.Total`, and
so is a list of such passes.

* **`succeeds_importReferenced`**, **`succeeds_resolveImportPaths`**: what a
  class refers to is attached, so it has a name to import it by and sits in a
  namespace that a path leads to.
* **`succeeds_wrapUnions`**: without a union type there is nothing to do.

Main statement: `exists_refine_typescript`, for TypeScript a model without union
types is always refined.
-/

namespace CodeModel

open CodeModel.Tree

/-- The pass succeeds on every stable tree. -/
def Pass.Total (pass : Pass) : Prop :=
  ∀ t, Stable t → ∃ t', pass.apply.run t = .ok () t'

/-- An import that a target asks for carries the name of its module. -/
theorem ImportSpec.name_toImport (s : ImportSpec) :
    s.toImport.name = s.moduleName := by
  rw [toImport]
  cases s.symbol <;> rfl

namespace Tree

variable {t t' : Tree}

/-- A class has a block of imports. -/
theorem exists_imports?_of_class? {id : ElementId} {c : ClassDecl}
    (h : t.class? id = some c) :
    ∃ e, t.get? id = some e ∧ e.imports? = some c.imports := by
  obtain ⟨e, he, hclass⟩ := Option.bind_eq_some_iff.mp h
  refine ⟨e, he, ?_⟩
  rw [Element.imports?, Element.class?_eq_some_iff.mp hclass]

/-- What is attached is an element. -/
theorem exists_get?_of_isAttached {id : ElementId} (ha : t.isAttached id = true)
    (hne : id ≠ t.root) : ∃ e, t.get? id = some e := by
  rw [isAttached, Bool.or_eq_true, beq_iff_eq] at ha
  exact Option.isSome_iff_exists.mp
    (isAncestor_imp_ancestor (ha.resolve_left hne)).isSome_get?

/-- Whatever is below the root is not the root. -/
theorem WellLinked.ne_root_of_mem_descendants (hwl : WellLinked t) {id : ElementId}
    (h : id ∈ t.descendants t.root) : id ≠ t.root := by
  rintro rfl
  exact hwl.acyclic _ (hwl.mem_descendants_iff.mp h)

/-! ## Imports that a target always needs -/

/-- Seeding succeeds if the modules have names. -/
theorem succeeds_seedImports (t : Tree) {defaults : List DefaultImport}
    (hnames : ∀ d ∈ defaults, d.spec.moduleName ≠ "") :
    Edit.Succeeds (Edit.seedImports defaults) t fun _ _ => True := by
  refine Edit.succeeds_crawl (I := fun _ => True) (fun s id _ _ _ => ?_) trivial
  refine Edit.succeeds_get_bind ?_
  cases hc : s.class? id with
  | none => exact Edit.succeeds_pure trivial
  | some c =>
      dsimp only
      split
      · exact Edit.succeeds_pure trivial
      next hsome =>
        obtain ⟨e, he, hblock⟩ := exists_imports?_of_class? hc
        refine (Edit.succeeds_addImports
          (fun hnil => hsome (List.isEmpty_iff.mpr hnil)) ?_ he
          (by rw [hblock]; rfl) fun _ => trivial).discard
        intro i hi
        obtain ⟨d, hd, rfl⟩ := List.mem_map.mp hi
        rw [ImportSpec.name_toImport]
        exact hnames d (List.mem_filter.mp hd).1

theorem succeeds_implementInModels {interface : String} {spec : ImportSpec}
    (hname : spec.moduleName ≠ "") :
    Edit.Succeeds (Edit.implementInModels interface spec) t fun _ _ => True := by
  refine Edit.succeeds_crawl (I := fun _ => True) (fun s id _ _ _ => ?_) trivial
  refine Edit.succeeds_get_bind ?_
  split
  · exact Edit.succeeds_pure trivial
  next hmodel =>
    -- Whatever it implements then, a class has a block of imports.
    obtain ⟨c, hc⟩ : ∃ c, s.class? id = some c := by
      rw [isClassOf] at hmodel
      cases hc : s.class? id with
      | none => rw [hc] at hmodel; exact absurd rfl hmodel
      | some c => exact ⟨c, rfl⟩
    obtain ⟨e, he, hclass⟩ := Option.bind_eq_some_iff.mp hc
    refine (Edit.succeeds_modifyElement (Q := fun _ s' => s' = s.modify id _)
      rfl).bind ?_
    rintro _ _ rfl
    refine (Edit.succeeds_addImports (List.cons_ne_nil _ _)
      (fun i hi => ?_) (e := e.mapClass (·.addInterface (.external interface))) ?_
      ?_ fun _ => trivial).discard
    · rw [List.mem_singleton.mp hi, ImportSpec.name_toImport]
      exact hname
    · rw [get?_modify, if_pos rfl, he, Option.map_some]
    · rw [Element.imports?, Element.mapClass, Element.mapContent,
        Element.class?_eq_some_iff.mp hclass]
      rfl

/-! ## Union types -/

/-- Where nothing attached has a union type, there are no wrappers to make. -/
theorem succeeds_wrapUnions (placement : WrapperPlacement) {n : Nat}
    (h : WellLinked t) (hlowered : Lowered n t) :
    Edit.Succeeds (Edit.wrapUnions placement) t fun _ t' => t' = t := by
  refine Edit.Succeeds.discard ?_
  refine Edit.succeeds_crawlWith (I := fun _ s => s = t) ?_ rfl
  intro w s id _ hs ha
  obtain rfl : t = s := hs.symm
  refine Edit.succeeds_get_bind ?_
  have hnone : t.unionType? id = none := by
    refine Option.filter_eq_none_iff.mpr fun r hr => ?_
    obtain ⟨e, he, hvalue⟩ := Option.bind_eq_some_iff.mp hr
    rw [hlowered id e he (Or.inl (h.isAttached_iff.mp ha)) r hvalue]
    exact Bool.false_ne_true
  rw [hnone]
  exact Edit.succeeds_pure rfl

/-! ## Names that fit the target -/

/-- The suffix that a name lacks is not empty, so neither is the name that ends
    in it. -/
theorem succeeds_addAsyncSuffix {suffix : String} (h : WellLinked t) :
    Edit.Succeeds (Edit.addAsyncSuffix suffix) t fun _ _ => True := by
  refine (Edit.succeeds_crawl (I := fun s => s.root = t.root)
    (fun s id hid hroot ha => ?_) rfl).mono
    fun _ _ _ _ => trivial
  refine Edit.succeeds_get_bind ?_
  split
  · exact Edit.succeeds_pure hroot
  next name hname =>
    have hne : id ≠ s.root := hroot ▸ h.ne_root_of_mem_descendants hid
    obtain ⟨e, he⟩ := exists_get?_of_isAttached ha hne
    refine Edit.succeeds_setName (fun hempty => ?_) hne he
      ((samePlaces_rename s id (name ++ suffix)).root_eq.trans hroot)
    rw [unsuffixedAsync?, he] at hname
    dsimp only at hname
    split at hname
    next hasync =>
      refine hasync.2 ?_
      obtain ⟨-, rfl⟩ := String.append_eq_empty_iff.mp hempty
      exact List.nil_suffix
    · cases hname

/-- So does escaping, by a style that leaves no name empty. -/
theorem succeeds_escapeReservedNames {reserved : ReservedNames}
    {style : EscapeStyle} (hstyle : ∀ name, name ≠ "" → style.apply name ≠ "")
    (h : Stable t) :
    Edit.Succeeds (Edit.escapeReservedNames reserved style) t fun _ => Stable := by
  refine (Edit.succeeds_crawl (I := fun s => Stable s ∧ s.root = t.root) ?_
    ⟨h, rfl⟩).mono
    fun _ _ _ hI => hI.1
  rintro s id hid ⟨hs, hroot⟩ ha
  have hne : id ≠ s.root := hroot ▸ h.toWellLinked.ne_root_of_mem_descendants hid
  obtain ⟨e, he⟩ := exists_get?_of_isAttached ha hne
  refine (Edit.succeeds_element (Q := fun e' s' => e' = e ∧ s' = s) he
    ⟨rfl, rfl⟩).bind ?_
  rintro _ _ ⟨rfl, rfl⟩
  split
  · have hbelow := (hs.toWellLinked.isAttached_iff.mp ha).resolve_left hne
    have hname := hstyle _ (hs.fit id hbelow _ he).1
    refine (Edit.succeeds_setName (Q := fun _ s' => s' = _) hname hne he rfl).bind
      ?_
    rintro _ _ rfl
    refine Edit.succeeds_modifyElement ?_
    have hstep := Step.rename (K := fun _ => True) (n := 0) hname hne
      (Element.trimmed_keepWireName _) trivial
      fun e' he' => by
        obtain rfl := Option.some.inj (he.symm.trans he')
        exact Element.notesWireName_keepWireName _
    obtain ⟨hs', hc⟩ := hs.step hstep
    exact ⟨hs', hc.root_eq.trans hroot⟩
  · exact Edit.succeeds_pure ⟨hs, hroot⟩

/-! ## Imports of declarations -/

/-- Everything below the root sits in a namespace. -/
theorem WellLinked.exists_containingNamespace? (hwl : WellLinked t) {id : ElementId}
    (h : Ancestor t t.root id) : ∃ ns, t.containingNamespace? id = some ns := by
  refine Option.isSome_iff_exists.mp
    (List.find?_isSome.mpr ⟨t.root, hwl.mem_ancestors_iff.mpr h, ?_⟩)
  exact decide_eq_true hwl.kind?_root

/-- An attached declaration is below the root. -/
theorem Stable.ancestor_of_declaration (h : Stable t) {d : ElementId}
    (hd : Attached t d ∧ t.isDeclaration d = true) : Ancestor t t.root d := by
  refine hd.1.resolve_left ?_
  rintro rfl
  have hkind := isDeclaration_iff.mp hd.2
  rw [h.toWellLinked.kind?_root] at hkind
  rcases hkind with hkind | hkind <;> cases hkind

/-- Imports of an attached declaration carry a name. -/
theorem Stable.importName_ne_empty (h : Stable t) {d : ElementId}
    (hd : Ancestor t t.root d) : t.importName d ≠ "" := by
  obtain ⟨e, he⟩ := Option.isSome_iff_exists.mp hd.isSome_get?
  have hname : (t.name? d).getD "" ≠ "" := by
    rw [name?, he]
    exact (h.fit d hd e he).1
  -- Whatever the namespace is called, an empty name is replaced by that of the
  -- declaration.
  have hchoice : ∀ qualified : String,
      (if qualified.isEmpty then (t.name? d).getD "" else qualified) ≠ "" := by
    intro qualified
    split
    · exact hname
    next hfull => exact fun hempty => hfull (String.isEmpty_iff.mpr hempty)
  exact hchoice _

/-- What is referred to is an attached declaration, and its import has a name;
    so none is refused. -/
theorem succeeds_importReferenced {ownNamespaceToo : Bool} (h : Stable t) :
    Edit.Succeeds (Edit.importReferenced ownNamespaceToo) t fun _ => Stable := by
  rw [Edit.importReferenced_eq]
  refine Edit.succeeds_crawl (fun s id _ hs ha => ?_) h
  have ha' : Attached s id := hs.toWellLinked.isAttached_iff.mp ha
  refine Edit.Succeeds.mono (Q := fun _ _ => True) ?_ fun _ s' hrun _ =>
    (hs.steps
      (steps_importOwn (K := fun _ => True) (n := 0) trivial trivial hs ha' hrun)).1
  refine Edit.succeeds_get_bind ?_
  split
  · exact Edit.succeeds_pure trivial
  next hclass =>
    obtain ⟨c, hc⟩ : ∃ c, s.class? id = some c := by
      cases hc : s.class? id with
      | none => rw [hc] at hclass; exact absurd rfl hclass
      | some c => exact ⟨c, rfl⟩
    dsimp only
    split
    · exact Edit.succeeds_pure trivial
    next hsome =>
      obtain ⟨e, he, hblock⟩ := exists_imports?_of_class? hc
      refine (Edit.succeeds_addImports
        (fun hnil => hsome (List.isEmpty_iff.mpr hnil)) ?_ he (by rw [hblock]; rfl)
        fun _ => trivial).discard
      intro i hi
      obtain ⟨d, hd, himport⟩ := List.mem_filterMap.mp hi
      -- What a class refers to is attached, so it has a name to be imported by.
      obtain ⟨x, ex, hx, hex, htarget⟩ :=
        exists_of_mem_referencedDeclarations hs.toWellLinked hd
      have hbelow :=
        ancestor_of_within_class hs.toWellLinked ha' (by rw [hc]; rfl) hx
      have hname := hs.importName_ne_empty
        (hs.ancestor_of_declaration ((hs.fit x hbelow ex hex).2 d htarget))
      rw [importOf?] at himport
      split at himport
      · cases himport
      · split at himport
        · cases himport
        · obtain ⟨name, -, rfl⟩ := Option.map_eq_some_iff.mp himport
          exact hname

/-- A path leads from every attached class to every attached declaration. -/
theorem Stable.exists_importPath (h : Stable t)
    {id d : ElementId} (hid : Attached t id) (hclass : (t.class? id).isSome)
    (hd : Attached t d ∧ t.isDeclaration d = true) :
    ∃ path, t.importPath id d = .ok path := by
  have hwl := h.toWellLinked
  obtain ⟨here, hhere⟩ :=
    hwl.exists_containingNamespace? (hid.resolve_left (hwl.ne_root_of_class hclass))
  have hbelow := h.ancestor_of_declaration hd
  obtain ⟨there, hthere⟩ := hwl.exists_containingNamespace? hbelow
  obtain ⟨e, he⟩ := Option.isSome_iff_exists.mp hbelow.isSome_get?
  have hkind : e.kind.isDeclaration = true := by
    have hdecl := hd.2
    rwa [isDeclaration, kind?, he] at hdecl
  refine ⟨ImportPath.relative (t.namespaceSegments here) (t.namespaceSegments there)
    e.name, ?_⟩
  rw [importPath, namespaceOf?, isSome_class?_iff.mp hclass]
  simp [hhere, he, hkind, hthere]

/-- Paths can be told wherever both ends sit in namespaces, which is so of what
    is attached. -/
theorem succeeds_resolveImportPaths (h : Stable t) :
    Edit.Succeeds Edit.resolveImportPaths t fun _ => Stable := by
  rw [Edit.resolveImportPaths_eq]
  refine Edit.succeeds_crawl (fun s id _ hs ha => ?_) h
  have ha' : Attached s id := hs.toWellLinked.isAttached_iff.mp ha
  refine Edit.Succeeds.mono (Q := fun _ _ => True) ?_ fun _ s' hrun _ =>
    (hs.steps (steps_resolveOwn (K := fun _ => True) (n := 0) trivial hrun)).1
  refine Edit.succeeds_get_bind ?_
  cases hc : s.class? id with
  | none => exact Edit.succeeds_pure trivial
  | some c =>
      have hclass : (s.class? id).isSome := by
        rw [hc]
        rfl
      have hbelow : Ancestor s s.root id :=
        ha'.resolve_left (hs.toWellLinked.ne_root_of_class hclass)
      obtain ⟨e, he, hblock⟩ := exists_imports?_of_class? hc
      have himports : e.imports = c.imports := by
        rw [Element.imports, hblock, Option.getD_some]
      -- Every bound import of an attached class is bound to something attached.
      obtain ⟨resolved, hresolved⟩ : ∃ resolved,
          c.imports.mapM (s.withImportPath id) = .ok resolved := by
        refine Edit.exists_mapM_eq_ok fun i hi => ?_
        rw [withImportPath]
        cases htarget : i.target? with
        | none => exact ⟨i, rfl⟩
        | some d =>
            have hd := (hs.fit id hbelow e he).2 d
              (Element.mem_targets_of_target? (himports ▸ hi) htarget)
            obtain ⟨path, hpath⟩ := hs.exists_importPath ha' hclass hd
            exact ⟨{ i with path := some path }, by simp only [hpath]⟩
      exact (Edit.succeeds_inspect (Q := fun _ _ => True) hresolved trivial).bind
          fun _ _ _ =>
        Edit.succeeds_modifyElement trivial

/-! ## Types that fit the target -/

/-- Corrections always succeed. -/
theorem succeeds_correctTypes {c : TypeCorrections} :
    Edit.Succeeds (Edit.correctTypes c) t fun _ _ => True := by
  refine Edit.succeeds_crawl (I := fun _ => True)
    (fun s id _ _ _ => Edit.succeeds_get_bind ?_) trivial
  exact Edit.succeeds_modifyElement trivial

theorem succeeds_makeEnumPropertiesNullable :
    Edit.Succeeds Edit.makeEnumPropertiesNullable t fun _ _ => True := by
  refine Edit.succeeds_crawl (I := fun _ => True)
    (fun s id _ _ _ => Edit.succeeds_get_bind ?_) trivial
  split
  · exact Edit.succeeds_modifyElement trivial
  · exact Edit.succeeds_pure trivial

end Tree

/-! ## Pipelines of passes that cannot fail -/

namespace Pass

/-- A pass is total if it succeeds on stable trees. -/
theorem total_of_succeeds {pass : Pass} {Q : Tree → Tree → Prop}
    (h : ∀ t, Stable t → Edit.Succeeds pass.apply t fun _ => Q t) : pass.Total := by
  intro t ht
  obtain ⟨_, t', hrun, -⟩ := h t ht
  exact ⟨t', hrun⟩

/-- Flattening is total, circles of inheritance or not. -/
theorem total_flattenInheritance : flattenInheritance.Total :=
  total_of_succeeds fun _ h => succeeds_flattenInheritance h.toWellLinked

/-- Escaping is, if no name vanishes. -/
theorem total_escapeReservedNames {reserved : ReservedNames} {style : EscapeStyle}
    (hstyle : ∀ name, name ≠ "" → style.apply name ≠ "") :
    (escapeReservedNames reserved style).Total :=
  total_of_succeeds fun _ h => succeeds_escapeReservedNames hstyle h

theorem total_importReferenced {ownNamespaceToo : Bool} :
    (importReferenced ownNamespaceToo).Total :=
  total_of_succeeds fun _ h => succeeds_importReferenced h

theorem total_addAsyncSuffix {suffix : String} : (addAsyncSuffix suffix).Total :=
  total_of_succeeds fun _ h => succeeds_addAsyncSuffix h.toWellLinked

theorem total_resolveImportPaths : resolveImportPaths.Total :=
  total_of_succeeds fun _ h => succeeds_resolveImportPaths h

theorem total_implementInModels {interface : String} {spec : ImportSpec}
    (hname : spec.moduleName ≠ "") : (implementInModels interface spec).Total :=
  total_of_succeeds fun _ _ => succeeds_implementInModels hname

theorem total_correctTypes {c : TypeCorrections} : (correctTypes c).Total :=
  total_of_succeeds fun _ _ => succeeds_correctTypes

theorem total_makeEnumPropertiesNullable : makeEnumPropertiesNullable.Total :=
  total_of_succeeds fun _ _ => succeeds_makeEnumPropertiesNullable

end Pass

namespace Pipeline

/-- Passes that cannot fail do not fail one after another. -/
theorem exists_run_forM (language : Language) {passes : List Pass}
    (hpasses : ∀ pass ∈ passes, pass.Total) {t : Tree} (h : Stable t) :
    ∃ t', (passes.forM (runPass language)).run t = .ok () t' := by
  induction passes generalizing t with
  | nil => exact ⟨t, rfl⟩
  | cons pass rest ih =>
      obtain ⟨s, hfirst⟩ := hpasses pass List.mem_cons_self t h
      obtain ⟨t', hrest⟩ := ih (fun p hp => hpasses p (List.mem_cons_of_mem _ hp))
        (pass.stable_apply h hfirst).1
      exact ⟨t', run_forM_cons_eq_ok_iff.mpr ⟨s, hfirst, hrest⟩⟩

end Pipeline

namespace Configuration

variable {c : Configuration} {t : Tree}

/-- The imports of the target have modules with names. -/
theorem ne_empty_of_mem_typescriptImports :
    ∀ d ∈ typescriptImports, d.spec.moduleName ≠ "" := by
  decide

/-- The passes for TypeScript after the one that lowers union types cannot
    fail. -/
theorem exists_typescriptPasses_eq (c : Configuration) :
    ∃ rest, c.typescriptPasses
      = .seedImports typescriptImports :: .wrapUnions .siblingClasses :: rest
      ∧ ∀ pass ∈ rest, pass.Total := by
  refine ⟨c.flattening
    ++ [.escapeReservedNames c.reservedNames (.suffix "_escaped"),
    .importReferenced true] ++ c.asyncSuffix ++ [.resolveImportPaths,
    .implementInModels "Parsable" (.ofSymbol typescriptAbstractions "Parsable"),
    .correctTypes typescriptCorrections, .makeEnumPropertiesNullable], rfl,
    fun pass hpass => ?_⟩
  have hsuffix : ∀ name : String, name ≠ "" →
      (EscapeStyle.suffix "_escaped").apply name ≠ "" :=
    fun name hname hempty => hname (String.append_eq_empty_iff.mp hempty).1
  simp only [flattening, asyncSuffix, List.mem_append, List.mem_cons,
    List.not_mem_nil, or_false] at hpass
  rcases hpass with ((hflatten | rfl | rfl) | hasync) | rfl | rfl | rfl | rfl
  · split at hflatten
    · rw [List.mem_singleton.mp hflatten]
      exact Pass.total_flattenInheritance
    · exact absurd hflatten List.not_mem_nil
  · exact Pass.total_escapeReservedNames hsuffix
  · exact Pass.total_importReferenced
  · split at hasync
    · exact absurd hasync List.not_mem_nil
    · rw [List.mem_singleton.mp hasync]
      exact Pass.total_addAsyncSuffix
  · exact Pass.total_resolveImportPaths
  · exact Pass.total_implementInModels (by decide)
  · exact Pass.total_correctTypes
  · exact Pass.total_makeEnumPropertiesNullable

/-- For TypeScript a model without union types is always refined, whatever
    inherits from what. -/
theorem exists_refine_typescript (hlanguage : c.language = .typescript)
    (hvalid : c.validate = .ok ()) (hwf : WellFormed t)
    (hbound : t.validateReferences = .ok ())
    (hfree : ∀ x r, Attached t x → t.valueType? x = some r → r.isUnion = false) :
    ∃ t', (refine c).run t = .ok () t' := by
  have h : Stable t :=
    stable_iff.mpr ⟨hwf, hwf.toWellLinked.validateReferences_iff.mp hbound⟩
  obtain ⟨rest, hpasses, htotal⟩ := c.exists_typescriptPasses_eq
  obtain ⟨_, t₁, hseed, -⟩ :=
    succeeds_seedImports t ne_empty_of_mem_typescriptImports
  -- No element is made before the pass that lowers union types comes, so it finds
  -- none.
  have hlowered : Lowered t.size t := fun x e he hx r hr =>
    hx.elim (fun hx => hfree x r hx (by rw [valueType?, he, Option.bind_some, hr]))
      fun hx => absurd (index_lt_of_get? he) (Nat.not_lt.mpr hx)
  have hsteps : Steps (fun _ => True) t.size t t₁ :=
    steps_seedImports trivial h (Nat.le_refl _) hseed
  have h₁ := (h.steps hsteps).1
  obtain ⟨_, t₂, hwrap, heq⟩ :=
    succeeds_wrapUnions .siblingClasses h₁.toWellLinked (hlowered.steps h hsteps)
  rw [heq] at hwrap
  obtain ⟨t', hrest⟩ := Pipeline.exists_run_forM .typescript htotal h₁
  refine ⟨t', ?_⟩
  have hplan : Pipeline.ofConfiguration c = ⟨.typescript, c.typescriptPasses⟩ := by
    rw [Pipeline.ofConfiguration, passes, hlanguage]
  rw [run_refine_eq hvalid, hplan, Pipeline.run_eq_ok_iff, hpasses,
    Pipeline.run_forM_cons_eq_ok_iff]
  exact ⟨hbound, t₁, hseed, Pipeline.run_forM_cons_eq_ok_iff.mpr ⟨t₁, hwrap, hrest⟩⟩

/-- A tree of two classes that inherit from each other, one with a property and
    a method whose names are reserved, the other with an indexer over the
    first. -/
def mutualHeirs : Tree :=
  Operation.runAll
    [.addNamespace ⟨0⟩ "api",
      .addNew .classes ⟨1⟩
        (.inheriting (.classDecl "Order" .model) (.declared "Item" ⟨3⟩)),
      .addNew .classes ⟨0⟩
        (.inheriting (.classDecl "Item" .model) (.declared "Order" ⟨2⟩)),
      .addNew .properties ⟨2⟩ (.property "type" .custom (.external "string")),
      .addNew .methods ⟨2⟩
        (.asynchronous (.method "delete" .requestExecutor (.declared "Item" ⟨3⟩))),
      .addNew .indexer ⟨3⟩
        (.indexer "item" (.external "string") (.declared "Order" ⟨2⟩))]
    initial

theorem wellFormed_mutualHeirs : WellFormed mutualHeirs :=
  (Operation.fullyNamed_runAll _ fullyNamed_initial).wellFormed

/-- Classes that inherit from each other are flattened, renamed and imported
    without a refusal. -/
theorem exists_refine_typescript_mutualHeirs :
    mutualHeirs.parentClass? ⟨2⟩ = some ⟨3⟩
      ∧ mutualHeirs.parentClass? ⟨3⟩ = some ⟨2⟩
      ∧ ∃ t', (refine { language := .typescript, flattenInheritance := some true,
                        nativeAsync := some false }).run mutualHeirs
          = .ok () t' := by
  refine ⟨by decide +kernel, by decide +kernel, ?_⟩
  have hvalues : ∀ x < mutualHeirs.size, ∀ r ∈ mutualHeirs.valueType? ⟨x⟩,
      r.isUnion = false := by
    decide +kernel
  refine exists_refine_typescript rfl rfl wellFormed_mutualHeirs (by decide +kernel)
    fun x r _ hr => ?_
  obtain ⟨e, he, -⟩ := Option.bind_eq_some_iff.mp hr
  exact hvalues x.index (index_lt_of_get? he) r hr

end Configuration

end CodeModel
