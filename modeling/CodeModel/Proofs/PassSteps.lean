import CodeModel.Proofs.EditRuns
import CodeModel.Proofs.Keeping
import CodeModel.Refine.DefaultConstructor
import CodeModel.Refine.ImportResolution
import CodeModel.Refine.Relocation
import CodeModel.Refine.Renaming
import CodeModel.Refine.Retyping

/-!
# Passes as steps

Every pass but the two that copy or make whole classes takes a tree to another
by steps: whenever it succeeds, what it did to each element is an amendment, a
renaming, a move or a reinsertion. What makes each of them a step is read off
the place where the pass does it.
-/

namespace CodeModel

namespace Edit

/-- What is done to one element when classes come to import what they refer to. -/
def importOwn (ownNamespaceToo : Bool) (id : ElementId) : Edit Unit := do
  let t ← get
  if (t.class? id).isNone then return
  let new :=
    (t.referencedDeclarations id).filterMap (t.importOf? ownNamespaceToo id)
  if new.isEmpty then return
  discard <| addImports id new

theorem importReferenced_eq (ownNamespaceToo : Bool) :
    importReferenced ownNamespaceToo = crawl (importOwn ownNamespaceToo) := rfl

/-- What is done to one element when imports of declarations get their paths. -/
def resolveOwn (id : ElementId) : Edit Unit := do
  match (← get).class? id with
  | none => return
  | some c =>
      let resolved ← inspect fun t => c.imports.mapM (t.withImportPath id)
      modifyElement id (Element.mapImports fun _ => resolved)

theorem resolveImportPaths_eq : resolveImportPaths = crawl resolveOwn := rfl

/-- What is done to a class that meets a namespace of its name. -/
def moveInto (holder target id : ElementId) : Edit Unit := do
  discard <| remove holder id
  add .classes target [id]
  discard <| rebindImports id

end Edit

namespace Tree

variable {t t' : Tree} {n : Nat} {K : StepKind → Prop}

/-- A successful addition of imports is an amendment if the new imports allow
    it. -/
theorem step_of_addImports {target : ElementId} {new : List Import} {k : Nat}
    (hk : K .amend) (hamended : ∀ e, t.get? target = some e → e.imports?.isSome →
      Amended t e (e.mapImports fun _ => Import.addImports e.imports new))
    (hnew : ∀ i ∈ new, ∀ d, i.target? = some d → K .link ∧ ¬ Within t target d)
    (h : (Edit.addImports target new).run t = .ok k t') : Step K n t t' := by
  obtain ⟨e, he, hblock, rfl⟩ := Edit.run_addImports_eq_ok h
  refine .amend (fun e' he' => ?_) hk (fun e' he' => ?_) fun e' he' => ?_
  · obtain rfl : e = e' := Option.some.inj (he.symm.trans he')
    exact hamended e he hblock
  · obtain rfl : e = e' := Option.some.inj (he.symm.trans he')
    exact Element.mended_addImports e new
  · obtain rfl : e = e' := Option.some.inj (he.symm.trans he')
    exact linksOutward_addImports hblock hnew

/-- Adding imports that a target asks for amends one element. -/
theorem step_of_addSpecs {target : ElementId} {new : List Import} {k : Nat}
    (hk : K .amend) (hnew : ∀ i ∈ new, ∃ s : ImportSpec, i = s.toImport)
    (h : (Edit.addImports target new).run t = .ok k t') : Step K n t t' := by
  refine step_of_addImports hk (fun _ _ he => amended_addSpecs he hnew)
    (fun i hi d hd => ?_) h
  obtain ⟨s, rfl⟩ := hnew i hi
  rw [ImportSpec.target?_toImport] at hd
  cases hd

/-- What every visit of an attached element of a stable tree does by steps, a
    traversal does by steps. -/
theorem steps_of_crawl {visit : ElementId → Edit Unit}
    (hvisit : ∀ t id t', Stable t → n ≤ t.size → Attached t id →
      (visit id).run t = .ok () t' → Steps K n t t') (h : Stable t)
    (hn : n ≤ t.size) {u : Unit} (hrun : (Edit.crawl visit).run t = .ok u t') :
    Steps K n t t' := by
  refine Edit.crawl_induction (I := fun s => Steps K n t s) ?_ .refl hrun
  intro s id s' hsteps hattached hvisited
  obtain ⟨hstable, hcarries⟩ := h.steps hsteps
  refine hsteps.trans (hvisit s id s' hstable (Nat.le_trans hn hcarries.size_le)
    ?_ hvisited)
  exact hstable.toWellLinked.isAttached_iff.mp hattached

/-- What every visit makes of the element that it visits, and steps keep of
    every attached element, holds after a traversal of everything that was below
    the root when it began. -/
theorem settled_of_crawlWith {σ : Type} {visit : σ → ElementId → Edit σ}
    {J : σ → Tree → Prop} {P : ElementId → Tree → Prop}
    (hvisit : ∀ a s id a' s', Stable s → Attached s id → J a s →
      (visit a id).run s = .ok a' s' → Steps K s.size s s' ∧ J a' s' ∧ P id s')
    (hkeep : ∀ s s' x, Stable s → Attached s x → Steps K s.size s s' → P x s →
      P x s') (h : Stable t) {a a' : σ} (hJ : J a t)
    (hrun : (Edit.crawlWith a visit).run t = .ok a' t') :
    ∀ x ∈ t.descendants t.root, P x t' := by
  have hattached : ∀ {s x}, Carries t s → x ∈ t.descendants t.root → Attached s x :=
    fun hc hx =>
      hc.attached (Or.inr (h.toWellLinked.mem_descendants_iff.mp hx))
  -- What has been visited is attached, so the visits after it keep what its own has
  -- made of it.
  have hdone := Edit.crawlWith_done_induction
    (I := fun done a s => Stable s ∧ Carries t s ∧ J a s ∧ ∀ x ∈ done, P x s)
    (fun done a s id hI hid =>
      hI.1.toWellLinked.isAttached_iff.mpr (hattached hI.2.1 hid))
    (fun done id rest a s a' s' hitems => by
      rintro ⟨hs, hc, hJ, hP⟩ hone
      have hmem : ∀ x ∈ done ++ [id], x ∈ t.descendants t.root := by
        intro x hx
        rw [hitems, List.append_cons]
        exact List.mem_append_left _ hx
      have hid := hattached hc
        (hmem id (List.mem_append_right _ (List.mem_singleton_self id)))
      obtain ⟨hsteps, hJ', hP'⟩ := hvisit a s id a' s' hs hid hJ hone
      obtain ⟨hs', hc'⟩ := hs.steps hsteps
      refine ⟨hs', hc.trans hc', hJ', fun x hx => ?_⟩
      rcases List.mem_append.mp hx with hold | hnew
      · exact hkeep s s' x hs (hattached hc (hmem x hx)) hsteps (hP x hold)
      · rw [List.mem_singleton.mp hnew]
        exact hP')
    ⟨h, Carries.refl t, hJ, fun x hx => absurd hx List.not_mem_nil⟩ hrun
  exact hdone.2.2.2

/-! ## Imports that a target always needs -/

/-- The pass is a sequence of amendments, one for each class that has imports of
    its kind. -/
theorem steps_seedImports {defaults : List DefaultImport} (hk : K .amend)
    (h : Stable t) (hn : n ≤ t.size) {u : Unit}
    (hrun : (Edit.seedImports defaults).run t = .ok u t') : Steps K n t t' := by
  refine steps_of_crawl ?_ h hn hrun
  intro t id t' _ _ _ hrun
  rw [Edit.run_get_bind] at hrun
  cases hc : t.class? id with
  | none =>
      rw [hc] at hrun
      exact (Edit.run_pure_eq_ok_iff.mp hrun).2 ▸ .refl
  | some c =>
      rw [hc] at hrun
      dsimp only at hrun
      split at hrun
      · exact (Edit.run_pure_eq_ok_iff.mp hrun).2 ▸ .refl
      · obtain ⟨k, hadd⟩ := Edit.run_discard_eq_ok_iff.mp hrun
        refine .single (step_of_addSpecs hk (fun i hi => ?_) hadd)
        obtain ⟨d, -, rfl⟩ := List.mem_map.mp hi
        exact ⟨d.spec, rfl⟩

/-- Each model is amended twice, by the interface and by its import. -/
theorem steps_implementInModels {interface : String} {spec : ImportSpec}
    (hk : K .amend) (h : Stable t) (hn : n ≤ t.size) {u : Unit}
    (hrun : (Edit.implementInModels interface spec).run t = .ok u t') :
    Steps K n t t' := by
  refine steps_of_crawl ?_ h hn hrun
  intro t id t' _ _ _ hrun
  rw [Edit.run_get_bind] at hrun
  split at hrun
  · exact (Edit.run_pure_eq_ok_iff.mp hrun).2 ▸ .refl
  · obtain ⟨_, t₁, hmodify, hrest⟩ := Edit.run_bind_eq_ok_iff.mp hrun
    obtain ⟨k, hadd⟩ := Edit.run_discard_eq_ok_iff.mp hrest
    rw [Edit.run_modifyElement_eq_ok_iff] at hmodify
    have hfirst : Step K n t t₁ := by
      rw [← hmodify]
      refine .amend
        (fun e _ => amended_of_eq (Element.frame_addInterface _ e) (fun d hd => ?_)
        (Element.imports_addInterface _ e) (Element.holds_addInterface _ e)) hk
        (fun e _ => Element.mended_addInterface interface e)
        fun e _ => linksOutward_of_eq (Element.imports_addInterface _ e)
      rw [Element.targets_addInterface] at hd
      exact Or.inl hd
    refine (Relation.ReflTransGen.single hfirst).tail
      (step_of_addSpecs hk (fun i hi => ?_) hadd)
    exact ⟨spec, List.mem_singleton.mp hi⟩

/-! ## Types that fit the target -/

/-- Modifying some elements by what amends every one of them is a sequence of
    amendments. -/
theorem steps_modifyAll {ids : List ElementId} {f : Element → Element}
    (hk : K .amend) (hf : ∀ s e, Stable s → Amended s e (f e))
    (hmended : ∀ e, Element.Mended e (f e))
    (himports : ∀ e, (f e).imports = e.imports) (h : Stable t) {u : Unit}
    (hrun : (ids.forM fun id => Edit.modifyElement id f).run t = .ok u t') :
    Steps K n t t' := by
  refine Edit.forM_induction (I := fun s => Steps K n t s) ?_ .refl hrun
  intro s id s' _ hsteps hmodify
  rw [Edit.run_modifyElement_eq_ok_iff] at hmodify
  rw [← hmodify]
  exact hsteps.tail (.amend (fun e _ => hf s e (h.steps hsteps).1) hk
    (fun e _ => hmended e) fun e _ => linksOutward_of_eq (himports e))

/-- Types that a member answers for are amended one after another, and then the
    imports of its owner. -/
theorem steps_replaceBinary {typeName : String} {spec : ImportSpec} (hk : K .amend)
    (h : Stable t) (hn : n ≤ t.size) {u : Unit}
    (hrun : (Edit.replaceBinary typeName spec).run t = .ok u t') :
    Steps K n t t' := by
  refine steps_of_crawl ?_ h hn hrun
  intro t id t' hstable _ _ hrun
  rw [Edit.run_get_bind] at hrun
  obtain ⟨_, t₁, hmodify, hrest⟩ := Edit.run_bind_eq_ok_iff.mp hrun
  have hfirst : Steps K n t t₁ := by
    refine steps_modifyAll hk
      (fun s e _ => ?_) (Element.mended_mapValueType_rename _)
      (Element.imports_mapValueType _) hstable hmodify
    refine amended_of_eq (Element.frame_mapValueType _ e) (fun d hd => Or.inl ?_)
      (Element.imports_mapValueType _ e)
        (Element.holds_mapValueType (TypeRef.alike_rename _) e)
    exact Element.targets_mapValueType_rename _ e ▸ hd
  cases hp : t.parent? id with
  | none =>
      rw [hp] at hrest
      exact (Edit.run_pure_eq_ok_iff.mp hrest).2 ▸ hfirst
  | some owner =>
      rw [hp] at hrest
      dsimp only at hrest
      split at hrest
      · obtain ⟨k, hadd⟩ := Edit.run_discard_eq_ok_iff.mp hrest
        refine hfirst.tail (step_of_addSpecs hk (fun i hi => ?_) hadd)
        exact ⟨spec, List.mem_singleton.mp hi⟩
      · exact (Edit.run_pure_eq_ok_iff.mp hrest).2 ▸ hfirst

/-- Properties of enum types are amended one by one. -/
theorem steps_makeEnumPropertiesNullable (hk : K .amend)
    (h : Stable t) (hn : n ≤ t.size) {u : Unit}
    (hrun : Edit.makeEnumPropertiesNullable.run t = .ok u t') : Steps K n t t' := by
  refine steps_of_crawl ?_ h hn hrun
  intro t id t' _ _ _ hrun
  rw [Edit.run_get_bind] at hrun
  split at hrun
  · rw [Edit.run_modifyElement_eq_ok_iff] at hrun
    rw [← hrun]
    refine .single (.amend (fun e _ => amended_of_eq (Element.frame_mapProperty _ e)
      (fun d hd => Or.inl ?_) (Element.imports_mapProperty _ e)
      (Element.holds_makeNullable e)) hk (fun e _ => Element.mended_makeNullable e)
      fun e _ => linksOutward_of_eq (Element.imports_mapProperty _ e))
    rwa [Element.targets_makeNullable] at hd
  · exact (Edit.run_pure_eq_ok_iff.mp hrun).2 ▸ .refl

theorem steps_correctTypes {c : TypeCorrections} (hk : K .amend) (h : Stable t)
    (hn : n ≤ t.size) {u : Unit} (hrun : (Edit.correctTypes c).run t = .ok u t') :
    Steps K n t t' := by
  refine steps_of_crawl ?_ h hn hrun
  intro t id t' _ _ _ hrun
  rw [Edit.run_get_bind, Edit.run_modifyElement_eq_ok_iff] at hrun
  rw [← hrun]
  refine .single (.amend (fun e _ => amended_of_eq ?_ (fun d hd => Or.inl ?_) ?_
    (Element.holds_correct c _ e)) hk (fun e _ => c.mended_correct _ e) fun e _ =>
    linksOutward_of_eq (c.imports_correct _ e))
  · exact Element.frame_mapContent (c.kind_correct _) (c.token?_correct _) e
  · exact c.targets_correct_subset _ e hd
  · exact c.imports_correct _ e

/-! ## Names that fit the target -/

/-- A name for something that has none on the wire is a renaming alone. -/
theorem step_of_setName {id : ElementId} {name : String} (hk : K .rename)
    (hwire : ∀ e, t.get? id = some e → e.wireSlot? = none) {u : Unit}
    (hrun : (Edit.setName id name).run t = .ok u t') : Step K n t t' := by
  obtain ⟨hname, hroot, -, rfl⟩ := Edit.run_setName_eq_ok hrun
  have hstep : Step K n t ((t.rename id name).modify id fun e => e) :=
    .rename hname hroot Element.trimmed_refl hk fun e he =>
      Element.notesWireName_of_none (hwire e he)
  rwa [modify_self] at hstep

/-- Only methods are renamed, which have no name on the wire. -/
theorem steps_addAsyncSuffix {suffix : String} (hk : K .rename)
    (h : Stable t) (hn : n ≤ t.size) {u : Unit}
    (hrun : (Edit.addAsyncSuffix suffix).run t = .ok u t') : Steps K n t t' := by
  refine steps_of_crawl ?_ h hn hrun
  intro t id t' _ _ _ hrun
  rw [Edit.run_get_bind] at hrun
  split at hrun
  · exact (Edit.run_pure_eq_ok_iff.mp hrun).2 ▸ .refl
  next name hname =>
    refine .single (step_of_setName hk (fun e he => ?_) hrun)
    rw [unsuffixedAsync?, he] at hname
    dsimp only at hname
    split at hname
    next hasync =>
      -- Methods have no name on the wire.
      have hkind : e.kind = .method := by
        unfold Element.method? at hasync
        unfold Element.kind
        cases hc : e.content <;> simp_all [Content.kind]
      exact Element.wireSlot?_eq_none_of_kind (by rw [hkind]; decide)
        (by rw [hkind]; decide)
    · cases hname

/-- Only namespaces are renamed, which have none either. -/
theorem steps_capitalizeNamespaces (hk : K .rename) (h : Stable t) (hn : n ≤ t.size)
    {u : Unit} (hrun : Edit.capitalizeNamespaces.run t = .ok u t') :
    Steps K n t t' := by
  refine steps_of_crawl ?_ h hn hrun
  intro t id t' _ _ _ hrun
  obtain ⟨e, t₁, helement, hrest⟩ := Edit.run_bind_eq_ok_iff.mp hrun
  obtain ⟨he, rfl⟩ := Edit.run_element_eq_ok_iff.mp helement
  split at hrest
  next hnamespace =>
    refine .single (step_of_setName hk (fun e' he' => ?_) hrest)
    obtain rfl : e = e' := Option.some.inj (he.symm.trans he')
    exact Element.wireSlot?_eq_none_of_kind (by rw [hnamespace.1]; decide)
      (by rw [hnamespace.1]; decide)
  · exact (Edit.run_pure_eq_ok_iff.mp hrest).2 ▸ .refl

/-- A class or a property notes its name on the wire and is renamed then, which
    is one step. -/
theorem steps_escapeReservedNames {reserved : ReservedNames} {style : EscapeStyle}
    (hk : K .rename) (h : Stable t) (hn : n ≤ t.size) {u : Unit}
    (hrun : (Edit.escapeReservedNames reserved style).run t = .ok u t') :
    Steps K n t t' := by
  refine steps_of_crawl ?_ h hn hrun
  intro t id t' _ _ _ hrun
  obtain ⟨e, t₁, helement, hrest⟩ := Edit.run_bind_eq_ok_iff.mp hrun
  obtain ⟨he, rfl⟩ := Edit.run_element_eq_ok_iff.mp helement
  split at hrest
  · obtain ⟨_, t₂, hset, hkeep⟩ := Edit.run_bind_eq_ok_iff.mp hrest
    obtain ⟨hname, hroot, -, rfl⟩ := Edit.run_setName_eq_ok hset
    rw [Edit.run_modifyElement_eq_ok_iff] at hkeep
    rw [← hkeep]
    refine .single (.rename hname hroot (Element.trimmed_keepWireName e.name) hk
      fun e' he' => ?_)
    obtain rfl : e = e' := Option.some.inj (he.symm.trans he')
    exact Element.notesWireName_keepWireName e
  · exact (Edit.run_pure_eq_ok_iff.mp hrest).2 ▸ .refl

/-- A class that is told from a property has it taken out, renamed and put back;
    anything else is left. -/
theorem run_disambiguateProperty_eq_ok {suffix : String} {id : ElementId}
    (hwl : WellLinked t) {u : Unit}
    (hrun : (Edit.disambiguateProperty suffix id).run t = .ok u t') :
    (t' = t ∧ (t.kind? id = some .classDecl → t.namesakeProperty? id = none))
      ∨ ∃ name property s, t.kind? id = some .classDecl
        ∧ t.namesakeProperty? id = some property
        ∧ t.name? id = some name ∧ name ++ suffix ≠ ""
        ∧ s = ((t.detach id property).2.modify property
          (Element.keepWireName name)).rename property
            (name ++ suffix)
        ∧ Insertable s .properties id [property] ∧ t' = s.attach id [property] := by
  rw [Edit.disambiguateProperty, Edit.run_get_bind] at hrun
  obtain ⟨e, t₁, helement, hrest⟩ := Edit.run_bind_eq_ok_iff.mp hrun
  obtain ⟨he, rfl⟩ := Edit.run_element_eq_ok_iff.mp helement
  have hkind : t.kind? id = some e.kind := kind?_eq_some_iff.mpr ⟨e, he, rfl⟩
  split at hrest
  next hne =>
    refine Or.inl ⟨(Edit.run_pure_eq_ok_iff.mp hrest).2.symm,
      fun hclass => absurd ?_ hne⟩
    exact Option.some.inj (hkind.symm.trans hclass)
  next hclass =>
    rw [Decidable.not_not.mp hclass] at hkind
    cases hp : t.namesakeProperty? id with
    | none =>
        rw [hp] at hrest
        exact Or.inl ⟨(Edit.run_pure_eq_ok_iff.mp hrest).2.symm, fun _ => rfl⟩
    | some property =>
        rw [hp] at hrest
        have hc : property ∈ t.children id :=
          (List.mem_filter.mp (List.mem_of_find?_eq_some hp)).1
        obtain ⟨_, t₁, hremove, hrest⟩ := Edit.run_bind_eq_ok_iff.mp hrest
        obtain ⟨_, t₂, hkeep, hrest⟩ := Edit.run_bind_eq_ok_iff.mp hrest
        obtain ⟨_, t₃, hset, hadd⟩ := Edit.run_bind_eq_ok_iff.mp hrest
        obtain ⟨_, hremove⟩ := Edit.run_discard_eq_ok_iff.mp hremove
        obtain rfl := Edit.run_remove_eq_ok hremove
        rw [Edit.run_modifyElement_eq_ok_iff] at hkeep
        subst hkeep
        obtain ⟨hname, -, -, rfl⟩ := Edit.run_setName_eq_ok hset
        -- A wire name is no part of a frame, so the links are those of the tree
        -- without the property.
        have hframes : SameFrames _ _ :=
          sameFrames_modify (t.detach id property).2 property fun x =>
            (Element.trimmed_keepWireName e.name x).frame_eq
        have hwl₃ :=
          (hframes.wellLinked (hwl.detach hc)).rename property (e.name ++ suffix)
        obtain ⟨hinsertable, rfl⟩ :=
          insertable_of_insert hwl₃ (Edit.run_add_eq_ok_iff.mp hadd)
        have hid : t.name? id = some e.name := by
          rw [name?, he]
          rfl
        exact Or.inr ⟨e.name, property, _, hkind, rfl, hid, hname, rfl,
          hinsertable, rfl⟩

/-- A child that an attached element holds may be taken out, renamed and put
    back. -/
theorem steps_disambiguateProperty {suffix : String} {id : ElementId}
    (hk : K .reinsert) (h : Stable t) (ha : Attached t id) {u : Unit}
    (hrun : (Edit.disambiguateProperty suffix id).run t = .ok u t') :
    Steps K n t t' := by
  rcases run_disambiguateProperty_eq_ok h.toWellLinked hrun with
    ⟨rfl, -⟩ | ⟨name, property, s, -, hp, hid, hname, rfl, hinsertable, rfl⟩
  · exact .refl
  · obtain ⟨hc, hkind⟩ := List.mem_filter.mp (List.mem_of_find?_eq_some hp)
    refine .single (.reinsert hc (of_decide_eq_true hkind) ha hname
      (Element.trimmed_keepWireName name) hinsertable hk fun e he => ?_)
    -- The property bears the name of the class, so that is what it is known by on
    -- the wire.
    rw [namesakeProperty?] at hp
    have hsame : t.name? property = t.name? id := by simpa using List.find?_some hp
    rw [hid, name?, he] at hsame
    obtain rfl : e.name = name := Option.some.inj hsame
    exact Element.notesWireName_keepWireName e

/-- Properties are taken out and put back class by class. -/
theorem steps_disambiguateProperties {suffix : String} (hk : K .reinsert)
    (h : Stable t) (hn : n ≤ t.size) {u : Unit}
    (hrun : (Edit.disambiguateProperties suffix).run t = .ok u t') :
    Steps K n t t' :=
  steps_of_crawl (fun _ _ _ hstable _ ha hvisit =>
    steps_disambiguateProperty hk hstable ha hvisit) h hn hrun

/-! ## Imports of declarations -/

/-- What a class refers to in its header and its members is referred to by
    elements at or below it. -/
theorem exists_of_mem_referencedDeclarations {id d : ElementId} (hwl : WellLinked t)
    (h : d ∈ t.referencedDeclarations id) :
    ∃ x e, Within t id x ∧ t.get? x = some e ∧ d ∈ e.targets := by
  rw [referencedDeclarations, List.mem_eraseDups] at h
  obtain ⟨s, hs, hdef⟩ := List.mem_filterMap.mp h
  obtain ⟨r, hr, hs⟩ := List.mem_flatMap.mp hs
  have hd : d ∈ r.definitions := List.mem_filterMap.mpr ⟨s, hs, hdef⟩
  have hvalue : ∀ {x r}, t.valueType? x = some r → d ∈ r.definitions →
      ∃ e, t.get? x = some e ∧ d ∈ e.targets := by
    intro x r hv hd
    obtain ⟨e, he, hv⟩ := Option.bind_eq_some_iff.mp hv
    exact ⟨e, he,
      Element.mem_targets_iff.mpr ⟨r, Element.mem_typeSlots_of_valueType? hv, hd⟩⟩
  rcases List.mem_append.mp hr with hr | hr
  · -- The header.
    rw [headerTypes] at hr
    cases hc : t.class? id with
    | none => rw [hc] at hr; exact absurd hr List.not_mem_nil
    | some c =>
        rw [hc] at hr
        obtain ⟨e, he, hclass⟩ := Option.bind_eq_some_iff.mp hc
        refine ⟨id, e, Or.inl rfl, he, Element.mem_targets_iff.mpr ⟨r, ?_, hd⟩⟩
        rw [Element.typeSlots, Element.class?_eq_some_iff.mp hclass]
        exact List.mem_append_left _ hr
  · -- The members, and the parameters of methods.
    obtain ⟨m, hm, hr⟩ := List.mem_flatMap.mp hr
    have hmember : Ancestor t id m := .parent ((hwl.mem_children_iff id m).mp hm)
    rw [memberTypes] at hr
    cases he : t.get? m with
    | none => rw [he] at hr; exact absurd hr List.not_mem_nil
    | some e =>
        rw [he] at hr
        dsimp only at hr
        have hself : r ∈ e.typeSlots → ∃ x e, Within t id x ∧ t.get? x = some e
            ∧ d ∈ e.targets := fun hslot =>
          ⟨m, e, Or.inr hmember, he, Element.mem_targets_iff.mpr ⟨r, hslot, hd⟩⟩
        cases hcontent : e.content <;> rw [hcontent] at hr <;> dsimp only at hr
        case classDecl => exact absurd hr List.not_mem_nil
        case indexer i =>
          refine hself ?_
          rw [Element.typeSlots, hcontent]
          exact hr
        case method decl =>
          rcases List.mem_cons.mp hr with rfl | hr
          · refine hself ?_
            rw [Element.typeSlots, hcontent]
            exact List.mem_singleton_self _
          · obtain ⟨p, hp, hv⟩ := List.mem_filterMap.mp hr
            obtain ⟨ep, hep, hdp⟩ := hvalue hv hd
            refine ⟨p, ep, Or.inr (hmember.trans (.parent ?_)), hep, hdp⟩
            exact (hwl.mem_children_iff m p).mp
              (mem_children_iff_exists.mpr ⟨e, he, hp⟩)
        all_goals
          exact hself
            (Element.mem_typeSlots_of_valueType? (Option.mem_toList.mp hr))

/-- What is at or below an attached class is below the root. -/
theorem ancestor_of_within_class {id x : ElementId} (hwl : WellLinked t)
    (ha : Attached t id) (hclass : (t.class? id).isSome) (hx : Within t id x) :
    Ancestor t t.root x := by
  have hid : Ancestor t t.root id := ha.resolve_left (hwl.ne_root_of_class hclass)
  rcases hx with rfl | hx
  · exact hid
  · exact hid.trans hx

/-- A class is given imports of what it refers to; anything else, and a class
    with nothing to import, is left. -/
theorem run_importOwn_eq_ok {ownNamespaceToo : Bool} {id : ElementId} {u : Unit}
    (hrun : (Edit.importOwn ownNamespaceToo id).run t = .ok u t') :
    (t' = t ∧ ((t.class? id).isSome →
        (t.referencedDeclarations id).filterMap
          (t.importOf? ownNamespaceToo id) = []))
      ∨ (t.class? id).isSome
        ∧ ∃ k, (Edit.addImports id ((t.referencedDeclarations id).filterMap
          (t.importOf? ownNamespaceToo id))).run t = .ok k t' := by
  rw [Edit.importOwn, Edit.run_get_bind] at hrun
  split at hrun
  next hnone =>
    refine Or.inl ⟨(Edit.run_pure_eq_ok_iff.mp hrun).2.symm, fun hsome => ?_⟩
    rw [Option.isNone_iff_eq_none.mp hnone] at hsome
    cases hsome
  next hclass =>
    dsimp only at hrun
    split at hrun
    next hempty =>
      exact Or.inl ⟨(Edit.run_pure_eq_ok_iff.mp hrun).2.symm, fun _ =>
        List.isEmpty_iff.mp hempty⟩
    · refine Or.inr ⟨?_, Edit.run_discard_eq_ok_iff.mp hrun⟩
      cases hc : t.class? id with
      | none => rw [hc] at hclass; exact absurd rfl hclass
      | some c => rfl

/-- One element comes to import what it refers to: the new imports are of
    attached declarations that do not lie within it. -/
theorem steps_importOwn {ownNamespaceToo : Bool} {id : ElementId} (hk : K .amend)
    (hk' : K .link) (h : Stable t) (ha : Attached t id) {u : Unit}
    (hrun : (Edit.importOwn ownNamespaceToo id).run t = .ok u t') :
    Steps K n t t' := by
  rcases run_importOwn_eq_ok hrun with ⟨rfl, -⟩ | ⟨hclass, k, hadd⟩
  · exact .refl
  · -- Every new import names a declaration that something below the class refers
    -- to.
    have hnew : ∀ i ∈
          (t.referencedDeclarations id).filterMap (t.importOf? ownNamespaceToo id),
        ∃ name d, i = .ofSymbol (t.importName d) (.declared name d)
          ∧ (Attached t d ∧ t.isDeclaration d = true) ∧ ¬ Within t id d := by
      intro i hi
      obtain ⟨d, hd, himport⟩ := List.mem_filterMap.mp hi
      rw [importOf?] at himport
      split at himport
      · cases himport
      next hout =>
        rw [h.toWellLinked.isWithin_iff] at hout
        split at himport
        · cases himport
        · obtain ⟨name, -, rfl⟩ := Option.map_eq_some_iff.mp himport
          obtain ⟨x, e, hx, he, htarget⟩ :=
            exists_of_mem_referencedDeclarations h.toWellLinked hd
          have hbelow := ancestor_of_within_class h.toWellLinked ha hclass hx
          exact ⟨name, d, rfl, (h.fit x hbelow e he).2 d htarget, hout⟩
    refine .single
      (step_of_addImports hk (fun e _ he => amended_addImports he ?_ ?_) ?_ hadd)
    · intro i hi r hr d hd
      obtain ⟨name, d', rfl, hbound, -⟩ := hnew i hi
      obtain rfl := Option.some.inj hr
      rw [TypeRef.definitions_declared, List.mem_singleton] at hd
      exact hd ▸ hbound
    · intro i hi d hd
      obtain ⟨name, d', rfl, -⟩ := hnew i hi
      obtain rfl : d' = d := Option.some.inj hd
      rfl
    · intro i hi d hd
      obtain ⟨name, d', rfl, -, hout⟩ := hnew i hi
      obtain rfl : d' = d := Option.some.inj hd
      exact ⟨hk', hout⟩

/-- Every class and namespace does so in its turn. -/
theorem steps_importReferenced {ownNamespaceToo : Bool} (hk : K .amend)
    (hk' : K .link) (h : Stable t) (hn : n ≤ t.size) {u : Unit}
    (hrun : (Edit.importReferenced ownNamespaceToo).run t = .ok u t') :
    Steps K n t t' := by
  rw [Edit.importReferenced_eq] at hrun
  exact steps_of_crawl (fun t id t' hstable _ ha hvisit =>
    steps_importOwn hk hk' hstable ha hvisit) h hn hrun

/-- A path says nothing of what is imported. -/
theorem withImportPath_eq {id : ElementId} {i j : Import}
    (h : t.withImportPath id i = .ok j) : j.key = i.key ∧ j.symbol = i.symbol := by
  rw [withImportPath] at h
  cases ht : i.target? with
  | none =>
      rw [ht] at h
      rw [Except.ok.inj h]
      exact ⟨rfl, rfl⟩
  | some target =>
      rw [ht] at h
      dsimp only at h
      split at h
      · rw [← Except.ok.inj h]
        exact ⟨rfl, rfl⟩
      · cases h

/-- Paths change neither what an import brings in nor its symbol. -/
theorem mapM_withImportPath_eq {id : ElementId} {block resolved : List Import}
    (h : block.mapM (t.withImportPath id) = .ok resolved) :
    resolved.map Import.key = block.map Import.key
      ∧ resolved.map (·.symbol) = block.map (·.symbol) := by
  induction block generalizing resolved with
  | nil =>
      obtain rfl : [] = resolved := Except.ok.inj h
      exact ⟨rfl, rfl⟩
  | cons i rest ih =>
      rw [List.mapM_cons] at h
      cases hi : t.withImportPath id i with
      | error e => rw [hi] at h; cases h
      | ok j =>
          rw [hi] at h
          cases hr : rest.mapM (t.withImportPath id) with
          | error e => rw [hr] at h; cases h
          | ok js =>
              rw [hr] at h
              obtain rfl : j :: js = resolved := Except.ok.inj h
              obtain ⟨hkey, hsymbol⟩ := withImportPath_eq hi
              obtain ⟨hkeys, hsymbols⟩ := ih hr
              simp only [List.map_cons, hkey, hsymbol, hkeys, hsymbols, and_self]

/-- Giving one block its paths amends one element. -/
theorem steps_resolveOwn {id : ElementId} (hk : K .amend) {u : Unit}
    (hrun : (Edit.resolveOwn id).run t = .ok u t') : Steps K n t t' := by
  rw [Edit.resolveOwn, Edit.run_get_bind] at hrun
  cases hc : t.class? id with
  | none =>
      rw [hc] at hrun
      exact (Edit.run_pure_eq_ok_iff.mp hrun).2 ▸ .refl
  | some c =>
      rw [hc] at hrun
      obtain ⟨resolved, t₁, hresolve, hmodify⟩ := Edit.run_bind_eq_ok_iff.mp hrun
      obtain ⟨hok, rfl⟩ := Edit.run_inspect_eq_ok_iff.mp hresolve
      rw [Edit.run_modifyElement_eq_ok_iff] at hmodify
      rw [← hmodify]
      obtain ⟨hkeys, hsymbols⟩ := mapM_withImportPath_eq hok
      obtain ⟨e', he', hclass⟩ := Option.bind_eq_some_iff.mp hc
      -- The pass read the block of this very class, so it is the one that is put
      -- back.
      have hblock : e'.imports? = some c.imports := by
        rw [Element.imports?, Element.class?_eq_some_iff.mp hclass]
      have himports : e'.imports = c.imports := by
        rw [Element.imports, hblock]
        rfl
      have hresolved : (e'.mapImports fun _ => resolved).imports = resolved := by
        rw [Element.imports_mapImports, hblock]
        rfl
      refine .single (.amend (fun e he => ?_) hk (fun e he => ?_) fun e he => ?_)
      · obtain rfl : e' = e := Option.some.inj (he'.symm.trans he)
        exact
          { frame_eq := Element.frame_mapImports _ e'
            targets_bound := fun d hd => by
              rw [Element.targets_mapImports_eq] at hd
              · exact Or.inl hd
              · have hid := congrArg (List.filterMap fun s => s) hsymbols
                rw [List.filterMap_map, List.filterMap_map] at hid
                rw [himports]
                exact hid
            imports_named := fun i hi => by
              rw [hresolved] at hi
              have hmem : i.key ∈ c.imports.map Import.key :=
                hkeys ▸ List.mem_map_of_mem hi
              obtain ⟨j, hj, hkey⟩ := List.mem_map.mp hmem
              exact Or.inl ⟨j, himports ▸ hj, hkey⟩
            distinct := fun hd => by
              rw [hresolved, Import.distinct_iff_nodup_keys, hkeys, ← himports,
                ← Import.distinct_iff_nodup_keys]
              exact hd
            holds := Element.holds_mapImports _ e' }
      · obtain rfl : e' = e := Option.some.inj (he'.symm.trans he)
        refine ⟨Element.wireSlot?_mapImports _ e', fun d hd => ?_, fun i hi => ?_⟩
        · rw [Element.ownTargets, Element.ownTypes_mapImports] at hd
          exact hd
        · rw [himports] at hi
          have hmem : i.key ∈ resolved.map Import.key :=
            hkeys ▸ List.mem_map_of_mem hi
          obtain ⟨j, hj, hkey⟩ := List.mem_map.mp hmem
          rw [← hresolved] at hj
          exact ⟨j, hj, hkey⟩
      · obtain rfl : e' = e := Option.some.inj (he'.symm.trans he)
        rintro d ⟨i, hi, htarget⟩
        rw [hresolved] at hi
        have hmem : i.key ∈ c.imports.map Import.key :=
          hkeys ▸ List.mem_map_of_mem hi
        obtain ⟨j, hj, hkey⟩ := List.mem_map.mp hmem
        exact Or.inl ⟨j, himports ▸ hj,
          (Import.target?_eq_of_key_eq hkey).1.trans htarget⟩

theorem steps_resolveImportPaths (hk : K .amend) (h : Stable t) (hn : n ≤ t.size)
    {u : Unit} (hrun : Edit.resolveImportPaths.run t = .ok u t') :
    Steps K n t t' := by
  rw [Edit.resolveImportPaths_eq] at hrun
  exact steps_of_crawl
    (fun _ _ _ _ _ _ hvisit => steps_resolveOwn hk hvisit) h hn hrun

/-! ## Moving classes -/

/-- A class meets a namespace of its name beside it when a namespace holds the
    two of them. -/
theorem clashingNamespace?_eq_some_iff {id holder target : ElementId} :
    t.clashingNamespace? id = some (holder, target) ↔
      t.kind? id = some .classDecl ∧ t.parent? id = some holder
        ∧ t.isNamespace holder = true
        ∧ t.namesakeNamespace? holder id = some target := by
  rw [clashingNamespace?, Option.ite_none_right_eq_some]
  refine and_congr_right fun _ => ?_
  cases hp : t.parent? id with
  | none => simp
  | some p =>
      dsimp only
      rw [Option.ite_none_right_eq_some]
      constructor
      · rintro ⟨hfrom, hnamesake⟩
        obtain ⟨ns, hns, heq⟩ := Option.map_eq_some_iff.mp hnamesake
        obtain ⟨rfl, rfl⟩ := Prod.mk.inj heq
        exact ⟨rfl, hfrom, hns⟩
      · rintro ⟨heq, hfrom, hnamesake⟩
        obtain rfl := Option.some.inj heq
        exact ⟨hfrom, by rw [hnamesake]; rfl⟩

/-- A namesake is a namespace beside the class, of the same name in lower
    case. -/
theorem mem_of_namesakeNamespace? {holder id target : ElementId}
    (h : t.namesakeNamespace? holder id = some target) :
    target ∈ t.children holder ∧ t.kind? target = some .namespaceDecl
      ∧ (t.name? target).map Text.lowercase = (t.name? id).map Text.lowercase := by
  have hname := List.find?_some h
  obtain ⟨hmem, hkind⟩ := List.mem_filter.mp (List.mem_of_find?_eq_some h)
  exact ⟨hmem, of_decide_eq_true hkind, of_decide_eq_true hname⟩

/-- A move that succeeds is taking out, putting in and naming imports anew. -/
theorem run_moveInto_eq_ok {holder target id : ElementId} {u : Unit}
    (hwl : WellLinked t) (hc : id ∈ t.children holder)
    (hrun : (Edit.moveInto holder target id).run t = .ok u t') :
    Insertable (t.detach holder id).2 .classes target [id]
      ∧ t' = ((t.detach holder id).2.attach target [id]).rebindImports id := by
  obtain ⟨_, t₁, hremove, hrest⟩ := Edit.run_bind_eq_ok_iff.mp hrun
  obtain ⟨_, t₂, hadd, hrebind⟩ := Edit.run_bind_eq_ok_iff.mp hrest
  obtain ⟨_, hremove⟩ := Edit.run_discard_eq_ok_iff.mp hremove
  obtain rfl := Edit.run_remove_eq_ok hremove
  obtain ⟨hinsertable, rfl⟩ :=
    insertable_of_insert (hwl.detach hc) (Edit.run_add_eq_ok_iff.mp hadd)
  obtain ⟨_, hrebind⟩ := Edit.run_discard_eq_ok_iff.mp hrebind
  exact ⟨hinsertable, Edit.run_rebindImports_eq_ok hrebind⟩

/-- A namespace beside an attached class is attached, and so is what holds the
    two. -/
theorem attached_of_clashingNamespace? (hwl : WellLinked t)
    {id holder target : ElementId} (ha : Attached t id)
    (h : t.clashingNamespace? id = some (holder, target)) :
    Attached t holder ∧ Attached t target := by
  obtain ⟨-, hp, -, hnamesake⟩ := clashingNamespace?_eq_some_iff.mp h
  have hholder : Attached t holder := by
    rcases ha with rfl | ha
    · rw [hwl.parent?_root] at hp
      cases hp
    · exact ha.within_of_parent? hp
  exact ⟨hholder, hholder.of_parent? ((hwl.mem_children_iff holder target).mp
    (mem_of_namesakeNamespace? hnamesake).1)⟩

/-- Every turn of the pass is one move or none. -/
theorem steps_moveIntoNamesakes (hk : K .move) (h : Stable t) (hn : n ≤ t.size)
    {u : Unit} (hrun : Edit.moveIntoNamesakes.run t = .ok u t') :
    Steps K n t t' := by
  refine steps_of_crawl ?_ h hn hrun
  intro t id t' hstable _ ha hrun
  rw [Edit.run_get_bind] at hrun
  cases hclash : t.clashingNamespace? id with
  | none =>
      rw [hclash] at hrun
      exact (Edit.run_pure_eq_ok_iff.mp hrun).2 ▸ .refl
  | some p =>
      obtain ⟨holder, target⟩ := p
      rw [hclash] at hrun
      have hwl := hstable.toWellLinked
      obtain ⟨-, hp, hfrom, hnamesake⟩ := clashingNamespace?_eq_some_iff.mp hclash
      obtain ⟨hholder, htarget⟩ := attached_of_clashingNamespace? hwl ha hclash
      have hc := (hwl.mem_children_iff holder id).mpr hp
      obtain ⟨hinsertable, rfl⟩ := run_moveInto_eq_ok hwl hc hrun
      have hstep := Step.move (n := n) hc hholder htarget hinsertable
        Element.trimmed_refl hk rfl
        (fun _ => rfl) hfrom
          (.namespaceDecl (mem_of_namesakeNamespace? hnamesake).2.1 fun _ => rfl)
      rw [modify_self] at hstep
      exact .single hstep

/-- A method takes the class that its first parameter for query parameters is
    of, if that sits directly in a namespace. -/
theorem queryClass?_eq_some_iff {method d : ElementId} :
    t.queryClass? method = some d ↔
      ∃ r, (t.parameterOfKind? method .queryParameter).bind t.valueType? = some r
        ∧ r.definition? = some d
        ∧ t.isClassOf d [.queryParameters] = true
        ∧ (t.parent? d).any t.isNamespace = true := by
  rw [queryClass?]
  cases (t.parameterOfKind? method .queryParameter).bind t.valueType? with
  | none => simp
  | some r =>
      cases hdef : r.definition? with
      | none => simp [hdef]
      | some target =>
          simp only [hdef, Option.ite_none_right_eq_some, Option.some.injEq,
            exists_eq_left']
          constructor
          · rintro ⟨hplace, rfl⟩
            exact ⟨rfl, hplace⟩
          · rintro ⟨rfl, hplace⟩
            exact ⟨hplace, rfl⟩

/-- A class of query parameters that a method takes is bound by a parameter of
    the method. -/
theorem exists_of_queryClass? {method d : ElementId} (hwl : WellLinked t)
    (h : t.queryClass? method = some d) :
    ∃ x e, Ancestor t method x ∧ t.get? x = some e ∧ d ∈ e.targets := by
  obtain ⟨r, hr, hdef, -⟩ := queryClass?_eq_some_iff.mp h
  obtain ⟨x, hx, hv⟩ := Option.bind_eq_some_iff.mp hr
  obtain ⟨e, he, hv⟩ := Option.bind_eq_some_iff.mp hv
  have hmem := (List.mem_filter.mp (List.mem_of_find?_eq_some hx)).1
  refine ⟨x, e, .parent ((hwl.mem_children_iff method x).mp hmem), he, ?_⟩
  exact Element.mem_targets_iff.mpr
    ⟨r, Element.mem_typeSlots_of_valueType? hv,
      TypeRef.mem_definitions_of_definition? hdef⟩

/-- A class of query parameters that sits directly in a namespace can be moved
    into a request builder. -/
structure Nestable (t : Tree) (id : ElementId) : Prop where
  below : Ancestor t t.root id
  query : t.isClassOf id [.queryParameters] = true
  free : (t.parent? id).any t.isNamespace = true

/-- A class that has been moved into a builder. -/
theorem run_nestClass_eq_ok {builder id holder : ElementId} (hwl : WellLinked t)
    (hp : t.parent? id = some holder) {u : Unit}
    (hrun : (Edit.nestClass builder id).run t = .ok u t') :
    Insertable (t.detach holder id).2 .innerClasses builder [id]
      ∧ t' = (((t.detach holder id).2.attach builder [id]).modify builder
          (Element.mapClass fun c =>
            { c with imports :=
                c.imports.filter fun i => i.target? ≠ some id })).rebindImports id := by
  have hc := (hwl.mem_children_iff holder id).mpr hp
  rw [Edit.nestClass, Edit.run_get_bind, hp] at hrun
  obtain ⟨_, t₁, hremove, hrest⟩ := Edit.run_bind_eq_ok_iff.mp hrun
  obtain ⟨_, t₂, hadd, hrest⟩ := Edit.run_bind_eq_ok_iff.mp hrest
  obtain ⟨_, t₃, hmodify, hrebind⟩ := Edit.run_bind_eq_ok_iff.mp hrest
  obtain ⟨_, hremove⟩ := Edit.run_discard_eq_ok_iff.mp hremove
  obtain rfl := Edit.run_remove_eq_ok hremove
  obtain ⟨hinsertable, rfl⟩ :=
    insertable_of_insert (hwl.detach hc) (Edit.run_add_eq_ok_iff.mp hadd)
  rw [Edit.run_modifyElement_eq_ok_iff] at hmodify
  obtain ⟨_, hrebind⟩ := Edit.run_discard_eq_ok_iff.mp hrebind
  obtain rfl := Edit.run_rebindImports_eq_ok hrebind
  exact ⟨hinsertable, by rw [← hmodify]⟩

/-- Moving a class into a builder is a step, and leaves every other class where
    it is. -/
theorem step_nestClass {builder id : ElementId} (hk : K .move) (h : Stable t)
    (hb : Attached t builder)
    (hbuilder : t.isClassOf builder [.requestBuilder] = true) (hid : Nestable t id)
    {u : Unit} (hrun : (Edit.nestClass builder id).run t = .ok u t') :
    Step K n t t' ∧ ∀ x, x ≠ id → t'.parent? x = t.parent? x := by
  have hwl := h.toWellLinked
  obtain ⟨holder, hp⟩ := hid.below.exists_parent?
  have hholder : Attached t holder := hid.below.within_of_parent? hp
  have hc := (hwl.mem_children_iff holder id).mpr hp
  obtain ⟨hinsertable, rfl⟩ := run_nestClass_eq_ok hwl hp hrun
  have hfrom : t.isNamespace holder = true := by
    have hfree := hid.free
    rwa [hp, Option.any_some] at hfree
  refine ⟨.move hc hholder hb hinsertable (Element.trimmed_filterImports _) hk rfl
    (Element.wireSlot?_filterImports _) hfrom (.builder hbuilder hid.query fun e =>
    Element.imports_filterImports _), fun x hx => ?_⟩
  have hframes := (sameFrames_modify ((t.detach holder id).2.attach builder [id])
      builder fun e =>
    (Element.trimmed_filterImports (fun i => i.target? ≠ some id) e).frame_eq).trans
      (sameFrames_rebindImports _ id)
  rw [hframes.samePlaces.parent?_eq, hinsertable.parent?_attach, if_neg fun hmem =>
    hx (List.mem_singleton.mp hmem), parent?_detach hc, if_neg hx]

/-- What could be moved into a builder still can after any step that leaves it
    where it is. -/
theorem Nestable.step (h : Stable t) (hstep : Step K n t t') {id : ElementId}
    (hid : Nestable t id) (hparent : t'.parent? id = t.parent? id) :
    Nestable t' id := by
  obtain ⟨hs, hc⟩ := h.step hstep
  obtain ⟨holder, hp, hfree⟩ := (Option.any_eq_true _ _).mp hid.free
  refine ⟨(hc.attached (Or.inr hid.below)).resolve_left ?_,
    isClassOf_of_steps h (.single hstep) hid.query, ?_⟩
  · rintro rfl
    rw [hs.toWellLinked.parent?_root, hp] at hparent
    cases hparent
  · rw [hparent, hp, Option.any_some, isNamespace, decide_eq_true_iff]
    exact hc.kind?_eq (of_decide_eq_true hfree)

theorem nodup_eraseDups {α : Type} [DecidableEq α] (l : List α) :
    l.eraseDups.Nodup := by
  match l with
  | [] => exact List.nodup_nil
  | a :: rest =>
      rw [List.eraseDups_cons, List.nodup_cons, List.mem_eraseDups]
      exact ⟨by simp, nodup_eraseDups _⟩
termination_by l.length
decreasing_by exact Nat.lt_succ_of_le (List.length_filter_le _ _)

/-- Moving classes into a builder one after another, each once, goes by steps. -/
theorem steps_nestClasses {builder : ElementId} {ids : List ElementId}
    (hk : K .move) (h : Stable t) (hb : Attached t builder)
    (hbuilder : t.isClassOf builder [.requestBuilder] = true) (hnodup : ids.Nodup)
    (hids : ∀ id ∈ ids, Nestable t id) {u : Unit}
    (hrun : (ids.forM (Edit.nestClass builder)).run t = .ok u t') :
    Steps K n t t' := by
  induction ids generalizing t with
  | nil => exact (Edit.run_pure_eq_ok_iff.mp hrun).2 ▸ .refl
  | cons id rest ih =>
      obtain ⟨hnotin, hrest⟩ := List.nodup_cons.mp hnodup
      rw [List.forM_eq_forM, List.forM_cons] at hrun
      obtain ⟨_, s, hfirst, hrun⟩ := Edit.run_bind_eq_ok_iff.mp hrun
      obtain ⟨hstep, hothers⟩ :=
        step_nestClass hk h hb hbuilder (hids id List.mem_cons_self) hfirst
      obtain ⟨hs, hcarries⟩ := h.step hstep
      refine .head hstep (ih hs (hcarries.attached hb)
        (isClassOf_of_steps h (.single hstep) hbuilder) hrest ?_ hrun)
      intro x hx
      have hne : x ≠ id := fun heq => hnotin (heq ▸ hx)
      exact (hids x (List.mem_cons_of_mem _ hx)).step h hstep (hothers x hne)

/-- What a builder takes in can be moved into it. -/
theorem nestable_of_mem_queryClasses {builder id : ElementId} (h : Stable t)
    (hb : Attached t builder) (hclass : (t.class? builder).isSome)
    (hid : id ∈ t.queryClasses builder) : Nestable t id := by
  have hwl := h.toWellLinked
  rw [queryClasses, List.mem_eraseDups] at hid
  obtain ⟨method, hmethod, hquery⟩ := List.mem_filterMap.mp hid
  obtain ⟨-, -, -, hkind, hfree⟩ := queryClass?_eq_some_iff.mp hquery
  obtain ⟨x, e, hx, he, htarget⟩ := exists_of_queryClass? hwl hquery
  have hmember : Ancestor t builder method :=
    .parent
      ((hwl.mem_children_iff builder method).mp (List.mem_filter.mp hmethod).1)
  have hbelow := ancestor_of_within_class hwl hb hclass (Or.inr (hmember.trans hx))
  obtain ⟨hattached, hdecl⟩ := (h.fit x hbelow e he).2 id htarget
  -- A declaration is never the root.
  refine ⟨hattached.resolve_left ?_, hkind, hfree⟩
  rintro rfl
  rw [isDeclaration_iff, hwl.kind?_root] at hdecl
  rcases hdecl with hk | hk <;> cases hk

/-- Every builder takes classes in one after another; each of them is still in
    its namespace then, and no class is listed twice. -/
theorem steps_nestQueryClasses (hk : K .move) (h : Stable t) (hn : n ≤ t.size)
    {u : Unit} (hrun : Edit.nestQueryClasses.run t = .ok u t') :
    Steps K n t t' := by
  refine steps_of_crawl ?_ h hn hrun
  intro t builder t' hstable _ hb hrun
  rw [Edit.run_get_bind] at hrun
  split at hrun
  · exact (Edit.run_pure_eq_ok_iff.mp hrun).2 ▸ .refl
  next hkind =>
    have hbuilder : t.isClassOf builder [.requestBuilder] = true := by
      simpa using hkind
    refine steps_nestClasses hk hstable hb hbuilder (nodup_eraseDups _)
      (fun id hid => ?_) hrun
    exact nestable_of_mem_queryClasses hstable hb
      (isSome_class?_of_isClassOf hbuilder) hid

/-! ## Constructors -/

/-- A new element that refers to attached declarations only may be made and put
    into a slot. -/
theorem steps_of_addNew {slot : Slot} {holder id : ElementId} {e : Element}
    {k : StepKind} (h : Stable t) (hn : n ≤ t.size) (htoken : e.TokenFits)
    (himports : e.imports = [])
    (hbound : ∀ d ∈ e.targets, Attached t d ∧ t.isDeclaration d = true) (hk : K k)
    (hk' : K .attach) (hmade : Made t e.detached k) (hindex : e.kind ≠ .indexer)
    (hnew : slot = .parameters → n ≤ holder.index)
    (hrun : (Edit.addNew slot holder e).run t = .ok id t') : Steps K n t t' := by
  obtain ⟨hname, -, hinsert⟩ := Edit.run_addNew_eq_ok hrun
  have hcreate : Step K n t (t.push e.detached) :=
    .create rfl rfl htoken himports hk hmade hindex
  obtain ⟨hstable, -⟩ := h.step hcreate
  obtain ⟨hinsertable, rfl⟩ := insertable_of_insert hstable.toWellLinked hinsert
  refine (Relation.ReflTransGen.single hcreate).tail
    (.attach hinsertable (fun c hc => ?_) hk' hnew)
  rw [List.mem_singleton.mp hc]
  exact pending_push_nextId h hn rfl hname hbound

/-- A constructor is made and put in: two steps. -/
theorem steps_addConstructor {id x : ElementId} {owner : String} (hk : K .construct)
    (hk' : K .attach) (h : Stable t) (hn : n ≤ t.size)
    (hrun : (Edit.addNew .methods id (defaultConstructor owner)).run t = .ok x t') :
    Steps K n t t' := by
  have htoken : (defaultConstructor owner).TokenFits :=
    Element.tokenFits_of_kind_ne (fun hkind => NodeKind.noConfusion hkind)
  have hmade : Made t (defaultConstructor owner).detached .construct := by
    refine ⟨fun r hr => ?_, rfl, rfl⟩
    rw [← Option.some.inj hr]
    rfl
  exact steps_of_addNew h hn htoken rfl (fun d hd => absurd hd List.not_mem_nil)
    hk hk' hmade
    (fun hkind => NodeKind.noConfusion hkind)
      (fun hslot => Slot.noConfusion hslot) hrun

/-- The pass makes and puts in, class by class. -/
theorem steps_addConstructors {inheritingToo : Bool} (hk : K .construct)
    (hk' : K .attach) (h : Stable t) (hn : n ≤ t.size) {u : Unit}
    (hrun : (Edit.addConstructors inheritingToo).run t = .ok u t') :
    Steps K n t t' := by
  refine steps_of_crawl ?_ h hn hrun
  intro t id t' hstable hn _ hrun
  rw [Edit.run_get_bind] at hrun
  split at hrun
  · obtain ⟨_, hadd⟩ := Edit.run_discard_eq_ok_iff.mp hrun
    exact steps_addConstructor hk hk' hstable hn hadd
  · exact (Edit.run_pure_eq_ok_iff.mp hrun).2 ▸ .refl

end Tree

end CodeModel
