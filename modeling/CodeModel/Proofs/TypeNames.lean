import CodeModel.Proofs.Keywords
import CodeModel.Proofs.ShownNames

/-!
# Type names of a refined tree

Every reference bound to a declaration shows the name that the declaration has,
through every list of passes: what is renamed takes its references along,
wrappers and imports are named by the declarations they are for, and names of
types are corrected only where nothing is bound. There is one exception. The
correction of additional data names the type of a property without looking
whether it is bound.

* **`ShowsAll`** is carried from visit to visit; `Pass.showsAll_apply` is the
  step from pass to pass.
* **`grown_standIn`**: by induction on the type, what stands in the place of a
  union refers to wrappers by their names.

Main statements: `namesCurrent_iff_of_run`, references are current after a run
exactly when no property for additional data is bound to a declaration under the
name of a correction, and `exists_stale_of_run`, one is after some run.
-/

namespace CodeModel

open CodeModel.Tree

namespace Tree

variable {t t' : Tree} {N : String → Prop} {P : ElementId → Prop} {n : Nat}
  {K : StepKind → Prop}

/-! ## Operations -/

/-- Tree `t'` is `t` with more elements, and shows current names if `t` did. -/
structure Grown (N : String → Prop) (P : ElementId → Prop) (n : Nat) (t t' : Tree) :
    Prop where
  sameNames : SameNames t t'
  showsAll : ShowsAll N P n t → ShowsAll N P n t'

theorem Grown.refl (t : Tree) : Grown N P n t t :=
  ⟨SameNames.refl t, fun h => h⟩

theorem Grown.trans {t'' : Tree} (h : Grown N P n t t') (h' : Grown N P n t' t'') :
    Grown N P n t t'' :=
  ⟨h.sameNames.trans h'.sameNames, fun hs => h'.showsAll (h.showsAll hs)⟩

/-- What shows the name of an element is current. -/
theorem current_of_get? {id : ElementId} {e : Element} (he : t.get? id = some e) :
    t.Current (e.name, id) := by
  refine ⟨index_lt_of_get? he, fun name hname => ?_⟩
  rw [declaredName?, name?, he] at hname
  split at hname
  · exact Option.some.inj hname
  · cases hname

/-- An element that is made shows current names if what it shows is current. -/
theorem grown_create {e : Element} {id : ElementId}
    (he : ∀ b ∈ e.bindings, t.Current b)
    (hrun : (Edit.create e).run t = .ok id t') : Grown N P n t t' := by
  obtain ⟨-, -, rfl⟩ := Edit.run_create_eq_ok hrun
  refine ⟨sameNames_push t _, fun h => h.push ?_⟩
  exact (shows_of_current he).repeats (SameNames.refl t)
    (Element.repeats_of_content_eq rfl)

/-- Joining a slot shows nothing. -/
theorem grown_add {slot : Slot} {holder : ElementId} {ids : List ElementId}
    {u : Unit} (hrun : (Edit.add slot holder ids).run t = .ok u t') :
    Grown N P n t t' := by
  obtain ⟨-, -, -, -, -, rfl⟩ :=
    (insert_eq_ok_iff t t' slot holder ids).mp (Edit.run_add_eq_ok_iff.mp hrun)
  exact ⟨(relinked_attach t holder ids).sameNames, fun h =>
    h.relinked (relinked_attach t holder ids)⟩

/-- Making and putting in show what the element shows. -/
theorem grown_addNew {slot : Slot} {holder id : ElementId} {e : Element}
    (he : ∀ b ∈ e.bindings, t.Current b)
    (hrun : (Edit.addNew slot holder e).run t = .ok id t') : Grown N P n t t' := by
  rw [Edit.addNew] at hrun
  obtain ⟨x, t₁, hcreate, hrest⟩ := Edit.run_bind_eq_ok_iff.mp hrun
  obtain ⟨_, t₂, hadd, hpure⟩ := Edit.run_bind_eq_ok_iff.mp hrest
  obtain ⟨rfl, rfl⟩ := Edit.run_pure_eq_ok_iff.mp hpure
  exact (grown_create he hcreate).trans (grown_add hadd)

/-- Added imports show what they bring in. -/
theorem ShowsAll.addImports {target : ElementId} {new : List Import} {k : Nat}
    (h : ShowsAll N P n t)
    (hnew : ∀ i ∈ new, ∀ r, i.symbol = some r → ∀ b ∈ r.bindings, t.Current b)
    (hrun : (Edit.addImports target new).run t = .ok k t') : ShowsAll N P n t' := by
  obtain ⟨e, he, -, rfl⟩ := Edit.run_addImports_eq_ok hrun
  refine h.modify (fun e => Element.frame_mapImports _ e)
    fun e' he' hshows b hb => ?_
  obtain rfl : e = e' := Option.some.inj (he.symm.trans he')
  rw [Element.isBoundAdditionalData_mapImports]
  rcases Element.mem_bindings_mapImports hb with hb | ⟨i, hi, r, hr, hb⟩
  · exact hshows b hb
  · rcases Import.mem_addImports hi with hi | hi
    · exact hshows b (Element.mem_bindings_of_symbol hi hr hb)
    · exact Or.inl (hnew i hi r hr b hb)

/-- Imports that a target asks for are bound to nothing. -/
theorem ShowsAll.addSpecs {target : ElementId} {new : List Import} {k : Nat}
    (h : ShowsAll N P n t) (hnew : ∀ i ∈ new, ∃ s : ImportSpec, i = s.toImport)
    (hrun : (Edit.addImports target new).run t = .ok k t') : ShowsAll N P n t' := by
  obtain ⟨e, he, -, rfl⟩ := Edit.run_addImports_eq_ok hrun
  refine h.modify_repeats (fun e => Element.frame_mapImports _ e) fun e' he' => ?_
  obtain rfl : e = e' := Option.some.inj (he.symm.trans he')
  exact Element.repeats_addSpecs hnew e

/-- A renaming renames its references along. -/
theorem ShowsAll.setName {id : ElementId} {name : String} {u : Unit}
    (h : ShowsAll N P n t) (hrun : (Edit.setName id name).run t = .ok u t') :
    ShowsAll N P n t' := by
  obtain ⟨-, -, -, rfl⟩ := Edit.run_setName_eq_ok hrun
  exact h.rename

/-- Taking out shows nothing new. -/
theorem ShowsAll.remove {holder child : ElementId} {u : Unit} (h : ShowsAll N P n t)
    (hrun : (discard (Edit.remove holder child) : Edit Unit).run t = .ok u t') :
    ShowsAll N P n t' := by
  obtain ⟨_, hremove⟩ := Edit.run_discard_eq_ok_iff.mp hrun
  obtain rfl := Edit.run_remove_eq_ok hremove
  exact h.detach

theorem ShowsAll.rebind {scope : ElementId} {u : Unit} (h : ShowsAll N P n t)
    (hrun : (discard (Edit.rebindImports scope) : Edit Unit).run t = .ok u t') :
    ShowsAll N P n t' := by
  obtain ⟨_, hrebind⟩ := Edit.run_discard_eq_ok_iff.mp hrun
  obtain rfl := Edit.run_rebindImports_eq_ok hrebind
  exact h.rebindImports

/-- Nor does an amendment that repeats what was shown. -/
theorem ShowsAll.amend {id : ElementId}
    {f : Element → Element} {u : Unit} (h : ShowsAll N P n t)
    (hframe : ∀ e, (f e).frame = e.frame) (hf : ∀ e, Element.Repeats e (f e))
    (hrun : (Edit.modifyElement id f).run t = .ok u t') : ShowsAll N P n t' := by
  rw [Edit.run_modifyElement_eq_ok_iff] at hrun
  exact hrun ▸ h.modify_repeats hframe fun e _ => hf e

/-! ## Imports that a target always needs -/

/-- Seeding leaves names current: its imports are bound to nothing. -/
theorem showsAll_seedImports {defaults : List DefaultImport} (h : ShowsAll N P n t)
    {u : Unit} (hrun : (Edit.seedImports defaults).run t = .ok u t') :
    ShowsAll N P n t' := by
  refine Edit.crawl_induction (fun s id s' hs _ hvisit => ?_) h hrun
  rw [Edit.run_get_bind] at hvisit
  cases hc : s.class? id with
  | none =>
      rw [hc] at hvisit
      exact (Edit.run_pure_eq_ok_iff.mp hvisit).2 ▸ hs
  | some c =>
      rw [hc] at hvisit
      dsimp only at hvisit
      split at hvisit
      · exact (Edit.run_pure_eq_ok_iff.mp hvisit).2 ▸ hs
      · obtain ⟨k, hadd⟩ := Edit.run_discard_eq_ok_iff.mp hvisit
        refine hs.addSpecs (fun i hi => ?_) hadd
        obtain ⟨d, -, rfl⟩ := List.mem_map.mp hi
        exact ⟨d.spec, rfl⟩

/-- So are the interface and the import of a model. -/
theorem showsAll_implementInModels {interface : String} {spec : ImportSpec}
    (h : ShowsAll N P n t) {u : Unit}
    (hrun : (Edit.implementInModels interface spec).run t = .ok u t') :
    ShowsAll N P n t' := by
  refine Edit.crawl_induction (fun s id s' hs _ hvisit => ?_) h hrun
  rw [Edit.run_get_bind] at hvisit
  split at hvisit
  · exact (Edit.run_pure_eq_ok_iff.mp hvisit).2 ▸ hs
  · obtain ⟨_, s₁, hmodify, hrest⟩ := Edit.run_bind_eq_ok_iff.mp hvisit
    obtain ⟨k, hadd⟩ := Edit.run_discard_eq_ok_iff.mp hrest
    have hs₁ := hs.amend (Element.frame_addInterface _)
      (Element.repeats_addInterface interface) hmodify
    exact hs₁.addSpecs (fun i hi => ⟨spec, List.mem_singleton.mp hi⟩) hadd

/-! ## Imports of declarations -/

/-- What is imported is bound to declarations under their names, so names stay
    current. -/
theorem showsAll_importReferenced {ownNamespaceToo : Bool} (h : ShowsAll N P n t)
    {u : Unit} (hrun : (Edit.importReferenced ownNamespaceToo).run t = .ok u t') :
    ShowsAll N P n t' := by
  rw [Edit.importReferenced_eq] at hrun
  refine Edit.crawl_induction (fun s id s' hs _ hvisit => ?_) h hrun
  rcases run_importOwn_eq_ok hvisit with ⟨rfl, -⟩ | ⟨-, k, hadd⟩
  · exact hs
  · refine hs.addImports (fun i hi r hr b hb => ?_) hadd
    obtain ⟨d, -, himport⟩ := List.mem_filterMap.mp hi
    rw [importOf?] at himport
    split at himport
    · cases himport
    · split at himport
      · cases himport
      · -- An import is made out under the name that the declaration has then.
        obtain ⟨name, hname, rfl⟩ := Option.map_eq_some_iff.mp himport
        obtain rfl := Option.some.inj hr
        obtain ⟨e, he, rfl⟩ := Option.map_eq_some_iff.mp hname
        rw [TypeRef.bindings_of_definition? rfl, List.mem_singleton] at hb
        exact hb ▸ current_of_get? he

/-- Paths show no names. -/
theorem showsAll_resolveImportPaths (h : ShowsAll N P n t) {u : Unit}
    (hrun : Edit.resolveImportPaths.run t = .ok u t') : ShowsAll N P n t' := by
  rw [Edit.resolveImportPaths_eq] at hrun
  refine Edit.crawl_induction (fun s id s' hs _ hvisit => ?_) h hrun
  rw [Edit.resolveOwn, Edit.run_get_bind] at hvisit
  cases hc : s.class? id with
  | none =>
      rw [hc] at hvisit
      exact (Edit.run_pure_eq_ok_iff.mp hvisit).2 ▸ hs
  | some c =>
      rw [hc] at hvisit
      obtain ⟨resolved, s₁, hresolve, hmodify⟩ := Edit.run_bind_eq_ok_iff.mp hvisit
      obtain ⟨hok, rfl⟩ := Edit.run_inspect_eq_ok_iff.mp hresolve
      rw [Edit.run_modifyElement_eq_ok_iff] at hmodify
      obtain ⟨-, hsymbols⟩ := mapM_withImportPath_eq hok
      obtain ⟨e', he', hclass⟩ := Option.bind_eq_some_iff.mp hc
      have himports : e'.imports = c.imports := by
        rw [Element.imports, Element.imports?, Element.class?_eq_some_iff.mp hclass,
          Option.getD_some]
      rw [← hmodify]
      refine hs.modify_repeats (fun e => Element.frame_mapImports _ e)
        fun e he => ?_
      obtain rfl : e' = e := Option.some.inj (he'.symm.trans he)
      refine Element.repeats_mapImports fun i hi r hr => Or.inr ?_
      have hmem : some r ∈ resolved.map (·.symbol) := hr ▸ List.mem_map_of_mem hi
      rw [hsymbols, ← himports] at hmem
      exact List.mem_map.mp hmem

/-! ## Names and types that fit the target -/

/-- The pass renames only with references. -/
theorem showsAll_addAsyncSuffix {suffix : String} (h : ShowsAll N P n t) {u : Unit}
    (hrun : (Edit.addAsyncSuffix suffix).run t = .ok u t') : ShowsAll N P n t' := by
  refine Edit.crawl_induction (fun s id s' hs _ hvisit => ?_) h hrun
  rw [Edit.run_get_bind] at hvisit
  split at hvisit
  · exact (Edit.run_pure_eq_ok_iff.mp hvisit).2 ▸ hs
  · exact hs.setName hvisit

theorem showsAll_capitalizeNamespaces (h : ShowsAll N P n t) {u : Unit}
    (hrun : Edit.capitalizeNamespaces.run t = .ok u t') : ShowsAll N P n t' := by
  refine Edit.crawl_induction (fun s id s' hs _ hvisit => ?_) h hrun
  obtain ⟨e, s₁, helement, hrest⟩ := Edit.run_bind_eq_ok_iff.mp hvisit
  obtain ⟨-, rfl⟩ := Edit.run_element_eq_ok_iff.mp helement
  split at hrest
  · exact hs.setName hrest
  · exact (Edit.run_pure_eq_ok_iff.mp hrest).2 ▸ hs

/-- And so does this one, after the name on the wire was noted. -/
theorem showsAll_escapeReservedNames {reserved : ReservedNames}
    {style : EscapeStyle} (h : ShowsAll N P n t) {u : Unit}
    (hrun : (Edit.escapeReservedNames reserved style).run t = .ok u t') :
    ShowsAll N P n t' := by
  refine Edit.crawl_induction (fun s id s' hs _ hvisit => ?_) h hrun
  obtain ⟨e, s₁, helement, hrest⟩ := Edit.run_bind_eq_ok_iff.mp hvisit
  obtain ⟨-, rfl⟩ := Edit.run_element_eq_ok_iff.mp helement
  split at hrest
  · obtain ⟨_, s₂, hset, hkeep⟩ := Edit.run_bind_eq_ok_iff.mp hrest
    exact (hs.setName hset).amend (Element.frame_keepWireName _)
      (Element.repeats_keepWireName _) hkeep
  · exact (Edit.run_pure_eq_ok_iff.mp hrest).2 ▸ hs

/-- Properties are taken out, renamed with references and put back. -/
theorem showsAll_disambiguateProperties {suffix : String} (h : ShowsAll N P n t)
    {u : Unit} (hrun : (Edit.disambiguateProperties suffix).run t = .ok u t') :
    ShowsAll N P n t' := by
  refine Edit.crawl_induction (fun s id s' hs _ hvisit => ?_) h hrun
  rw [Edit.disambiguateProperty, Edit.run_get_bind] at hvisit
  obtain ⟨e, s₁, helement, hrest⟩ := Edit.run_bind_eq_ok_iff.mp hvisit
  obtain ⟨-, rfl⟩ := Edit.run_element_eq_ok_iff.mp helement
  split at hrest
  · exact (Edit.run_pure_eq_ok_iff.mp hrest).2 ▸ hs
  · split at hrest
    · exact (Edit.run_pure_eq_ok_iff.mp hrest).2 ▸ hs
    · obtain ⟨_, s₁, hremove, hrest⟩ := Edit.run_bind_eq_ok_iff.mp hrest
      obtain ⟨_, s₂, hkeep, hrest⟩ := Edit.run_bind_eq_ok_iff.mp hrest
      obtain ⟨_, s₃, hset, hadd⟩ := Edit.run_bind_eq_ok_iff.mp hrest
      have hs₂ := (hs.remove hremove).amend (Element.frame_keepWireName _)
        (Element.repeats_keepWireName _) hkeep
      exact (grown_add hadd).showsAll (hs₂.setName hset)

/-- Native types stand for unbound types only. -/
theorem showsAll_replaceBinary {typeName : String} {spec : ImportSpec}
    (h : ShowsAll N P n t) {u : Unit}
    (hrun : (Edit.replaceBinary typeName spec).run t = .ok u t') :
    ShowsAll N P n t' := by
  refine Edit.crawl_induction (fun s id s' hs _ hvisit => ?_) h hrun
  rw [Edit.run_get_bind] at hvisit
  obtain ⟨_, s₁, hmodify, hrest⟩ := Edit.run_bind_eq_ok_iff.mp hvisit
  have hs₁ : ShowsAll N P n s₁ := Edit.forM_induction
    (fun r x r' _ hr hone => hr.amend (Element.frame_mapValueType _)
      (Element.repeats_mapValueType (TypeRef.bindings_replaceBinary typeName)
        fun r => TypeRef.definition?_rename _ r) hone)
    hs hmodify
  split at hrest
  · exact (Edit.run_pure_eq_ok_iff.mp hrest).2 ▸ hs₁
  · split at hrest
    · obtain ⟨k, hadd⟩ := Edit.run_discard_eq_ok_iff.mp hrest
      exact hs₁.addSpecs (fun i hi => ⟨spec, List.mem_singleton.mp hi⟩) hadd
    · exact (Edit.run_pure_eq_ok_iff.mp hrest).2 ▸ hs₁

/-- A nullable type shows the name that it showed. -/
theorem showsAll_makeEnumPropertiesNullable (h : ShowsAll N P n t) {u : Unit}
    (hrun : Edit.makeEnumPropertiesNullable.run t = .ok u t') :
    ShowsAll N P n t' := by
  refine Edit.crawl_induction (fun s id s' hs _ hvisit => ?_) h hrun
  rw [Edit.run_get_bind] at hvisit
  split at hvisit
  · exact hs.amend (Element.frame_mapProperty _) Element.repeats_makeNullable hvisit
  · exact (Edit.run_pure_eq_ok_iff.mp hvisit).2 ▸ hs

/-- Correcting the types of an element names nothing that is bound, but for the
    type of additional data. -/
theorem Shows.correct {c : TypeCorrections} {owner : String} {e : Element}
    (hN : ∀ a, c.additionalData = some a → N a.typeName) (h : t.Shows N e) :
    t.Shows N (e.mapContent fun content =>
      c.correctTypes (c.correctKind owner content)) := by
  obtain ⟨name, parent, children, description, content⟩ := e
  have hslots : ∀ {content : Content} {b : String × ElementId},
      b ∈ (Element.mk name parent children description content).bindings ↔
        ∃ r ∈ content.typeSlots, b ∈ r.bindings := List.mem_flatMap
  cases content with
  | method m =>
      refine h.repeats (SameNames.refl t)
        ⟨fun b hb => ?_, fun ha => Bool.noConfusion ha⟩
      obtain ⟨returnType, heq, hreturn⟩ := c.correctTypes_method owner m
      rw [Element.mapContent, heq] at hb
      obtain ⟨r, hr, hb⟩ := hslots.mp hb
      rw [List.mem_singleton.mp hr] at hb
      rcases hreturn with ⟨returnName, rfl⟩ | rfl
      · -- What a deserializer returns is known by its name alone.
        rw [TypeRef.bindings_correctNames] at hb
        exact absurd hb List.not_mem_nil
      · rw [TypeRef.bindings_correctNames] at hb
        exact hslots.mpr ⟨_, List.mem_singleton_self _, hb⟩
  | property p =>
      have hold : ∀ b ∈ p.type.bindings, b
          ∈ (Element.mk name parent children description (.property p)).bindings :=
        fun b hb => hslots.mpr ⟨_, List.mem_singleton_self _, hb⟩
      rw [Element.mapContent]
      rcases c.correctTypes_property owner p with ⟨a, hkind, ha, heq⟩ | heq
      · dsimp only
        rw [heq]
        cases hd : p.type.definition? with
        | some d =>
            -- The one type there is bound, and is named all the same.
            intro b hb
            obtain ⟨r, hr, hb⟩ := hslots.mp hb
            have hd' : (p.type.withName a.typeName).definition? = some d := hd
            rw [List.mem_singleton.mp hr, TypeRef.bindings_correctNames,
              TypeRef.bindings_of_definition? hd', List.mem_singleton] at hb
            have hshown := h (p.type.name, d) (hold _ (by
              rw [TypeRef.bindings_of_definition? hd]
              exact List.mem_singleton_self _))
            refine Or.inr ⟨Element.isBoundAdditionalData_iff.mpr
              ⟨_, d, rfl, hkind, ?_⟩, hb ▸ hN a ha, hb ▸ hshown.elim (·.1) (·.2.2)⟩
            exact (TypeRef.definition?_rename _ _).trans hd'
        | none =>
            have hd' : (p.type.withName a.typeName).definition? = none := hd
            refine h.repeats (SameNames.refl t)
              ⟨fun b hb => hold b ?_, fun hbound => ?_⟩
            · obtain ⟨r, hr, hb⟩ := hslots.mp hb
              rw [List.mem_singleton.mp hr, TypeRef.bindings_correctNames,
                TypeRef.bindings_of_definition?_eq_none hd'] at hb
              rw [TypeRef.bindings_of_definition?_eq_none hd]
              exact hb
            · obtain ⟨q, d, hq, -, hqd⟩ :=
                Element.isBoundAdditionalData_iff.mp hbound
              obtain rfl : p = q := Option.some.inj hq
              rw [hd] at hqd
              cases hqd
      · dsimp only
        rw [heq]
        refine h.repeats (SameNames.refl t)
          ⟨fun b hb => hold b ?_, fun hbound => ?_⟩
        · obtain ⟨r, hr, hb⟩ := hslots.mp hb
          rwa [List.mem_singleton.mp hr, TypeRef.bindings_correctNames] at hb
        · obtain ⟨q, d, hq, hkind, hqd⟩ :=
            Element.isBoundAdditionalData_iff.mp hbound
          obtain rfl : p = q := Option.some.inj hq
          exact Element.isBoundAdditionalData_iff.mpr
            ⟨_, d, rfl, hkind, (TypeRef.definition?_rename _ _).trans hqd⟩
  | parameter p =>
      refine h.repeats (SameNames.refl t)
        ⟨fun b hb => ?_, fun ha => Bool.noConfusion ha⟩
      obtain ⟨r, hr, hb⟩ := hslots.mp hb
      rw [List.mem_singleton.mp hr, TypeRef.bindings_correctNames] at hb
      exact hslots.mpr ⟨_, List.mem_singleton_self _, hb⟩
  | indexer i =>
      refine h.repeats (SameNames.refl t)
        ⟨fun b hb => ?_, fun ha => Bool.noConfusion ha⟩
      obtain ⟨r, hr, hb⟩ := hslots.mp hb
      rcases List.mem_cons.mp hr with rfl | hr
      · rw [TypeRef.bindings_correctNames] at hb
        exact hslots.mpr ⟨_, List.mem_cons_self, hb⟩
      · rw [List.mem_singleton.mp hr, TypeRef.bindings_correctNames] at hb
        exact hslots.mpr ⟨_, List.mem_cons_of_mem _ (List.mem_singleton_self _), hb⟩
  | namespaceDecl imports => exact h
  | classDecl d => exact h
  | enumDecl options => exact h

/-- Corrections replace names of unbound types, and of bound ones only in
    properties for additional data, which are excused. -/
theorem showsAll_correctTypes {c : TypeCorrections}
    (hN : ∀ a, c.additionalData = some a → N a.typeName) (h : ShowsAll N P n t)
    {u : Unit} (hrun : (Edit.correctTypes c).run t = .ok u t') :
    ShowsAll N P n t' := by
  refine Edit.crawl_induction (fun s id s' hs _ hvisit => ?_) h hrun
  rw [Edit.run_get_bind, Edit.run_modifyElement_eq_ok_iff] at hvisit
  rw [← hvisit]
  exact hs.modify
    (fun e => Element.frame_mapContent (c.kind_correct _) (c.token?_correct _) e)
    fun e _ hshows => hshows.correct hN

/-! ## Moving classes -/

/-- Moving shows nothing new. -/
theorem showsAll_moveIntoNamesakes (h : ShowsAll N P n t) {u : Unit}
    (hrun : Edit.moveIntoNamesakes.run t = .ok u t') : ShowsAll N P n t' := by
  refine Edit.crawl_induction (fun s id s' hs _ hvisit => ?_) h hrun
  rw [Edit.run_get_bind] at hvisit
  split at hvisit
  · exact (Edit.run_pure_eq_ok_iff.mp hvisit).2 ▸ hs
  · obtain ⟨_, s₁, hremove, hrest⟩ := Edit.run_bind_eq_ok_iff.mp hvisit
    obtain ⟨_, s₂, hadd, hrebind⟩ := Edit.run_bind_eq_ok_iff.mp hrest
    exact ((grown_add hadd).showsAll (hs.remove hremove)).rebind hrebind

/-- A class that is taken in is not imported any longer, and all else is as for
    a move. -/
theorem ShowsAll.nestClass {builder id : ElementId} (h : ShowsAll N P n t)
    {u : Unit} (hrun : (Edit.nestClass builder id).run t = .ok u t') :
    ShowsAll N P n t' := by
  rw [Edit.nestClass, Edit.run_get_bind] at hrun
  have hremoved : ∃ s, ShowsAll N P n s ∧ (do
      Edit.add .innerClasses builder [id]
      Edit.modifyElement builder (Element.mapClass fun c =>
        { c with imports := c.imports.filter fun i => i.target? ≠ some id })
      discard <| Edit.rebindImports id : Edit Unit).run s = .ok u t' := by
    cases hp : t.parent? id with
    | none =>
        rw [hp] at hrun
        exact ⟨t, h, hrun⟩
    | some holder =>
        rw [hp] at hrun
        obtain ⟨_, s, hremove, hrest⟩ := Edit.run_bind_eq_ok_iff.mp hrun
        exact ⟨s, h.remove hremove, hrest⟩
  obtain ⟨s, hs, hrest⟩ := hremoved
  obtain ⟨_, s₁, hadd, hrest⟩ := Edit.run_bind_eq_ok_iff.mp hrest
  obtain ⟨_, s₂, hmodify, hrebind⟩ := Edit.run_bind_eq_ok_iff.mp hrest
  have hs₂ := ((grown_add hadd).showsAll hs).amend
    (fun e => (Element.trimmed_filterImports _ e).frame_eq)
    (Element.repeats_filterImports _) hmodify
  exact hs₂.rebind hrebind

/-- So are the classes of all builders, one after another. -/
theorem showsAll_nestQueryClasses (h : ShowsAll N P n t) {u : Unit}
    (hrun : Edit.nestQueryClasses.run t = .ok u t') : ShowsAll N P n t' := by
  refine Edit.crawl_induction (fun s id s' hs _ hvisit => ?_) h hrun
  rw [Edit.run_get_bind] at hvisit
  split at hvisit
  · exact (Edit.run_pure_eq_ok_iff.mp hvisit).2 ▸ hs
  · exact Edit.forM_induction (fun r x r' _ hr hone => hr.nestClass hone) hs hvisit

/-! ## Members that are made -/

/-- A constructor returns an unbound type. -/
theorem showsAll_addConstructors {inheritingToo : Bool} (h : ShowsAll N P n t)
    {u : Unit} (hrun : (Edit.addConstructors inheritingToo).run t = .ok u t') :
    ShowsAll N P n t' := by
  refine Edit.crawl_induction (fun s id s' hs _ hvisit => ?_) h hrun
  rw [Edit.run_get_bind] at hvisit
  split at hvisit
  · obtain ⟨_, hadd⟩ := Edit.run_discard_eq_ok_iff.mp hvisit
    exact (grown_addNew (fun b hb => absurd hb List.not_mem_nil) hadd).showsAll hs
  · exact (Edit.run_pure_eq_ok_iff.mp hvisit).2 ▸ hs

/-- A copy shows what its source shows, under the same names. -/
theorem showsAll_cloneProperty {source copy : ElementId} (hst : Stable t)
    (h : ShowsAll N P n t) (hkind : t.kind? source = some .property)
    (ha : Ancestor t t.root source) (hreach : P source ∨ n ≤ source.index)
    (hrun : (Edit.cloneSubtree source).run t = .ok copy t') :
    ShowsAll N P n t' := by
  obtain ⟨e, image, he, rfl, rfl, houtside⟩ :=
    run_cloneProperty_eq_ok hst hkind ha hrun
  exact h.push ((h source e he hreach).repeats (SameNames.refl t)
    (Element.repeats_copiedElement houtside))

/-- A class is given copies of what it inherits, which show what that shows. -/
theorem showsAll_inherit {id : ElementId} {copies : List ElementId} {t₁ : Tree}
    (hst : Stable t) (hn : n ≤ t.size)
    (hreach : ∀ x, Attached t x → P x ∨ n ≤ x.index) (h : ShowsAll N P n t)
    (hid : Ancestor t t.root id) (hclone :
      ((t.inheritedProperties id).mapM Edit.cloneSubtree).run t = .ok copies t₁)
    {u : Unit} (hrest : (Edit.inherit id copies).run t₁ = .ok u t') :
    ShowsAll N P n t' := by
  have h₁ : ShowsAll N P n t₁ := by
    refine (Edit.mapM_induction (I := fun _ s => Steps (fun _ => True) n t s
      ∧ ShowsAll N P n s) ?_ ⟨.refl, h⟩ hclone).2
    rintro _ s p copy s' hp ⟨hsteps, hs⟩ hone
    obtain ⟨hstable, hc⟩ := hst.steps hsteps
    have hsource := hst.of_mem_inheritedProperties hid hp
    obtain ⟨hkind, hbelow⟩ := hc.property hstable hsource
    obtain ⟨-, -, -, -, -, -, -, hstep, -⟩ :=
      steps_cloneProperty (K := fun _ => True) trivial hstable
        (Nat.le_trans hn hc.size_le) hkind hbelow hone
    exact ⟨hsteps.tail hstep, showsAll_cloneProperty hstable hs hkind hbelow
      (hreach p (Or.inr hsource.2)) hone⟩
  rw [Edit.inherit] at hrest
  split at hrest
  · obtain ⟨_, t₂, hadd, hmodify⟩ := Edit.run_bind_eq_ok_iff.mp hrest
    exact ((grown_add hadd).showsAll h₁).amend
      (fun e => (Element.trimmed_dropInheritance e).frame_eq)
      Element.repeats_dropInheritance hmodify
  · exact h₁.amend (fun e => (Element.trimmed_dropInheritance e).frame_eq)
      Element.repeats_dropInheritance hrest

/-- What is inherited is copied, and inheritance is dropped; both repeat what
    was shown. -/
theorem showsAll_flattenInheritance (hst : Stable t) (hn : n ≤ t.size)
    (hreach : ∀ x, Attached t x → P x ∨ n ≤ x.index) (h : ShowsAll N P n t)
    {u : Unit} (hrun : Edit.flattenInheritance.run t = .ok u t') :
    ShowsAll N P n t' := by
  refine (Edit.crawl_induction (I := fun s => Steps (fun _ => True) n t s
    ∧ ShowsAll N P n s) ?_ ⟨.refl, h⟩ hrun).2
  rintro s id s' ⟨hsteps, hs⟩ ha hvisit
  obtain ⟨hstable, hc⟩ := hst.steps hsteps
  have hid := hstable.toWellLinked.isAttached_iff.mp ha
  have hreach' : ∀ x, Attached s x → P x ∨ n ≤ x.index := fun x hx =>
    (attached_of_steps hst hsteps hx).elim (hreach x) Or.inr
  rw [Edit.run_get_bind] at hvisit
  split at hvisit
  · exact (Edit.run_pure_eq_ok_iff.mp hvisit).2 ▸ ⟨hsteps, hs⟩
  next hparent =>
    obtain ⟨copies, s₁, hclone, hrest⟩ := Edit.run_bind_eq_ok_iff.mp hvisit
    have hn' := Nat.le_trans hn hc.size_le
    exact ⟨hsteps.trans (steps_inherit trivial trivial trivial hstable hn' hid
      hparent hclone hrest).1, showsAll_inherit hstable hn' hreach' hs
      (hstable.ancestor_of_parentClass? hid hparent) hclone hrest⟩

/-! ## Wrappers -/

/-- What finishes a wrapper shows only unbound types. -/
theorem grown_finishWrapper {site : WrapperSite} {name : String}
    {x wrapper : ElementId}
    (hrun : (Edit.finishWrapper site name x).run t = .ok wrapper t') :
    Grown N P n t t' := by
  have hfree : ∀ {s : Tree} {e : Element}, e.bindings = [] →
      ∀ b ∈ e.bindings, s.Current b := by
    intro s e hnil b hb
    rw [hnil] at hb
    exact absurd hb List.not_mem_nil
  obtain ⟨serializer, t₁, hserializer, hrest⟩ := Edit.run_bind_eq_ok_iff.mp hrun
  obtain ⟨_, t₂, hwriter, hrest₂⟩ := Edit.run_bind_eq_ok_iff.mp hrest
  obtain ⟨_, t₃, hdeserializer, hrest₃⟩ := Edit.run_bind_eq_ok_iff.mp hrest₂
  obtain ⟨_, t₄, hadd, hpure⟩ := Edit.run_bind_eq_ok_iff.mp hrest₃
  obtain ⟨_, hwriter⟩ := Edit.run_discard_eq_ok_iff.mp hwriter
  obtain ⟨_, hdeserializer⟩ := Edit.run_discard_eq_ok_iff.mp hdeserializer
  obtain ⟨-, rfl⟩ := Edit.run_pure_eq_ok_iff.mp hpure
  have hmethods :=
    (grown_addNew (N := N) (P := P) (n := n) (hfree rfl) hserializer).trans
    ((grown_addNew (hfree rfl) hwriter).trans
      (grown_addNew (hfree rfl) hdeserializer))
  exact hmethods.trans (grown_add hadd)

/-- A wrapper shows current names if its properties do. -/
theorem grown_createWrapper {site : WrapperSite} {unionName : String}
    {members : List TypeRef}
    {properties : List (String × TypeRef)} {wrapper : ElementId}
    (hproperties : ∀ p ∈ properties, ∀ b ∈ p.2.bindings, t.Current b)
    (hrun : (Edit.createWrapper site unionName members properties).run t
      = .ok wrapper t') : Grown N P n t t' := by
  rw [Edit.createWrapper, Edit.run_get_bind] at hrun
  dsimp only at hrun
  obtain ⟨w, t₁, hcreate, hrest⟩ := Edit.run_bind_eq_ok_iff.mp hrun
  obtain ⟨ids, t₂, hmembers, hrest₂⟩ := Edit.run_bind_eq_ok_iff.mp hrest
  have h₁ : Grown N P n t t₁ :=
    grown_create (fun b hb => absurd hb List.not_mem_nil) hcreate
  have h₂ : Grown N P n t t₂ := by
    refine Edit.mapM_induction (I := fun _ s => Grown N P n t s)
      (fun _ s p id s' hp hs hone => ?_) h₁ hmembers
    refine hs.trans
      (grown_create (fun b hb => (hproperties p hp b ?_).carry hs.sameNames) hone)
    obtain ⟨r, hr, hb⟩ := List.mem_flatMap.mp hb
    obtain rfl : r = p.2 := List.mem_singleton.mp hr
    exact hb
  split at hrest₂
  · obtain ⟨_, t₃, hadd, hrest₃⟩ := Edit.run_bind_eq_ok_iff.mp hrest₂
    exact (h₂.trans (grown_add hadd)).trans (grown_finishWrapper hrest₃)
  · exact h₂.trans (grown_finishWrapper hrest₂)

/-- A reference to a wrapper shows its name. -/
theorem current_referTo {wrapper : ElementId} {isNullable isCollection : Bool}
    {w w' : Wrappers} {r' : TypeRef} (hrun :
      (Edit.referTo wrapper isNullable isCollection w).run t = .ok (r', w') t') :
    t' = t ∧ ∀ b ∈ r'.bindings, t.Current b := by
  obtain ⟨e, t₁, helement, hpure⟩ := Edit.run_bind_eq_ok_iff.mp hrun
  obtain ⟨he, rfl⟩ := Edit.run_element_eq_ok_iff.mp helement
  obtain ⟨heq, rfl⟩ := Edit.run_pure_eq_ok_iff.mp hpure
  obtain ⟨rfl, rfl⟩ := Prod.mk.inj heq
  refine ⟨rfl, fun b hb => ?_⟩
  rw [TypeRef.bindings_of_definition? rfl, List.mem_singleton] at hb
  exact hb ▸ current_of_get? he

mutual

/-- What stands in the place of a union of current names shows current names. -/
theorem grown_standIn {site : WrapperSite} {N : String → Prop}
    {P : ElementId → Prop} {n : Nat} :
    ∀ (r : TypeRef) (w : Wrappers) {t t' : Tree} {r' : TypeRef} {w' : Wrappers},
      (∀ b ∈ r.bindings, t.Current b) →
        (Edit.standIn site w r).run t = .ok (r', w') t' →
      Grown N P n t t' ∧ ∀ b ∈ r'.bindings, t'.Current b
  | ⟨name, .external, isNullable, isCollection⟩, w, t, t', r', w', hr, hrun => by
      obtain ⟨heq, rfl⟩ := Edit.run_pure_eq_ok_iff.mp hrun
      obtain ⟨rfl, rfl⟩ := Prod.mk.inj heq
      exact ⟨Grown.refl t, hr⟩
  | ⟨name, .declared id, isNullable, isCollection⟩, w, t, t', r', w', hr, hrun => by
      obtain ⟨heq, rfl⟩ := Edit.run_pure_eq_ok_iff.mp hrun
      obtain ⟨rfl, rfl⟩ := Prod.mk.inj heq
      exact ⟨Grown.refl t, hr⟩
  | ⟨name, .union members, isNullable, isCollection⟩, w, t, t', r', w', hr, hrun =>
      by
      rw [Edit.standIn] at hrun
      dsimp only at hrun
      cases hl : List.lookup (⟨site.scope, members⟩ : WrapperKey) w with
      | some wrapper =>
          rw [hl] at hrun
          obtain ⟨_, t₁, hpure, hrefer⟩ := Edit.run_bind_eq_ok_iff.mp hrun
          obtain ⟨rfl, rfl⟩ := Edit.run_pure_eq_ok_iff.mp hpure
          obtain ⟨rfl, hcurrent⟩ := current_referTo hrefer
          exact ⟨Grown.refl _, hcurrent⟩
      | none =>
          rw [hl] at hrun
          obtain ⟨⟨properties, w₁⟩, t₁, halternatives, hrest⟩ :=
            Edit.run_bind_eq_ok_iff.mp hrun
          obtain ⟨wrapper, t₂, hcreate, hrest₂⟩ := Edit.run_bind_eq_ok_iff.mp hrest
          obtain ⟨_, t₃, hpure, hrefer⟩ := Edit.run_bind_eq_ok_iff.mp hrest₂
          obtain ⟨rfl, rfl⟩ := Edit.run_pure_eq_ok_iff.mp hpure
          have hmembers : ∀ m ∈ members, ∀ b ∈ m.bindings, t.Current b :=
              fun m hm b hb => by
            refine hr b ?_
            rw [TypeRef.bindings_union]
            exact List.mem_flatMap.mpr ⟨m, hm, hb⟩
          obtain ⟨h₁, hproperties⟩ :=
            grown_alternatives members w [] hmembers halternatives
          obtain ⟨rfl, hcurrent⟩ := current_referTo hrefer
          exact ⟨h₁.trans (grown_createWrapper hproperties hcreate), hcurrent⟩

/-- Lowering alternatives keeps names current. By recursion over the members,
    along with the theorem for one type. -/
theorem grown_alternatives {site : WrapperSite} {N : String → Prop}
    {P : ElementId → Prop} {n : Nat} :
    ∀ (members : List TypeRef) (w : Wrappers) (taken : List String) {t t' : Tree}
      {properties : List (String × TypeRef)} {w' : Wrappers},
      (∀ m ∈ members, ∀ b ∈ m.bindings, t.Current b) →
      (Edit.alternatives site w taken members).run t = .ok (properties, w') t' →
      Grown N P n t t' ∧ ∀ p ∈ properties, ∀ b ∈ p.2.bindings, t'.Current b
  | [], w, taken, t, t', properties, w', _, hrun => by
      obtain ⟨heq, rfl⟩ := Edit.run_pure_eq_ok_iff.mp hrun
      obtain ⟨rfl, rfl⟩ := Prod.mk.inj heq
      exact ⟨Grown.refl _, fun p hp => absurd hp List.not_mem_nil⟩
  | member :: rest, w, taken, t, t', properties, w', hmembers, hrun => by
      rw [Edit.alternatives] at hrun
      dsimp only at hrun
      have hrest : ∀ m ∈ rest, ∀ b ∈ m.bindings, t.Current b :=
        fun m hm => hmembers m (List.mem_cons_of_mem _ hm)
      split at hrun
      · exact grown_alternatives rest w taken hrest hrun
      · obtain ⟨⟨type, w₁⟩, t₁, hfirst, hrun₂⟩ := Edit.run_bind_eq_ok_iff.mp hrun
        obtain ⟨⟨properties', w₂⟩, t₂, halternatives, hpure⟩ :=
          Edit.run_bind_eq_ok_iff.mp hrun₂
        obtain ⟨heq, rfl⟩ := Edit.run_pure_eq_ok_iff.mp hpure
        obtain ⟨rfl, rfl⟩ := Prod.mk.inj heq
        obtain ⟨h₁, htype⟩ := grown_standIn (N := N) (P := P) (n := n) member w
          (hmembers member List.mem_cons_self) hfirst
        obtain ⟨h₂, hproperties⟩ :=
          grown_alternatives (N := N) (P := P) (n := n) rest w₁ _
          (fun m hm b hb => (hrest m hm b hb).carry h₁.sameNames) halternatives
        refine ⟨h₁.trans h₂, fun p hp => ?_⟩
        rcases List.mem_cons.mp hp with rfl | hp
        · have hsame : type.nullable.bindings = type.bindings :=
            TypeRef.bindings_congr rfl rfl
          exact fun b hb => (htype b (hsame ▸ hb)).carry h₂.sameNames
        · exact hproperties p hp

end

/-- A union type is nowhere the one bound type of a property. -/
theorem isBoundAdditionalData_of_isUnion {e : Element} {r : TypeRef}
    (hvalue : e.valueType? = some r) (hunion : r.isUnion = true) :
    e.isBoundAdditionalData = false := by
  refine Bool.eq_false_iff.mpr fun hbound => ?_
  obtain ⟨p, d, hp, -, hd⟩ := Element.isBoundAdditionalData_iff.mp hbound
  have hcontent : e.valueType? = some p.type := by
    rw [Element.property?] at hp
    rw [Element.valueType?]
    cases hc : e.content <;> rw [hc] at hp <;> cases hp
    rfl
  rw [Option.some.inj (hvalue.symm.trans hcontent)] at hunion
  rw [TypeRef.definition?_eq_none_of_isUnion hunion] at hd
  cases hd

/-- A use of a union shows the name of its wrapper afterwards. -/
theorem ShowsAll.wrapUnion {placement : WrapperPlacement} {w w' : Wrappers}
    {id : ElementId} (h : ShowsAll N P n t) (hreach : P id ∨ n ≤ id.index)
    (hrun : (Edit.wrapUnion placement w id).run t = .ok w' t') :
    ShowsAll N P n t' := by
  rw [Edit.wrapUnion, Edit.run_get_bind] at hrun
  cases htype : t.unionType? id with
  | none =>
      rw [htype] at hrun
      exact (Edit.run_pure_eq_ok_iff.mp hrun).2 ▸ h
  | some type =>
      rw [htype] at hrun
      dsimp only at hrun
      obtain ⟨hvalue, hunion⟩ := Option.filter_eq_some_iff.mp htype
      obtain ⟨e, he, hv⟩ := Option.bind_eq_some_iff.mp hvalue
      have hcurrent : ∀ b ∈ type.bindings, t.Current b := fun b hb =>
        (h id e he hreach).current (isBoundAdditionalData_of_isUnion hv hunion)
          (List.mem_flatMap.mpr ⟨type, Element.mem_typeSlots_of_valueType? hv, hb⟩)
      cases howner : t.typeOwner? id with
      | none =>
          rw [howner] at hrun
          exact absurd hrun Edit.run_throw_ne_ok
      | some owner =>
          rw [howner] at hrun
          obtain ⟨site, t₁, hsite, hrest⟩ := Edit.run_bind_eq_ok_iff.mp hrun
          obtain ⟨⟨r', w₁⟩, t₂, hstand, hrest₂⟩ := Edit.run_bind_eq_ok_iff.mp hrest
          obtain ⟨_, t₃, hmodify, hpure⟩ := Edit.run_bind_eq_ok_iff.mp hrest₂
          obtain rfl := eq_of_run_wrapperSite hsite
          obtain ⟨-, rfl⟩ := Edit.run_pure_eq_ok_iff.mp hpure
          obtain ⟨hgrown, hr'⟩ :=
            grown_standIn (N := N) (P := P) (n := n) type w hcurrent hstand
          rw [Edit.run_modifyElement_eq_ok_iff] at hmodify
          rw [← hmodify]
          refine (hgrown.showsAll h).modify
            (fun e => Element.frame_mapValueType _ e) fun e₂ _ hshows b hb => ?_
          rcases Element.mem_bindings_setValueType hb with hb | ⟨hplain, hb⟩
          · exact Or.inl (hr' b hb)
          · exact Or.inl (hshows.current hplain hb)

theorem showsAll_wrapUnions {placement : WrapperPlacement} (hst : Stable t)
    (hn : n ≤ t.size) (hreach : ∀ x, Attached t x → P x ∨ n ≤ x.index)
    (h : ShowsAll N P n t) {u : Unit}
    (hrun : (Edit.wrapUnions placement).run t = .ok u t') : ShowsAll N P n t' := by
  obtain ⟨w, hrun⟩ := Edit.run_discard_eq_ok_iff.mp hrun
  refine (Edit.crawlWith_induction (I := fun w s =>
    (Steps (fun _ => True) n t s ∧ WrappersFit s w) ∧ ShowsAll N P n s) ?_
    ⟨⟨.refl, fun p hp => absurd hp List.not_mem_nil⟩, h⟩ hrun).2
  rintro w s id w' s' ⟨⟨hsteps, hw⟩, hs⟩ ha hvisit
  obtain ⟨hstable, hc⟩ := hst.steps hsteps
  have hid := hstable.toWellLinked.isAttached_iff.mp ha
  obtain ⟨hsteps', hw', -⟩ := steps_wrapUnion (K := fun _ => True) trivial trivial
    trivial hstable (Nat.le_trans hn hc.size_le)
    hid hw hvisit
  exact ⟨⟨hsteps.trans hsteps', hw'⟩, hs.wrapUnion
    ((attached_of_steps hst hsteps hid).elim (hreach id) Or.inr) hvisit⟩

/-! ## Trees of current names -/

/-- Every reference of an attached element that is bound to a class or enum
    shows its name. -/
def NamesCurrent (t : Tree) : Prop :=
  ∀ x e, Attached t x → t.get? x = some e →
    ∀ r ∈ e.references, ∀ d, r.definition? = some d →
    t.isDeclaration d = true → t.name? d = some r.name

/-- Whether names are current can be checked place by place. -/
theorem namesCurrent_of_forall
    (h : ∀ i < t.size, ∀ e ∈ t.get? ⟨i⟩, ∀ r ∈ e.references, ∀ d ∈ r.definition?,
      t.isDeclaration d = true → t.name? d = some r.name) : t.NamesCurrent := by
  intro x e _ he r hr d hd
  exact h x.index (index_lt_of_get? he) e he r hr d hd

/-- A tree that is accepted and shows current names does so wherever one looks. -/
theorem Stable.showsAll (h : Stable t)
    (hroot : ∀ e, t.get? t.root = some e → ∀ d ∈ e.targets, d.index < t.size)
    (hnames : t.NamesCurrent) : ShowsAll N (Attached t) t.size t := by
  intro x e he hx
  have hx : Attached t x := hx.resolve_right fun hnew =>
    absurd (index_lt_of_get? he) (Nat.not_lt.mpr hnew)
  intro b hb
  have htarget := Element.mem_targets_of_mem_bindings hb
  refine Or.inl ⟨?_, fun name hname => ?_⟩
  · rcases hx with rfl | hx
    · exact hroot e he b.2 htarget
    · exact h.toWellLinked.index_lt_of_attached ((h.fit x hx e he).2 b.2 htarget).1
  · rw [declaredName?] at hname
    split at hname
    next hdecl =>
      obtain ⟨r, hr, hd, hshown⟩ := Element.mem_bindings_iff.mp hb
      rw [← hshown]
      exact Option.some.inj ((hnames x e hx he r hr b.2 hd hdecl).symm.trans hname)
    · cases hname

/-- Where no binding is excused, names are current. -/
theorem ShowsAll.name?_eq (h : ShowsAll N P n t) {x : ElementId} {e : Element}
    (he : t.get? x = some e) (hx : P x ∨ n ≤ x.index) {r : TypeRef}
    (hr : r ∈ e.references) {d : ElementId} (hd : r.definition? = some d)
    (hdecl : t.isDeclaration d = true)
    (hexcused : ∀ p, e.property? = some p → p.kind = .additionalData →
      p.type.definition? = some d → N p.type.name → t.name? d = some p.type.name) :
    t.name? d = some r.name := by
  have hb : (r.name, d) ∈ e.bindings :=
    Element.mem_bindings_iff.mpr ⟨r, hr, hd, rfl⟩
  rcases h x e he hx (r.name, d) hb with ⟨hlt, hcurrent⟩ | ⟨hbound, hN, -⟩
  · obtain ⟨ed, hed⟩ := Option.isSome_iff_exists.mp ((get?_isSome_iff t d).mpr hlt)
    have hname : t.name? d = some ed.name := by rw [name?, hed, Option.map_some]
    have hshown : r.name = ed.name :=
      hcurrent ed.name (by rw [declaredName?, if_pos hdecl, hname])
    rw [hname, hshown]
  · -- Such a property refers to nothing else.
    obtain ⟨p, d', hp, hkind, hd'⟩ := Element.isBoundAdditionalData_iff.mp hbound
    rw [Element.bindings_eq_of_property? hp hd', List.mem_singleton] at hb
    obtain ⟨hname, rfl⟩ := Prod.mk.inj hb
    rw [hname]
    exact hexcused p hp hkind hd' (hname ▸ hN)

end Tree

/-! ## Passes and pipelines -/

/-- The name that a pass gives to the types of properties for additional data. -/
def Pass.additionalDataName? : Pass → Option String
  | correctTypes c => c.additionalData.map (·.typeName)
  | _ => none

/-- A pass keeps names current, but for those that it gives to the types of
    properties for additional data. -/
theorem Pass.showsAll_apply (pass : Pass) {t t' : Tree} {N : String → Prop}
    {P : ElementId → Prop} {n : Nat} {u : Unit}
    (hN : ∀ name, pass.additionalDataName? = some name → N name) (hst : Stable t)
    (hn : n ≤ t.size) (hreach : ∀ x, Attached t x → P x ∨ n ≤ x.index)
    (h : ShowsAll N P n t) (hrun : pass.apply.run t = .ok u t') :
    ShowsAll N P n t' := by
  cases pass with
  | seedImports defaults => exact showsAll_seedImports h hrun
  | moveIntoNamesakes => exact showsAll_moveIntoNamesakes h hrun
  | wrapUnions placement => exact showsAll_wrapUnions hst hn hreach h hrun
  | flattenInheritance => exact showsAll_flattenInheritance hst hn hreach h hrun
  | importReferenced ownNamespaceToo => exact showsAll_importReferenced h hrun
  | addAsyncSuffix suffix => exact showsAll_addAsyncSuffix h hrun
  | nestQueryClasses => exact showsAll_nestQueryClasses h hrun
  | implementInModels interface spec => exact showsAll_implementInModels h hrun
  | capitalizeNamespaces => exact showsAll_capitalizeNamespaces h hrun
  | replaceBinary typeName spec => exact showsAll_replaceBinary h hrun
  | makeEnumPropertiesNullable => exact showsAll_makeEnumPropertiesNullable h hrun
  | escapeReservedNames reserved style => exact showsAll_escapeReservedNames h hrun
  | disambiguateProperties suffix => exact showsAll_disambiguateProperties h hrun
  | addConstructors inheritingToo => exact showsAll_addConstructors h hrun
  | correctTypes c =>
      refine showsAll_correctTypes (fun a ha => hN a.typeName ?_) h hrun
      rw [additionalDataName?, ha, Option.map_some]
  | resolveImportPaths => exact showsAll_resolveImportPaths h hrun

namespace Pipeline

variable {p : Pipeline} {t t' : Tree} {u : Unit} {language : Language}

/-- The names that the passes give to the types of properties for additional
    data. -/
def additionalDataNames (p : Pipeline) : List String :=
  p.passes.filterMap Pass.additionalDataName?

/-- Through a list of passes names stay current but for the excused ones; by
    induction over the list, for what is attached now was before or has been
    made since. -/
theorem showsAll_of_forM {passes : List Pass} {N : String → Prop}
    {P : ElementId → Prop} {n : Nat}
    (hN : ∀ pass ∈ passes, ∀ name, pass.additionalDataName? = some name → N name)
    (hst : Stable t) (hn : n ≤ t.size)
    (hreach : ∀ x, Attached t x → P x ∨ n ≤ x.index) (h : ShowsAll N P n t)
    (hrun : (passes.forM (runPass language)).run t = .ok u t') :
    ShowsAll N P n t' := by
  induction passes generalizing t with
  | nil => exact run_forM_nil_eq_ok_iff.mp hrun ▸ h
  | cons pass rest ih =>
      obtain ⟨s, hfirst, hrest⟩ := run_forM_cons_eq_ok_iff.mp hrun
      have hsteps : Steps (fun _ => True) n t s :=
        pass.steps_apply (fun _ _ => trivial) hst hn hfirst
      obtain ⟨hs, hc⟩ := hst.steps hsteps
      have hfirst' :=
        pass.showsAll_apply (hN pass List.mem_cons_self) hst hn hreach h hfirst
      refine ih (fun q hq => hN q (List.mem_cons_of_mem _ hq)) hs
        (Nat.le_trans hn hc.size_le)
        (fun x hx => ?_) hfirst' hrest
      exact (attached_of_steps hst hsteps hx).elim (hreach x) Or.inr

/-- References to declarations show their names through every pipeline, in every
    slot and at every depth of unions, exactly when every property for
    additional data that is bound to a declaration under a name of some
    correction is bound to a declaration of that name. The hypothesis `hroot`
    asks that the references of the root lead to elements of the arena:
    well-formedness says so of every other attached element, and nothing of the
    root. -/
theorem namesCurrent_iff_of_run (hwf : WellFormed t)
    (hroot : ∀ e, t.get? t.root = some e → ∀ d ∈ e.targets, d.index < t.size)
    (hnames : t.NamesCurrent) (hrun : p.run.run t = .ok u t') :
    t'.NamesCurrent ↔ ∀ x q d, Attached t' x → t'.property? x = some q →
      q.kind = .additionalData →
      q.type.definition? = some d → q.type.name ∈ p.additionalDataNames →
        t'.name? d = some q.type.name := by
  obtain ⟨h, hsteps⟩ := steps_of_run hwf hrun
  obtain ⟨h', -⟩ := h.steps hsteps
  obtain ⟨-, hpasses⟩ := run_eq_ok_iff.mp hrun
  have hshows : ShowsAll (· ∈ p.additionalDataNames) (Attached t) t.size t' := by
    refine showsAll_of_forM (fun pass hpass name hname => ?_) h (Nat.le_refl _)
      (fun x hx => Or.inl hx)
      (h.showsAll hroot hnames) hpasses
    exact List.mem_filterMap.mpr ⟨pass, hpass, hname⟩
  constructor
  · intro hcurrent x q d hx hq _ hd _
    obtain ⟨e, he, hq⟩ := Option.bind_eq_some_iff.mp hq
    have hcontent : e.content = .property q := by
      rw [Element.property?] at hq
      cases hc : e.content <;> rw [hc] at hq <;> cases hq
      rfl
    have hr : q.type ∈ e.references := by
      rw [Element.references, Element.typeSlots, hcontent]
      exact List.mem_flatMap.mpr ⟨q.type, List.mem_singleton_self _,
        TypeRef.mem_walk_self q.type⟩
    -- A property is not the root, so it refers to declarations only.
    have hbelow : Ancestor t' t'.root x := by
      refine hx.resolve_left ?_
      rintro rfl
      obtain ⟨er, her, hkind⟩ := h'.toWellLinked.exists_root
      obtain rfl : er = e := Option.some.inj (her.symm.trans he)
      rw [Element.kind, hcontent] at hkind
      cases hkind
    have hdecl :=
      ((h'.fit x hbelow e he).2 d (List.mem_filterMap.mpr ⟨q.type, hr, hd⟩)).2
    exact hcurrent x e hx he q.type hr d hd hdecl
  · intro hexcused x e hx he r hr d hd hdecl
    refine hshows.name?_eq he (attached_of_steps h hsteps hx) hr hd hdecl
      fun q hq hkind hqd hname => ?_
    exact hexcused x q d hx
      (by rw [property?, he, Option.bind_some, hq]) hkind hqd hname

/-- A tree of a class of a reserved name and a class that inherits from it,
    refers to it in a union and has additional data. -/
def reservedUnion : Tree :=
  Operation.runAll
    [.addNew .classes ⟨0⟩ (.classDecl "delete" .model),
      .addNew .classes ⟨0⟩
        (.inheriting (.classDecl "Model" .model) (.declared "delete" ⟨1⟩)),
      .addNew .properties ⟨2⟩
        (.property "value" .custom
          (.union "Value" [.external "string", .declared "delete" ⟨1⟩])),
      .addNew .properties ⟨2⟩ (.property "more" .additionalData
        (.external "IDictionary<string, object>"))]
    initial

theorem wellFormed_reservedUnion : WellFormed reservedUnion :=
  (Operation.fullyNamed_runAll _ fullyNamed_initial).wellFormed

/-- The property of the wrapper refers to the escaped class by its name, and
    additional data has a new type. -/
theorem namesCurrent_of_run_reservedUnion :
    ∃ t', (Pipeline.ofConfiguration { language := .typescript }).run.run
      reservedUnion = .ok () t'
      ∧ t'.valueType? ⟨3⟩ = some (.declared "Value" ⟨5⟩)
      ∧ t'.valueType? ⟨7⟩ = some (.nullable (.declared "delete_escaped" ⟨1⟩))
      ∧ t'.valueType? ⟨4⟩ = some (.external "Map<string, unknown>")
      ∧ t'.NamesCurrent := by
  obtain ⟨t', hrun, hwrapped, hmember, hmore, hunbound⟩ :
      ∃ t', (Pipeline.ofConfiguration { language := .typescript }).run.run
        reservedUnion = .ok () t'
        ∧ t'.valueType? ⟨3⟩ = some (.declared "Value" ⟨5⟩)
        ∧ t'.valueType? ⟨7⟩ = some (.nullable (.declared "delete_escaped" ⟨1⟩))
        ∧ t'.valueType? ⟨4⟩ = some (.external "Map<string, unknown>")
        ∧ ∀ i < t'.size, ∀ q ∈ t'.property? ⟨i⟩, q.kind = .additionalData →
          q.type.definition? = none :=
    Configuration.exists_run_eq_ok (by decide +kernel)
  have hroot : ∀ e, reservedUnion.get? reservedUnion.root = some e →
      ∀ d ∈ e.targets, d.index < reservedUnion.size := by
    intro e he
    rw [← Option.some.inj he]
    exact fun d hd => absurd hd List.not_mem_nil
  have hnames : reservedUnion.NamesCurrent :=
    namesCurrent_of_forall (by decide +kernel)
  refine ⟨t', hrun, hwrapped, hmember, hmore,
    (namesCurrent_iff_of_run wellFormed_reservedUnion hroot hnames hrun).mpr ?_⟩
  intro x q d _ hq hkind hd
  obtain ⟨e, he, -⟩ := Option.bind_eq_some_iff.mp hq
  rw [hunbound x.index (index_lt_of_get? he) q hq hkind] at hd
  cases hd

/-- A tree of a class with additional data that is kept in an object of another
    class. -/
def dataBag : Tree :=
  Operation.runAll
    [.addNew .classes ⟨0⟩ (.classDecl "Bag" .model),
      .addNew .classes ⟨0⟩ (.classDecl "Model" .model),
      .addNew .properties ⟨2⟩
        (.property "extra" .additionalData (.declared "Bag" ⟨1⟩))]
    initial

/-- The correction of additional data names the type of a property anew that
    stays bound to a class of another name. -/
theorem exists_stale_of_run :
    WellFormed dataBag ∧ dataBag.validateReferences = .ok () ∧ dataBag.NamesCurrent
      ∧ ∃ t', (⟨.typescript,
        [.correctTypes { additionalData := some ⟨"Map", "new Map()"⟩ }]⟩ :
        Pipeline).run.run
          dataBag = .ok () t' ∧ ¬ t'.NamesCurrent := by
  obtain ⟨t', hrun, hclass, hproperty, hstale⟩ :
      ∃ t', (⟨.typescript,
        [.correctTypes { additionalData := some ⟨"Map", "new Map()"⟩ }]⟩ :
        Pipeline).run.run
          dataBag = .ok () t'
        ∧ t'.parent? ⟨2⟩ = some t'.root ∧ t'.parent? ⟨3⟩ = some ⟨2⟩
        ∧ ∃ r ∈ (t'.get? ⟨3⟩).elim [] Element.references, r.definition? = some ⟨1⟩
          ∧ t'.isDeclaration ⟨1⟩ = true ∧ t'.name? ⟨1⟩ ≠ some r.name :=
            exists_eq_ok (by decide +kernel)
  refine ⟨(Operation.fullyNamed_runAll _ fullyNamed_initial).wellFormed,
    by decide +kernel, namesCurrent_of_forall (by decide +kernel), t', hrun,
    fun hcurrent => ?_⟩
  obtain ⟨r, hr, hd, hdecl, hname⟩ := hstale
  cases he : t'.get? ⟨3⟩ with
  | none =>
      rw [he] at hr
      exact absurd hr List.not_mem_nil
  | some e =>
      rw [he] at hr
      exact hname (hcurrent ⟨3⟩ e (Or.inr (.above hproperty (.parent hclass))) he r
        hr ⟨1⟩ hd hdecl)

end Pipeline

end CodeModel
