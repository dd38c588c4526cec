import CodeModel.Proofs.Amendments
import CodeModel.Proofs.Copies
import CodeModel.Proofs.EditRuns
import CodeModel.Proofs.Labels

/-!
# Names that references show

A reference bound to a declaration shows a name. `TypeRef.bindings` lists what a
reference and the members of its unions are bound to, each with the name that is
shown there, and `Element.bindings` does so for an element. A binding is current
in a tree when its name is that of the declaration.

Most changes of an element show nothing new: `Repeats e e'` says that element
`e'` has bindings of `e` only. A renamed declaration takes the bindings to it
along, and nothing else changes the name of a declaration.

One slot may be allowed to show other names: the type of a property for
additional data. `Tree.Shows N e` says that each binding of `e` is current, or
stands in that slot under a name of which `N` holds.

* **`ShowsAll.repeats`**: changes that show nothing new keep every binding
  current.
* **`ShowsAll.rename`**: so does a renaming.
-/

namespace CodeModel

/-! ## Bindings -/

namespace TypeRef

/-- The declarations that a reference leads to, each with the name that is shown
    there. -/
def bindings (r : TypeRef) : List (String × ElementId) :=
  r.walk.filterMap fun s => s.definition?.map (s.name, ·)

/-- A binding is a bound reference in the walk, with the name that it shows. -/
theorem mem_bindings_iff {r : TypeRef} {b : String × ElementId} :
    b ∈ r.bindings ↔ ∃ s ∈ r.walk, s.definition? = some b.2 ∧ s.name = b.1 := by
  rw [bindings, List.mem_filterMap]
  refine exists_congr fun s => and_congr_right fun _ => ?_
  constructor
  · intro h
    obtain ⟨d, hd, rfl⟩ := Option.map_eq_some_iff.mp h
    exact ⟨hd, rfl⟩
  · rintro ⟨hd, hname⟩
    rw [hd, Option.map_some, hname]

/-- A bound reference has itself as its one binding. -/
theorem bindings_of_definition? {r : TypeRef} {d : ElementId}
    (h : r.definition? = some d) : r.bindings = [(r.name, d)] := by
  obtain ⟨name, target, isNullable, isCollection⟩ := r
  cases target with
  | declared id =>
      obtain rfl : id = d := Option.some.inj h
      rfl
  | external => cases h
  | union members => cases h

/-- The name of a reference that is not bound is shown nowhere. -/
theorem bindings_of_definition?_eq_none {r : TypeRef} (h : r.definition? = none) :
    r.bindings = r.target.walk.filterMap fun s =>
      s.definition?.map (s.name, ·) := by
  obtain ⟨name, target, isNullable, isCollection⟩ := r
  rw [bindings, walk, List.filterMap_cons_none]
  rw [definition?] at h ⊢
  rw [h]
  rfl

/-- Bindings are told by the name and the target. -/
theorem bindings_congr {r s : TypeRef} (hname : r.name = s.name)
    (htarget : r.target = s.target) : r.bindings = s.bindings := by
  obtain ⟨name, target, isNullable, isCollection⟩ := r
  obtain ⟨name', target', isNullable', isCollection'⟩ := s
  obtain rfl : name = name' := hname
  obtain rfl : target = target' := htarget
  cases target <;> rfl

/-- The bindings of a union are those of its members. -/
theorem bindings_union (name : String) (members : List TypeRef)
    (isNullable isCollection : Bool) :
    (TypeRef.mk name (.union members) isNullable isCollection).bindings
      = members.flatMap bindings := by
  rw [bindings_of_definition?_eq_none rfl, TypeTarget.walk, walkAll_eq_flatMap,
    List.filterMap_flatMap]
  rfl

/-- Renamed references keep what they are bound to, and show the new names. -/
theorem bindings_rename (f : TypeRef → String) (r : TypeRef) :
    (r.rename f).bindings = r.walk.filterMap fun s =>
      s.definition?.map (f s, ·) := by
  rw [bindings, walk_rename, List.filterMap_map]
  refine List.filterMap_congr fun s _ => ?_
  show (s.rename f).definition?.map ((s.rename f).name, ·) = _
  rw [definition?_rename, name_rename]

/-- Renaming what is not bound shows no other names. -/
theorem bindings_rename_of_bound {f : TypeRef → String}
    (hf : ∀ s d, definition? s = some d → f s = s.name) (r : TypeRef) :
    (r.rename f).bindings = r.bindings := by
  rw [bindings_rename, bindings]
  refine List.filterMap_congr fun s _ => ?_
  cases hd : s.definition? with
  | none => rfl
  | some d => rw [hf s d hd]

/-- References bound anew keep the names that they show. -/
theorem bindings_rebind (f : ElementId → ElementId) (r : TypeRef) :
    (r.rebind f).bindings = r.bindings.map fun b => (b.1, f b.2) := by
  rw [bindings, bindings, walk_rebind, List.filterMap_map, List.map_filterMap]
  refine List.filterMap_congr fun s _ => ?_
  obtain ⟨name, target, isNullable, isCollection⟩ := s
  cases target <;> rfl

/-- A bound reference is bound to the image of its definition. -/
theorem definition?_rebind (f : ElementId → ElementId) {r : TypeRef} {d : ElementId}
    (h : r.definition? = some d) : (r.rebind f).definition? = some (f d) := by
  obtain ⟨name, target, isNullable, isCollection⟩ := r
  cases target with
  | declared id =>
      obtain rfl : id = d := Option.some.inj h
      rfl
  | external => cases h
  | union members => cases h

/-- Only unbound references show binary data. -/
theorem bindings_replaceBinary (typeName : String) (r : TypeRef) :
    (r.replaceBinary typeName).bindings = r.bindings := by
  refine bindings_rename_of_bound (fun s d hd => if_neg fun hbinary => ?_) r
  rw [isBinary, isExternal_of_definition? hd] at hbinary
  cases hbinary

/-- Only unbound references are corrected. -/
theorem bindings_correctNames (renames : NameMap String) (r : TypeRef) :
    (r.correctNames renames).bindings = r.bindings := by
  refine bindings_rename_of_bound (fun s d hd => if_neg fun hexternal => ?_) r
  rw [isExternal_of_definition? hd] at hexternal
  cases hexternal

end TypeRef

namespace Element

/-- The declarations that an element refers to, each with the name that is shown
    there. -/
def bindings (e : Element) : List (String × ElementId) :=
  e.typeSlots.flatMap TypeRef.bindings

/-- Whether the element is a property for additional data of a bound type. -/
def isBoundAdditionalData (e : Element) : Bool :=
  e.property?.any fun p => p.kind = .additionalData ∧ p.type.definition?.isSome

/-- The bindings of an element are those of its references. -/
theorem mem_bindings_iff {e : Element} {b : String × ElementId} :
    b ∈ e.bindings ↔ ∃ r ∈ e.references, r.definition? = some b.2
      ∧ r.name = b.1 := by
  rw [bindings, references, List.mem_flatMap]
  constructor
  · rintro ⟨slot, hslot, hb⟩
    obtain ⟨r, hr, h⟩ := TypeRef.mem_bindings_iff.mp hb
    exact ⟨r, List.mem_flatMap.mpr ⟨slot, hslot, hr⟩, h⟩
  · rintro ⟨r, hr, h⟩
    obtain ⟨slot, hslot, hr⟩ := List.mem_flatMap.mp hr
    exact ⟨slot, hslot, TypeRef.mem_bindings_iff.mpr ⟨r, hr, h⟩⟩

/-- What an element shows the name of it refers to. -/
theorem mem_targets_of_mem_bindings {e : Element} {b : String × ElementId}
    (h : b ∈ e.bindings) : b.2 ∈ e.targets := by
  obtain ⟨r, hr, hd, -⟩ := mem_bindings_iff.mp h
  exact List.mem_filterMap.mpr ⟨r, hr, hd⟩

/-- Changing types changes the bindings slot by slot. -/
theorem bindings_mapTypes (f : TypeRef → TypeRef) (e : Element) :
    (e.mapTypes f).bindings = e.typeSlots.flatMap fun r => (f r).bindings := by
  rw [bindings, typeSlots_mapTypes, List.flatMap_map]

/-- A property for additional data, bound to a declaration. -/
theorem isBoundAdditionalData_iff {e : Element} :
    e.isBoundAdditionalData = true ↔
      ∃ p d, e.property? = some p ∧ p.kind = .additionalData
        ∧ p.type.definition? = some d := by
  rw [isBoundAdditionalData, Option.any_eq_true]
  constructor
  · rintro ⟨p, hp, h⟩
    obtain ⟨hkind, hbound⟩ := of_decide_eq_true h
    obtain ⟨d, hd⟩ := Option.isSome_iff_exists.mp hbound
    exact ⟨p, d, hp, hkind, hd⟩
  · rintro ⟨p, d, hp, hkind, hd⟩
    exact ⟨p, hp, decide_eq_true ⟨hkind, by rw [hd]; rfl⟩⟩

/-- What a property for additional data of a bound type refers to is that one
    declaration. -/
theorem bindings_eq_of_property? {e : Element} {p : PropertyDecl} {d : ElementId}
    (hp : e.property? = some p) (hd : p.type.definition? = some d) :
    e.bindings = [(p.type.name, d)] := by
  have hcontent : e.content = .property p := by
    rw [property?] at hp
    cases hc : e.content <;> rw [hc] at hp <;> cases hp
    rfl
  rw [bindings, typeSlots, hcontent, Content.typeSlots, List.flatMap_cons,
    List.flatMap_nil, List.append_nil, TypeRef.bindings_of_definition? hd]

/-! ## Changes that show nothing new -/

/-- Element `e'` shows what `e` shows, or less of it, and is a property for
    additional data of a bound type if `e` is one. -/
structure Repeats (e e' : Element) : Prop where
  bindings_subset : ∀ b ∈ e'.bindings, b ∈ e.bindings
  additional : e.isBoundAdditionalData = true → e'.isBoundAdditionalData = true

theorem repeats_refl (e : Element) : Repeats e e :=
  ⟨fun _ h => h, fun h => h⟩

/-- A change under a condition repeats if it does where it is made. -/
theorem Repeats.ite {f : Element → Element} (hf : ∀ e, Repeats e (f e)) (p : Prop)
    [Decidable p] (e : Element) : Repeats e (if p then f e else e) := by
  split
  · exact hf e
  · exact repeats_refl e

/-- What an element shows is told by its content. -/
theorem repeats_of_content_eq {e e' : Element} (h : e'.content = e.content) :
    Repeats e e' := by
  refine ⟨fun b hb => ?_, fun ha => ?_⟩
  · rwa [bindings, typeSlots, h] at hb
  · rwa [isBoundAdditionalData, property?, h]

theorem repeats_withName (name : String) (e : Element) :
    Repeats e (e.withName name) := by
  obtain ⟨oldName, parent, children, description, content⟩ := e
  cases content <;> exact ⟨fun _ h => h, fun h => h⟩

theorem repeats_keepWireName (name : String) (e : Element) :
    Repeats e (e.keepWireName name) := by
  obtain ⟨oldName, parent, children, description, content⟩ := e
  cases content <;> exact ⟨fun _ h => h, fun h => h⟩

/-- A change of classes that brings no type in. -/
theorem repeats_mapClass {f : ClassDecl → ClassDecl}
    (htypes : ∀ c, ∀ r ∈ (Content.classDecl (f c)).typeSlots,
      r ∈ (Content.classDecl c).typeSlots ∨ r.bindings = [])
    (e : Element) : Repeats e (e.mapClass f) := by
  obtain ⟨name, parent, children, description, content⟩ := e
  cases content with
  | classDecl c =>
      refine ⟨fun b hb => ?_, fun h => h⟩
      obtain ⟨r, hr, hb⟩ := List.mem_flatMap.mp hb
      rcases htypes c r hr with hr | hnil
      · exact List.mem_flatMap.mpr ⟨r, hr, hb⟩
      · rw [hnil] at hb
        exact absurd hb List.not_mem_nil
  | _ => exact ⟨fun _ h => h, fun h => h⟩

/-- Without inheritance less is shown. -/
theorem repeats_dropInheritance (e : Element) :
    Repeats e (e.mapClass fun c => { c with inherits := none }) := by
  refine repeats_mapClass (f := fun c => { c with inherits := none })
    (fun c r hr => Or.inl ?_) e
  show r ∈ c.inherits.toList ++ c.implements ++ c.imports.filterMap (·.symbol)
  rw [List.append_assoc]
  exact List.mem_append_right _ hr

/-- With fewer imports, too. -/
theorem repeats_filterImports (p : Import → Bool) (e : Element) :
    Repeats e (e.mapClass fun c => { c with imports := c.imports.filter p }) := by
  refine repeats_mapClass (f := fun c => { c with imports := c.imports.filter p })
    (fun c r hr => Or.inl ?_) e
  rcases List.mem_append.mp hr with hr | hr
  · exact List.mem_append_left _ hr
  · exact List.mem_append_right _ (((List.filter_sublist).filterMap _).subset hr)

/-- An interface known by its name alone is bound to nothing. -/
theorem repeats_addInterface (name : String) (e : Element) :
    Repeats e (e.mapClass (·.addInterface (.external name))) := by
  refine repeats_mapClass (f := (·.addInterface (.external name)))
    (fun c r hr => ?_) e
  rw [ClassDecl.addInterface] at hr
  split at hr
  · exact Or.inl hr
  · have hr' : r ∈ c.inherits.toList ++ (c.implements ++ [.external name])
      ++ c.imports.filterMap (·.symbol) := hr
    simp only [List.mem_append, List.mem_singleton] at hr'
    rcases hr' with (hr' | hr' | rfl) | hr'
    · exact Or.inl (List.mem_append_left _ (List.mem_append_left _ hr'))
    · exact Or.inl (List.mem_append_left _ (List.mem_append_right _ hr'))
    · exact Or.inr rfl
    · exact Or.inl (List.mem_append_right _ hr')

/-- A change of imports shows what it brings in, and else nothing new. -/
theorem mem_bindings_mapImports {f : List Import → List Import} {e : Element}
    {b : String × ElementId} (h : b ∈ (e.mapImports f).bindings) :
    b ∈ e.bindings ∨ ∃ i ∈ f e.imports, ∃ r, i.symbol = some r
      ∧ b ∈ r.bindings := by
  obtain ⟨name, parent, children, description, content⟩ := e
  obtain ⟨r, hr, hb⟩ := List.mem_flatMap.mp h
  cases content with
  | namespaceDecl imports =>
      obtain ⟨i, hi, hsymbol⟩ := List.mem_filterMap.mp hr
      exact Or.inr ⟨i, hi, r, hsymbol, hb⟩
  | classDecl c =>
      rcases List.mem_append.mp hr with hr | hr
      · exact Or.inl (List.mem_flatMap.mpr ⟨r, List.mem_append_left _ hr, hb⟩)
      · obtain ⟨i, hi, hsymbol⟩ := List.mem_filterMap.mp hr
        exact Or.inr ⟨i, hi, r, hsymbol, hb⟩
  | _ => exact Or.inl (List.mem_flatMap.mpr ⟨r, hr, hb⟩)

/-- What an import shows, the element that holds it shows. -/
theorem mem_bindings_of_symbol {e : Element} {i : Import} (hi : i ∈ e.imports)
    {r : TypeRef} (hr : i.symbol = some r) {b : String × ElementId}
    (hb : b ∈ r.bindings) : b ∈ e.bindings := by
  have hslot : r ∈ e.imports.filterMap (·.symbol) :=
    List.mem_filterMap.mpr ⟨i, hi, hr⟩
  refine List.mem_flatMap.mpr ⟨r, ?_, hb⟩
  rw [imports, imports?] at hslot
  rw [typeSlots]
  cases hc : e.content <;> rw [hc] at hslot
  case namespaceDecl imports => exact hslot
  case classDecl c => exact List.mem_append_right _ hslot
  all_goals exact absurd hslot List.not_mem_nil

theorem isBoundAdditionalData_mapImports (f : List Import → List Import)
    (e : Element) :
    (e.mapImports f).isBoundAdditionalData = e.isBoundAdditionalData := by
  obtain ⟨name, parent, children, description, content⟩ := e
  cases content <;> rfl

/-- Imports that bring in what imports before brought in show nothing new. -/
theorem repeats_mapImports {f : List Import → List Import} {e : Element}
    (h : ∀ i ∈ f e.imports, ∀ r, i.symbol = some r → r.bindings = []
      ∨ ∃ j ∈ e.imports, j.symbol = some r) : Repeats e (e.mapImports f) := by
  refine ⟨fun b hb => ?_, fun ha => (isBoundAdditionalData_mapImports f e).trans ha⟩
  rcases mem_bindings_mapImports hb with hb | ⟨i, hi, r, hr, hb⟩
  · exact hb
  · rcases h i hi r hr with hnil | ⟨j, hj, hsymbol⟩
    · rw [hnil] at hb
      exact absurd hb List.not_mem_nil
    · exact mem_bindings_of_symbol hj hsymbol hb

theorem repeats_addSpecs {new : List Import}
    (hnew : ∀ i ∈ new, ∃ s : ImportSpec, i = s.toImport) (e : Element) :
    Repeats e (e.mapImports fun _ => Import.addImports e.imports new) := by
  refine repeats_mapImports fun i hi r hr => ?_
  rcases Import.mem_addImports hi with hi | hi
  · exact Or.inr ⟨i, hi, hr⟩
  · obtain ⟨s, rfl⟩ := hnew i hi
    refine Or.inl (List.eq_nil_iff_forall_not_mem.mpr fun b hb => ?_)
    obtain ⟨q, hq, hd, -⟩ := TypeRef.mem_bindings_iff.mp hb
    have hmem : b.2 ∈ r.definitions := List.mem_filterMap.mpr ⟨q, hq, hd⟩
    rw [ImportSpec.definitions_toImport hr] at hmem
    exact absurd hmem List.not_mem_nil

/-- A change of the type of a value that neither binds anything nor shows
    another name. -/
theorem repeats_mapValueType {f : TypeRef → TypeRef}
    (hbindings : ∀ r, (f r).bindings = r.bindings)
    (hdefinition : ∀ r, (f r).definition? = r.definition?) (e : Element) :
    Repeats e (e.mapValueType f) := by
  refine ⟨fun b hb => ?_, fun ha => ?_⟩
  · rw [bindings, typeSlots, mapValueType, mapContent] at hb
    rw [bindings, typeSlots]
    cases hc : e.content <;> simp_all [Content.typeSlots]
  · obtain ⟨p, d, hp, hkind, hd⟩ := isBoundAdditionalData_iff.mp ha
    refine isBoundAdditionalData_iff.mpr ⟨{ p with type := f p.type }, d, ?_, hkind,
      (hdefinition p.type).trans hd⟩
    rw [property?] at hp
    rw [property?, mapValueType, mapContent]
    cases hc : e.content <;> rw [hc] at hp <;> cases hp
    rfl

/-- A type put in the place of another is shown, and what other slots show, of a
    thing that is no property. -/
theorem mem_bindings_setValueType {r : TypeRef} {e : Element}
    {b : String × ElementId} (h : b ∈ (e.mapValueType fun _ => r).bindings) :
    b ∈ r.bindings ∨ e.isBoundAdditionalData = false ∧ b ∈ e.bindings := by
  obtain ⟨name, parent, children, description, content⟩ := e
  obtain ⟨s, hs, hb⟩ := List.mem_flatMap.mp h
  cases content with
  | method m =>
      obtain rfl : s = r := List.mem_singleton.mp hs
      exact Or.inl hb
  | property p =>
      obtain rfl : s = r := List.mem_singleton.mp hs
      exact Or.inl hb
  | parameter p =>
      obtain rfl : s = r := List.mem_singleton.mp hs
      exact Or.inl hb
  | indexer i =>
      rcases List.mem_cons.mp hs with rfl | hs
      · exact Or.inr ⟨rfl, List.mem_flatMap.mpr ⟨_, List.mem_cons_self, hb⟩⟩
      · obtain rfl : s = r := List.mem_singleton.mp hs
        exact Or.inl hb
  | _ => exact Or.inr ⟨rfl, List.mem_flatMap.mpr ⟨s, hs, hb⟩⟩

/-- A copy that refers to what its source refers to shows what that shows. -/
theorem repeats_copiedElement {source s : ElementId} {image : ElementId → ElementId}
    {e : Element} (himage : ∀ d ∈ e.targets, image d = d) :
    Repeats e (Tree.copiedElement source image s e) := by
  refine ⟨fun b hb => ?_, fun ha => ?_⟩
  · rw [Tree.copiedElement, bindings_mapTypes] at hb
    obtain ⟨r, hr, hb⟩ := List.mem_flatMap.mp hb
    rw [TypeRef.bindings_rebind] at hb
    obtain ⟨shown, hshown, rfl⟩ := List.mem_map.mp hb
    have hmem : shown ∈ e.bindings := List.mem_flatMap.mpr ⟨r, hr, hshown⟩
    rwa [himage shown.2 (mem_targets_of_mem_bindings hmem)]
  · obtain ⟨p, d, hp, hkind, hd⟩ := isBoundAdditionalData_iff.mp ha
    refine isBoundAdditionalData_iff.mpr ⟨{ p with type := p.type.rebind image },
      image d, ?_, hkind, TypeRef.definition?_rebind image hd⟩
    obtain ⟨name, parent, children, description, content⟩ := e
    cases content <;> cases hp
    rfl

/-- A nullable type shows the same name. -/
theorem repeats_makeNullable (e : Element) :
    Repeats e (e.mapProperty fun p => { p with type := p.type.nullable }) := by
  obtain ⟨name, parent, children, description, content⟩ := e
  cases content with
  | property p =>
      refine ⟨fun b hb => ?_, fun h => h⟩
      have hsame : p.type.nullable.bindings = p.type.bindings :=
        TypeRef.bindings_congr rfl rfl
      simp only [bindings, typeSlots, mapProperty, mapContent, Content.typeSlots,
        List.flatMap_cons, List.flatMap_nil, List.append_nil, hsame] at hb ⊢
      exact hb
  | _ => exact repeats_refl _

end Element

/-! ## Bindings that are current -/

namespace Tree

variable {t t' : Tree} {N : String → Prop} {P : ElementId → Prop} {n : Nat}

/-- The name of a class or enum. -/
def declaredName? (t : Tree) (id : ElementId) : Option String :=
  if t.isDeclaration id then t.name? id else none

/-- The binding leads to an element, and shows its name if that is a
    declaration. -/
def Current (t : Tree) (b : String × ElementId) : Prop :=
  b.2.index < t.size ∧ ∀ name, t.declaredName? b.2 = some name → b.1 = name

/-- Every binding of the element is current, unless it is the one type of a
    property for additional data and shows a name of which `N` holds. -/
def Shows (t : Tree) (N : String → Prop) (e : Element) : Prop :=
  ∀ b ∈ e.bindings, t.Current b
    ∨ (e.isBoundAdditionalData = true ∧ N b.1 ∧ b.2.index < t.size)

/-- So it is for the elements that `P` holds of, and for all that were made from
    the place `n` on. -/
def ShowsAll (N : String → Prop) (P : ElementId → Prop) (n : Nat)
    (t : Tree) : Prop :=
  ∀ x e, t.get? x = some e → P x ∨ n ≤ x.index → t.Shows N e

/-- Tree `t'` has the declarations of `t` under their names, and no other
    element of `t` has become one. -/
structure SameNames (t t' : Tree) : Prop where
  size_le : t.size ≤ t'.size
  declaredName?_eq : ∀ d, d.index < t.size → t'.declaredName? d = t.declaredName? d

theorem SameNames.refl (t : Tree) : SameNames t t :=
  ⟨Nat.le_refl _, fun _ _ => rfl⟩

theorem SameNames.trans {t'' : Tree} (h : SameNames t t') (h' : SameNames t' t'') :
    SameNames t t'' :=
  ⟨Nat.le_trans h.size_le h'.size_le, fun d hd =>
    (h'.declaredName?_eq d (Nat.lt_of_lt_of_le hd h.size_le)).trans
    (h.declaredName?_eq d hd)⟩

/-- Names of declarations are told by names and kinds. -/
theorem sameNames_of_eq (hsize : t'.size = t.size)
    (hkind : ∀ d, t'.kind? d = t.kind? d) (hname : ∀ d, t'.name? d = t.name? d) :
    SameNames t t' := by
  refine ⟨Nat.le_of_eq hsize.symm, fun d _ => ?_⟩
  rw [declaredName?, declaredName?, isDeclaration, isDeclaration, hkind, hname]

theorem SameFrames.sameNames (h : SameFrames t t') : SameNames t t' :=
  sameNames_of_eq h.samePlaces.size_eq h.samePlaces.kind?_eq h.name?_eq

theorem Relinked.sameNames (h : Relinked t t') : SameNames t t' :=
  sameNames_of_eq h.size_eq h.kind?_eq h.name?_eq

/-- A new element names no declaration that was there. -/
theorem sameNames_push (t : Tree) (e : Element) : SameNames t (t.push e) := by
  refine ⟨by rw [size_push]; exact Nat.le_succ _, fun d hd => ?_⟩
  obtain ⟨ed, hed⟩ := Option.isSome_iff_exists.mp ((get?_isSome_iff t d).mpr hd)
  rw [declaredName?, declaredName?, isDeclaration, isDeclaration, kind?, kind?,
    name?, name?, get?_push_of_get? hed, hed]

/-- A binding that is current stays so while declarations keep their names. -/
theorem Current.carry (h : SameNames t t') {b : String × ElementId}
    (hb : t.Current b) : t'.Current b := by
  refine ⟨Nat.lt_of_lt_of_le hb.1 h.size_le, fun name hname => hb.2 name ?_⟩
  rwa [h.declaredName?_eq b.2 hb.1] at hname

/-- What repeats what was shown shows what is current. -/
theorem Shows.repeats (h : SameNames t t') {e e' : Element} (he : t.Shows N e)
    (hrep : Element.Repeats e e') : t'.Shows N e' := by
  intro b hb
  refine (he b (hrep.bindings_subset b hb)).imp (·.carry h) fun hexcused => ?_
  exact ⟨hrep.additional hexcused.1, hexcused.2.1,
    Nat.lt_of_lt_of_le hexcused.2.2 h.size_le⟩

/-- Without anything excused all bindings have to be current. -/
theorem shows_of_current {e : Element} (h : ∀ b ∈ e.bindings, t.Current b) :
    t.Shows N e :=
  fun b hb => Or.inl (h b hb)

/-- What is not the type of a property for additional data is current. -/
theorem Shows.current {e : Element} (h : t.Shows N e)
    (hplain : e.isBoundAdditionalData = false) {b : String × ElementId}
    (hb : b ∈ e.bindings) : t.Current b := by
  refine (h b hb).resolve_right fun hexcused => ?_
  rw [hplain] at hexcused
  exact Bool.false_ne_true hexcused.1

/-- A change of every element keeps what is shown if it does so element by
    element. -/
theorem ShowsAll.changedBy {F : ElementId → Element → Element}
    (h : ShowsAll N P n t) (hF : ChangedBy F t t')
    (hshow : ∀ x e, t.get? x = some e → t.Shows N e → t'.Shows N (F x e)) :
    ShowsAll N P n t' := by
  intro x e' he' hx
  obtain ⟨e, he, rfl⟩ := hF.exists_of_get? he'
  exact hshow x e he (h x e he hx)

/-- Changes that show nothing new keep every binding current. -/
theorem ShowsAll.repeats {F : ElementId → Element → Element} (h : ShowsAll N P n t)
    (hF : ChangedBy F t t') (hnames : SameNames t t')
    (hrep : ∀ x e, t.get? x = some e → Element.Repeats e (F x e)) :
    ShowsAll N P n t' :=
  h.changedBy hF fun x e he hshows => hshows.repeats hnames (hrep x e he)

theorem ShowsAll.modify {id : ElementId} {f : Element → Element}
    (h : ShowsAll N P n t) (hframe : ∀ e, (f e).frame = e.frame)
    (hf : ∀ e, t.get? id = some e → t.Shows N e → t.Shows N (f e)) :
    ShowsAll N P n (t.modify id f) := by
  have hnames := (sameFrames_modify t id hframe).sameNames
  refine h.changedBy (changedBy_modify t id f) fun x e he hshows => ?_
  by_cases hx : x = id
  · rw [if_pos hx]
    exact (hf e (hx ▸ he) hshows).repeats hnames (Element.repeats_refl _)
  · rw [if_neg hx]
    exact hshows.repeats hnames (Element.repeats_refl _)

theorem ShowsAll.modify_repeats {id : ElementId} {f : Element → Element}
    (h : ShowsAll N P n t) (hframe : ∀ e, (f e).frame = e.frame)
    (hf : ∀ e, t.get? id = some e → Element.Repeats e (f e)) :
    ShowsAll N P n (t.modify id f) :=
  h.modify hframe fun e he hshows => hshows.repeats (SameNames.refl t) (hf e he)

/-- A new element has to show current names itself. -/
theorem ShowsAll.push {e : Element} (h : ShowsAll N P n t) (he : t.Shows N e) :
    ShowsAll N P n (t.push e) := by
  have hnames := sameNames_push t e
  intro x ex hex hx
  rw [get?_push] at hex
  split at hex
  · rw [← Option.some.inj hex]
    exact he.repeats hnames (Element.repeats_refl e)
  · exact (h x ex hex hx).repeats hnames (Element.repeats_refl ex)

/-- Links show no names. -/
theorem ShowsAll.relinked (h : ShowsAll N P n t) (hsame : Relinked t t') :
    ShowsAll N P n t' := by
  intro x e' he' hx
  obtain ⟨e, he, -, hcontent⟩ := hsame.exists_get? he'
  exact (h x e he hx).repeats hsame.sameNames
    (Element.repeats_of_content_eq hcontent)

/-- Taking out shows nothing new. -/
theorem ShowsAll.detach {holder child : ElementId} (h : ShowsAll N P n t) :
    ShowsAll N P n (t.detach holder child).2 := by
  by_cases hc : child ∈ t.children holder
  · exact h.relinked (relinked_detach hc)
  · rw [Tree.detach, if_neg hc]
    exact h

/-- A refreshed import is bound as it was, under the name of its symbol. -/
theorem repeats_refreshImports (scope : ElementId) (e : Element) :
    Element.Repeats e (e.mapImports (·.map (t.refreshImport scope))) := by
  refine Element.repeats_mapImports fun i hi r hr => Or.inr ?_
  obtain ⟨j, hj, rfl⟩ := List.mem_map.mp hi
  rw [symbol_refreshImport] at hr
  exact ⟨j, hj, hr⟩

/-- Naming imports anew shows nothing new. -/
theorem ShowsAll.rebindImports {scope : ElementId} (h : ShowsAll N P n t) :
    ShowsAll N P n (t.rebindImports scope) :=
  h.repeats (changedBy_rebindImports t scope)
    (sameFrames_rebindImports t scope).sameNames
    fun _ e _ => repeats_refreshImports scope e

/-! ## Renaming -/

/-- An element that is no declaration may be called anything. -/
theorem ShowsAll.withName {id : ElementId} {name : String} (h : ShowsAll N P n t)
    (hdecl : t.isDeclaration id = false) :
    ShowsAll N P n (t.modify id (Element.withName name)) := by
  have hchange := changedBy_modify t id (Element.withName name)
  have hsame : SamePlaces t (t.modify id (Element.withName name)) := by
    refine hchange.samePlaces fun x e _ => ?_
    by_cases hx : x = id
    · rw [if_pos hx]
      exact Element.place_withName name e
    · rw [if_neg hx]
  refine h.repeats hchange ⟨Nat.le_of_eq hsame.size_eq.symm, fun d _ => ?_⟩
    fun x e _ => Element.Repeats.ite (Element.repeats_withName name) (x = id) e
  rw [declaredName?, declaredName?, hsame.isDeclaration_eq]
  by_cases hd : d = id
  · rw [hd, hdecl]
    rfl
  · rw [name?, get?_modify, if_neg hd]
    rfl

/-- What renaming the declaration `id` makes of the element `x`, imports apart. -/
def boundElement (id : ElementId) (name : String) (x : ElementId) (e : Element) :
    Element :=
  (if x = id then e.withName name else e).mapTypes
    (·.rename fun r => if r.definition? = some id then name else r.name)

/-- Renaming with its references is one change of every element. -/
theorem changedBy_renameBound (t : Tree) (id : ElementId) (name : String) :
    ChangedBy (boundElement id name) t
      ((t.modify id (Element.withName name)).renameBound id name) :=
  (changedBy_modify t id (Element.withName name)).trans
    (changedBy_renameReferences _ _)

/-- Only the renamed element has another name. -/
theorem name_boundElement (id : ElementId) (name : String) (x : ElementId)
    (e : Element) :
    (boundElement id name x e).name = if x = id then name else e.name := by
  rw [boundElement, Element.name_eq_of_frame_eq (Element.frame_mapTypes _ _)]
  split <;> rfl

theorem samePlaces_renameBound (t : Tree) (id : ElementId) (name : String) :
    SamePlaces t ((t.modify id (Element.withName name)).renameBound id name) := by
  refine (changedBy_renameBound t id name).samePlaces fun x e _ => ?_
  rw [boundElement, Element.place_eq_of_frame_eq (Element.frame_mapTypes _ _)]
  split
  · exact Element.place_withName name e
  · rfl

/-- Of declarations, too, only the renamed one has another name. -/
theorem declaredName?_renameBound (t : Tree) (id : ElementId) (name : String)
    (d : ElementId) :
    ((t.modify id (Element.withName name)).renameBound id name).declaredName? d =
      if d = id then (t.declaredName? d).map fun _ =>
        name else t.declaredName? d := by
  rw [declaredName?, declaredName?,
    (samePlaces_renameBound t id name).isDeclaration_eq, name?, name?,
    (changedBy_renameBound t id name).get?_eq]
  cases t.get? d with
  | none => simp
  | some e =>
      simp only [Option.map_some, name_boundElement]
      split <;> split <;> rfl

/-- A binding of the renamed element is one of the element, under the name that
    is shown then. -/
theorem exists_of_mem_bindings_boundElement {id x : ElementId} {name : String}
    {e : Element} {b : String × ElementId}
    (h : b ∈ (boundElement id name x e).bindings) :
    ∃ shown, (shown, b.2) ∈ e.bindings
      ∧ b.1 = if b.2 = id then name else shown := by
  obtain ⟨r', hr', hd, hname⟩ := Element.mem_bindings_iff.mp h
  rw [boundElement, Element.references_rename] at hr'
  obtain ⟨r, hr, rfl⟩ := List.mem_map.mp hr'
  rw [TypeRef.definition?_rename] at hd
  rw [TypeRef.name_rename, hd] at hname
  have hold : (r.name, b.2) ∈ (if x = id then e.withName name else e).bindings :=
    Element.mem_bindings_iff.mpr ⟨r, hr, hd, rfl⟩
  refine ⟨r.name,
    (Element.Repeats.ite (Element.repeats_withName name) (x = id) e).bindings_subset
    _ hold, ?_⟩
  rw [← hname]
  simp only [Option.some.injEq]

/-- A property for additional data stays one, under whatever name. -/
theorem isBoundAdditionalData_boundElement {id x : ElementId} {name : String}
    {e : Element} (h : e.isBoundAdditionalData = true) :
    (boundElement id name x e).isBoundAdditionalData = true := by
  have hnamed :=
    (Element.Repeats.ite (Element.repeats_withName name) (x = id) e).additional h
  rw [boundElement]
  generalize (if x = id then e.withName name else e) = e' at hnamed
  obtain ⟨p, d, hp, hkind, hd⟩ := Element.isBoundAdditionalData_iff.mp hnamed
  refine Element.isBoundAdditionalData_iff.mpr
    ⟨{ p with type := p.type.rename fun r => if r.definition? = some id then name
      else r.name }, d, ?_, hkind, (TypeRef.definition?_rename _ _).trans hd⟩
  rw [Element.property?] at hp
  rw [Element.property?, Element.mapTypes, Element.mapContent]
  cases hc : e'.content <;> rw [hc] at hp <;> cases hp
  rfl

/-- A declaration takes along what is bound to it. -/
theorem ShowsAll.renameBound {id : ElementId} {name : String}
    (h : ShowsAll N P n t) :
    ShowsAll N P n ((t.modify id (Element.withName name)).renameBound id name) := by
  have hsize := (samePlaces_renameBound t id name).size_eq
  refine h.changedBy (changedBy_renameBound t id name) fun x e he hshows b hb => ?_
  obtain ⟨shown, hmem, hname⟩ := exists_of_mem_bindings_boundElement hb
  have hold := hshows (shown, b.2) hmem
  have hlt : b.2.index < t.size := hold.elim (·.1) (·.2.2)
  by_cases hbound : b.2 = id
  · rw [if_pos hbound] at hname
    refine Or.inl ⟨hsize ▸ hlt, fun current hcurrent => ?_⟩
    rw [declaredName?_renameBound, if_pos hbound] at hcurrent
    obtain ⟨_, -, rfl⟩ := Option.map_eq_some_iff.mp hcurrent
    exact hname
  · rw [if_neg hbound] at hname
    refine hold.imp (fun hcurrent => ⟨hsize ▸ hlt, fun current hname' => ?_⟩)
      fun hexcused => ?_
    · rw [declaredName?_renameBound, if_neg hbound] at hname'
      exact hname.trans (hcurrent.2 current hname')
    · exact ⟨isBoundAdditionalData_boundElement hexcused.1, hname ▸ hexcused.2.1,
        hsize ▸ hlt⟩

/-- Whatever is renamed, what is bound to it shows its name. -/
theorem ShowsAll.rename {id : ElementId} {name : String} (h : ShowsAll N P n t) :
    ShowsAll N P n (t.rename id name) := by
  have hother : ∀ {k : NodeKind}, t.kind? id = some k → k.isDeclaration = false →
      ShowsAll N P n (t.modify id (Element.withName name)) := fun hk hdecl =>
    h.withName (by rw [isDeclaration, hk]; exact hdecl)
  rw [Tree.rename]
  cases hk : t.kind? id with
  | none => exact h.withName (by rw [isDeclaration, hk])
  | some k =>
      cases k with
      | classDecl => exact h.renameBound.rebindImports
      | enumDecl => exact h.renameBound.rebindImports
      | namespaceDecl => exact (hother hk rfl).rebindImports
      | method => exact hother hk rfl
      | property => exact hother hk rfl
      | parameter => exact hother hk rfl
      | indexer => exact hother hk rfl

end Tree

end CodeModel
