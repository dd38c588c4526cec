import CodeModel.Proofs.Labels
import CodeModel.Proofs.PassSteps

/-!
# Passes that only give names

Ten of the passes leave every element in its place. Each of them is a traversal,
and its visit of an element makes of the labels what `Labels.after` says: it
gives the element a name, gives the types of some parameters other names, or
leaves the labels alone.

Main statement: `Labelled.apply`, such a pass leads from labels to
`Labels.after`, whatever the tree.
-/

namespace CodeModel

/-! ## Changes of elements -/

namespace Element

/-- Element `e'` has the frame of `e`, and labels and roles that it has. -/
structure Quiet (e e' : Element) : Prop where
  frame_eq : e'.frame = e.frame
  role_eq : e'.role = e.role
  parameterType?_eq : e'.parameterType? = e.parameterType?

theorem quiet_refl (e : Element) : Quiet e e :=
  ⟨rfl, rfl, rfl⟩

/-- A change of the content that is none for parameters is quiet. -/
theorem quiet_mapContent {f : Content → Content} (hrole : ∀ c, (f c).role = c.role)
    (htoken : ∀ c, (f c).token? = c.token?)
    (htype : ∀ c, (f c).parameterType? = c.parameterType?) (e : Element) :
    Quiet e (e.mapContent f) where
  frame_eq := by
    have hkind : (e.mapContent f).kind = e.kind :=
      kind_eq_of_role_eq (hrole e.content)
    show ((e.parent, e.children, (e.mapContent f).kind), e.name,
      (f e.content).token?) = _
    rw [hkind, htoken]
    rfl
  role_eq := hrole e.content
  parameterType?_eq := htype e.content

/-- Other imports do not bear on collisions. -/
theorem quiet_mapImports (f : List Import → List Import) (e : Element) :
    Quiet e (e.mapImports f) :=
  quiet_mapContent (by rintro (_ | _ | _ | _ | _ | _ | _) <;> rfl)
    (by rintro (_ | _ | _ | _ | _ | _ | _) <;> rfl)
      (by rintro (_ | _ | _ | _ | _ | _ | _) <;> rfl) e

/-- Interfaces do not. -/
theorem quiet_addInterface (interface : TypeRef) (e : Element) :
    Quiet e (e.mapClass (·.addInterface interface)) :=
  quiet_mapContent (by rintro (_ | _ | _ | _ | _ | _ | _) <;> rfl)
    (by
      rintro (_ | c | _ | _ | _ | _ | _)
      case classDecl =>
        show some (c.addInterface interface).token = some c.token
        rw [ClassDecl.addInterface]
        split <;> rfl
      all_goals rfl)
    (by rintro (_ | _ | _ | _ | _ | _ | _) <;> rfl) e

/-- Nor does it matter whether the value may be absent. -/
theorem quiet_makeNullable (e : Element) :
    Quiet e (e.mapProperty fun p => { p with type := p.type.nullable }) :=
  quiet_mapContent (by rintro (_ | _ | _ | _ | _ | _ | _) <;> rfl)
    (by rintro (_ | _ | _ | _ | _ | _ | _) <;> rfl)
      (by rintro (_ | _ | _ | _ | _ | _ | _) <;> rfl) e

theorem quiet_keepWireName (name : String) (e : Element) :
    Quiet e (e.keepWireName name) :=
  quiet_mapContent (by rintro (_ | _ | _ | _ | _ | _ | _) <;> rfl)
    (by rintro (_ | _ | _ | _ | _ | _ | _) <;> rfl)
      (by rintro (_ | _ | _ | _ | _ | _ | _) <;> rfl) e

end Element

namespace TypeCorrections

/-- Corrected types make no other role. -/
theorem role_correct (c : TypeCorrections) (owner : String) (content : Content) :
    (c.correctTypes (c.correctKind owner content)).role = content.role := by
  cases content with
  | method m =>
      rw [correctKind]
      split <;> rfl
  | property p =>
      rw [correctKind]
      split <;> rfl
  | _ => rfl

/-- They change the type of a parameter by the table of names. -/
theorem parameterType?_correct (c : TypeCorrections) (owner : String)
    (content : Content) :
    (c.correctTypes (c.correctKind owner content)).parameterType? =
      content.parameterType?.map (TypeRef.correctNames c.renames) := by
  cases content with
  | method m =>
      rw [correctKind]
      split <;> rfl
  | property p =>
      rw [correctKind]
      split <;> rfl
  | _ => rfl

end TypeCorrections

namespace Tree

variable {s s' t : Tree} {L : Labels} {pass : Pass}

/-! ## Renaming -/

/-- Renaming something changes the type of a parameter by the names that are
    shown then. -/
theorem parameterType?_renamedElement (id : ElementId) (name : String)
    (x : ElementId) (e : Element) :
    (t.renamedElement id name x e).parameterType? =
      e.parameterType?.map (·.rename (t.shownName id name)) := by
  rw [renamedElement, (Element.quiet_mapImports _ _).parameterType?_eq,
    Element.parameterType?_mapTypes]
  by_cases hx : x = id
  · rw [if_pos hx, Element.parameterType?_withName]
  · rw [if_neg hx]

/-- It leaves what bears on collisions besides names as it was. -/
theorem sketch_renamedElement (t : Tree) (id : ElementId) (name : String)
    (x : ElementId) (e : Element) :
    (t.renamedElement id name x e).sketch = e.sketch := by
  have hrole : (t.renamedElement id name x e).role = e.role := by
    rw [renamedElement, (Element.quiet_mapImports _ _).role_eq,
      Element.role_mapTypes]
    by_cases hx : x = id
    · rw [if_pos hx, Element.role_withName]
    · rw [if_neg hx]
  rw [Element.sketch, Element.sketch, hrole, parameterType?_renamedElement,
    Option.map_map]
  exact congrArg (e.role,
    ·) (congrArg (Option.map · _) (funext fun r => TypeRef.anchor_rename _ r))

/-! ## The elements that a method answers for -/

/-- The holders of types that a member answers for: itself and, of a method, its
    parameters. -/
theorem mem_typeHolders_iff {x z : ElementId} :
    z ∈ t.typeHolders x ↔
      (z = x ∧ (t.kind? x = some .property ∨ t.kind? x = some .method))
      ∨ (t.kind? x = some .method ∧ z ∈ t.childrenOfKind x .parameter) := by
  rw [typeHolders]
  split <;> simp_all

namespace WellLinked

/-- What is held of a kind has its holder and that kind. -/
theorem parent?_of_mem_childrenOfKind (hwl : WellLinked t) {x z : ElementId}
    {kind : NodeKind} (hz : z ∈ t.childrenOfKind x kind) :
    t.parent? z = some x ∧ t.kind? z = some kind := by
  obtain ⟨hmem, hkind⟩ := List.mem_filter.mp hz
  exact ⟨(hwl.mem_children_iff x z).mp hmem, of_decide_eq_true hkind⟩

/-- No holder of a type is listed twice. -/
theorem nodup_typeHolders (hwl : WellLinked t) (x : ElementId) :
    (t.typeHolders x).Nodup := by
  rw [typeHolders]
  split
  · exact List.nodup_singleton x
  next hkind =>
    refine List.nodup_cons.mpr ⟨fun hx => ?_, (hwl.nodup_children x).filter _⟩
    rw [(hwl.parent?_of_mem_childrenOfKind hx).2] at hkind
    cases hkind
  · exact List.nodup_nil

/-- No element answers to two. -/
theorem disjoint_typeHolders (hwl : WellLinked t) {x y : ElementId} (hne : x ≠ y) :
    ∀ z ∈ t.typeHolders x, z ∉ t.typeHolders y := by
  intro z hx hy
  rcases mem_typeHolders_iff.mp hx with ⟨rfl, hkind⟩ | ⟨-, hx⟩
  · rcases mem_typeHolders_iff.mp hy with ⟨rfl, -⟩ | ⟨-, hy⟩
    · exact hne rfl
    · rw [(hwl.parent?_of_mem_childrenOfKind hy).2] at hkind
      simp at hkind
  · obtain ⟨hparent, hkind⟩ := hwl.parent?_of_mem_childrenOfKind hx
    rcases mem_typeHolders_iff.mp hy with ⟨rfl, hkind'⟩ | ⟨-, hy⟩
    · rw [hkind] at hkind'
      simp at hkind'
    · rw [(hwl.parent?_of_mem_childrenOfKind hy).1] at hparent
      exact hne (Option.some.inj hparent).symm

/-- Only methods hold parameters. -/
theorem kind?_of_holds_parameter (hwl : WellLinked t) {x p : ElementId}
    (hp : t.parent? p = some x) (hkind : t.kind? p = some .parameter) :
    t.kind? x = some .method := by
  have hmem := (hwl.mem_children_iff x p).mpr hp
  obtain ⟨e, he, -⟩ := mem_children_iff_exists.mp hmem
  have hkind' : t.kind? x = some e.kind := kind?_eq_some_iff.mpr ⟨e, he, rfl⟩
  have hmay := hwl.mayHold_of_mem x p e.kind .parameter hmem hkind' hkind
  rw [hkind']
  cases hek : e.kind <;> simp_all [NodeKind.mayHold]

/-- What is answered for below the root are the properties, methods and
    parameters below the root. -/
theorem mem_flatMap_typeHolders_descendants_iff (hwl : WellLinked t)
    {x : ElementId} :
    x ∈ (t.descendants t.root).flatMap t.typeHolders
      ↔ x ∈ t.descendants t.root
        ∧ t.kind? x ∈ [some .property, some .method, some .parameter] := by
  rw [List.mem_flatMap, hwl.mem_descendants_iff]
  constructor
  · rintro ⟨y, hy, hx⟩
    rw [hwl.mem_descendants_iff] at hy
    rcases mem_typeHolders_iff.mp hx with ⟨rfl, hkind⟩ | ⟨-, hx⟩
    · refine ⟨hy, ?_⟩
      rcases hkind with hkind | hkind <;> simp [hkind]
    · obtain ⟨hparent, hkind⟩ := hwl.parent?_of_mem_childrenOfKind hx
      exact ⟨.above hparent hy, by simp [hkind]⟩
  · rintro ⟨hx, hkind⟩
    by_cases hparameter : t.kind? x = some .parameter
    · obtain ⟨y, hy⟩ := hx.exists_parent?
      have hmethod := hwl.kind?_of_holds_parameter hy hparameter
      refine ⟨y, ?_, mem_typeHolders_iff.mpr (Or.inr ⟨hmethod, ?_⟩)⟩
      · rw [hwl.mem_descendants_iff]
        refine (hx.within_of_parent? hy).resolve_left fun hroot => ?_
        rw [hroot, hwl.kind?_root] at hmethod
        cases hmethod
      · exact List.mem_filter.mpr ⟨(hwl.mem_children_iff y x).mpr hy,
          decide_eq_true hparameter⟩
    · refine ⟨x, hwl.mem_descendants_iff.mpr hx,
        mem_typeHolders_iff.mpr (Or.inl ⟨rfl, ?_⟩)⟩
      simpa [hparameter] using hkind

/-- The parameters that what is below the root answers for are those below the
    root. -/
theorem mem_flatMap_typeHolders_iff (hwl : WellLinked t) {p : ElementId}
    {r : TypeRef} (hr : t.parameterType? p = some r) :
    p ∈ (t.descendants t.root).flatMap t.typeHolders ↔
      p ∈ t.descendants t.root := by
  have hkind : t.kind? p = some .parameter := by
    obtain ⟨e, he, hr⟩ := Option.bind_eq_some_iff.mp hr
    refine kind?_eq_some_iff.mpr ⟨e, he, ?_⟩
    obtain ⟨name, parent, children, description, content⟩ := e
    cases content <;> cases hr
    rfl
  rw [hwl.mem_flatMap_typeHolders_descendants_iff, hkind]
  exact and_iff_left (by simp)

end WellLinked

namespace Labelled

/-- The new name that a rule gives depends on labels alone, by way of role and
    name. -/
theorem newName?_eq (h : Labelled t L s) {id : ElementId} {e : Element}
    (he : s.get? id = some e) :
    t.newName? pass L id = pass.newName? e.role e.name := by
  rw [newName?, ← h.role?_eq id, role?, he, Option.map_some, Option.bind_some,
    h.name_eq id e he]

/-- A quiet change leaves the labels alone. -/
theorem modify (h : Labelled t L s) {id : ElementId} {f : Element → Element}
    (hf : ∀ e, s.get? id = some e → Element.Quiet e (f e)) :
    Labelled t L (s.modify id f) := by
  have hquiet : ∀ x e, s.get? x = some e →
      Element.Quiet e (if x = id then f e else e) := by
    intro x e he
    by_cases hx : x = id
    · rw [if_pos hx]
      exact hf e (hx ▸ he)
    · rw [if_neg hx]
      exact Element.quiet_refl e
  have hchange := changedBy_modify s id f
  have hframes : SameFrames s (s.modify id f) :=
    hchange.sameFrames fun x e he => (hquiet x e he).frame_eq
  refine h.changed (hframes.wellLinked h.wellLinked) hchange ?_ ?_ ?_ ?_
  · exact fun x e he => Element.place_eq_of_frame_eq (hquiet x e he).frame_eq
  · intro x e he
    show (Element.role _, (Element.parameterType? _).map TypeRef.anchor) = _
    rw [(hquiet x e he).role_eq, (hquiet x e he).parameterType?_eq]
    rfl
  · intro x e he
    rw [Element.name_eq_of_frame_eq (hquiet x e he).frame_eq]
    exact h.name_eq x e he
  · intro x e r he hr
    rw [(hquiet x e he).parameterType?_eq] at hr
    exact h.typeName_eq x e r he hr

/-- A rename gives the element its new name and shows it in the types bound to
    the element. -/
theorem rename (h : Labelled t L s) {id : ElementId} {e : Element} {name : String}
    (he : s.get? id = some e) (hname : pass.newName? e.role e.name = some name)
    (htypeName : ∀ name, pass.newTypeName name = name) :
    Labelled t (L.after t pass [id]) (s.rename id name) := by
  have hnew : t.newName? pass L id = some name := (h.newName?_eq he).trans hname
  have hframe := renamedElement_frame s id name
  have hsketch := sketch_renamedElement s id name
  refine h.changed (h.wellLinked.rename id name)
    (changedBy_rename h.wellLinked id name) ?_ ?_ ?_ ?_
  · intro x e _
    rw [Element.place_eq_of_frame_eq (hframe x e)]
    by_cases hx : x = id
    · rw [if_pos hx, Element.place_withName]
    · rw [if_neg hx]
  · exact fun x e _ => hsketch x e
  · intro x e he
    rw [Element.name_eq_of_frame_eq (hframe x e)]
    show _ = if x ∈ [id] then (t.newName? pass L x).getD (L.name x) else L.name x
    by_cases hx : x = id
    · rw [if_pos hx, if_pos (List.mem_singleton.mpr hx), hx, hnew]
      rfl
    · rw [if_neg hx, if_neg fun hmem => hx (List.mem_singleton.mp hmem)]
      exact h.name_eq x e he
  · intro x e r' he hr'
    rw [parameterType?_renamedElement] at hr'
    obtain ⟨r, hr, rfl⟩ := Option.map_eq_some_iff.mp hr'
    have hanchor : (t.parameterType? x).map TypeRef.anchor = some r.anchor := by
      rw [← h.anchor_eq, parameterType?, he, Option.bind_some, hr]
      rfl
    have hold : r.name = L.typeName x := h.typeName_eq x e r he hr
    have hdecl : s.isDeclaration id = t.isDeclaration id :=
      h.places.isDeclaration_eq id
    rw [TypeRef.name_rename, shownName, hdecl]
    dsimp only [Labels.after]
    rw [hanchor, TypeRef.anchor]
    -- A type takes the new name when it is bound to the element, and the element is
    -- a declaration.
    cases hdef : r.definition? with
    | none => cases r.isExternal <;> simp [htypeName, hold]
    | some d =>
        by_cases hd : d = id
        · cases hdecl' : t.isDeclaration id <;> simp [hd, hdecl', hnew, hold]
        · simp [hd, hold]

/-! ## Traversals -/

/-- What each visit makes of the labels of some elements, a traversal makes of
    them all. -/
theorem crawl {visit : ElementId → Edit Unit} (touched : ElementId → List ElementId)
    (hvisit : ∀ L s id s', Labelled t L s → Attached t id →
      (visit id).run s = .ok () s' → Labelled t (L.after t pass (touched id)) s')
    (hdisjoint : ∀ x y, x ≠ y → ∀ z ∈ touched x, z ∉ touched y) (h : Labelled t L s)
    {u : Unit} (hrun : (Edit.crawl visit).run s = .ok u s') :
    Labelled t (L.after t pass ((t.descendants t.root).flatMap touched)) s' := by
  have hwl : WellLinked s := h.wellLinked
  have hitems : s.descendants s.root = t.descendants t.root := by
    rw [h.places.root_eq, h.places.descendants_eq]
  have hnodup := hwl.nodup_descendants s.root
  have hattached : ∀ {L} {s' : Tree} {id}, Labelled t L s' →
      id ∈ s.descendants s.root → Attached t id := by
    intro L s' id _ hmem
    rw [hwl.mem_descendants_iff, h.places.root_eq, h.places.ancestor_iff] at hmem
    exact Or.inr hmem
  rw [← hitems]
  refine Edit.crawl_done_induction
    (I := fun done s' => Labelled t (L.after t pass (done.flatMap touched)) s') ?_
      ?_ ?_ hrun
  · intro done s' id hs' hmem
    rw [hs'.wellLinked.isAttached_iff, hs'.places.attached_iff]
    exact hattached hs' hmem
  · intro done id rest s₁ s₂ hsplit hs₁ hvisited
    have hmem : id ∈ s.descendants s.root := by
      rw [hsplit]
      exact List.mem_append_right _ List.mem_cons_self
    -- No element is visited twice, so what this visit touches was not touched
    -- before.
    have hnew : id ∉ done := by
      rw [hsplit] at hnodup
      exact fun hdone =>
        (List.nodup_append.mp hnodup).2.2 id hdone id List.mem_cons_self rfl
    have hstep := hvisit _ s₁ id s₂ hs₁ (hattached hs₁ hmem) hvisited
    rw [Labels.after_append] at hstep
    · rw [List.flatMap_append, List.flatMap_singleton]
      exact hstep
    · intro z hz
      obtain ⟨x, hx, hz⟩ := List.mem_flatMap.mp hz
      exact hdisjoint x id (fun heq => hnew (heq ▸ hx)) z hz
  · rw [List.flatMap_nil, Labels.after_nil]
    exact h

/-- A traversal whose visits touch the labels of what they visit and of nothing
    else. -/
theorem crawl_each {visit : ElementId → Edit Unit}
    (hvisit : ∀ L s id s', Labelled t L s → Attached t id →
      (visit id).run s = .ok () s' → Labelled t (L.after t pass [id]) s')
    (h : Labelled t L s) {u : Unit} (hrun : (Edit.crawl visit).run s = .ok u s') :
    Labelled t (L.after t pass (t.descendants t.root)) s' := by
  have hall := h.crawl (fun id => [id]) hvisit ?_ hrun
  · rwa [List.flatMap_singleton'] at hall
  · intro x y hne z hz hz'
    exact hne ((List.mem_singleton.mp hz).symm.trans (List.mem_singleton.mp hz'))

/-- A traversal that renames what it visits, or leaves it, by the rule of a
    pass. -/
theorem crawl_renames {visit : ElementId → Edit Unit}
    (htypeName : ∀ name, pass.newTypeName name = name)
    (hvisit : ∀ s id s', (visit id).run s = .ok () s' →
      (s' = s ∧ ∀ e, s.get? id = some e → pass.newName? e.role e.name = none)
      ∨ ∃ e name f, s.get? id = some e ∧ pass.newName? e.role e.name = some name
      ∧ (∀ e, Element.Quiet e (f e)) ∧ s' = (s.rename id name).modify id f)
    (h : Labelled t L s) {u : Unit} (hrun : (Edit.crawl visit).run s = .ok u s') :
    Labelled t (L.after t pass (t.descendants t.root)) s' := by
  refine h.crawl_each (fun L s id s' h _ hrun => ?_) hrun
  rcases hvisit s id s' hrun
    with ⟨rfl, hnone⟩ | ⟨e, name, f, he, hname, hquiet, rfl⟩
  · have hnew : t.newName? pass L id = none := by
      cases he : s'.get? id with
      | none =>
          rw [newName?, ← h.role?_eq, role?, he]
          rfl
      | some e => rw [h.newName?_eq he, hnone e he]
    rw [Labels.after_singleton_eq hnew htypeName]
    exact h
  · exact (h.rename he hname htypeName).modify fun e _ => hquiet e

/-- A traversal whose visits are quiet. -/
theorem crawl_quiet {visit : ElementId → Edit Unit}
    (hnone : ∀ role name, pass.newName? role name = none)
    (htypeName : ∀ name, pass.newTypeName name = name)
    (hvisit : ∀ L s id s', Labelled t L s → (visit id).run s = .ok () s' →
      Labelled t L s') (h : Labelled t L s) {u : Unit}
    (hrun : (Edit.crawl visit).run s = .ok u s') :
    Labelled t (L.after t pass (t.descendants t.root)) s' := by
  refine h.crawl_each (fun L s id s' h _ hrun => ?_) hrun
  rw [Labels.after_singleton_eq (newName?_eq_none hnone L id) htypeName]
  exact hvisit L s id s' h hrun

/-! ## The passes -/

/-- Imports do not bear on labels. -/
theorem addImports (h : Labelled t L s) {target : ElementId} {new : List Import}
    {k : Nat} (hrun : (Edit.addImports target new).run s = .ok k s') :
    Labelled t L s' := by
  obtain ⟨e, -, -, rfl⟩ := Edit.run_addImports_eq_ok hrun
  exact h.modify fun e _ => Element.quiet_mapImports _ e

/-- Through the pass labels stay as they were. -/
theorem seedImports {defaults : List DefaultImport} (h : Labelled t L s) {u : Unit}
    (hrun : (Edit.seedImports defaults).run s = .ok u s') :
    Labelled t (L.after t (.seedImports defaults) (t.descendants t.root)) s' := by
  refine h.crawl_quiet (fun _ _ => rfl) (fun _ => rfl)
    (fun L s id s' h hrun => ?_) hrun
  rw [Edit.run_get_bind] at hrun
  cases hc : s.class? id with
  | none =>
      rw [hc] at hrun
      exact (Edit.run_pure_eq_ok_iff.mp hrun).2 ▸ h
  | some c =>
      rw [hc] at hrun
      dsimp only at hrun
      split at hrun
      · exact (Edit.run_pure_eq_ok_iff.mp hrun).2 ▸ h
      · obtain ⟨k, hadd⟩ := Edit.run_discard_eq_ok_iff.mp hrun
        exact h.addImports hadd

/-- This pass, too, leaves labels alone: models get an interface and an
    import. -/
theorem implementInModels {interface : String} {spec : ImportSpec}
    (h : Labelled t L s) {u : Unit}
    (hrun : (Edit.implementInModels interface spec).run s = .ok u s') :
    Labelled t (L.after t (.implementInModels interface spec)
      (t.descendants t.root)) s' := by
  refine h.crawl_quiet (fun _ _ => rfl) (fun _ => rfl)
    (fun L s id s' h hrun => ?_) hrun
  rw [Edit.run_get_bind] at hrun
  split at hrun
  · exact (Edit.run_pure_eq_ok_iff.mp hrun).2 ▸ h
  · obtain ⟨_, s₁, hmodify, hrest⟩ := Edit.run_bind_eq_ok_iff.mp hrun
    obtain ⟨k, hadd⟩ := Edit.run_discard_eq_ok_iff.mp hrest
    rw [Edit.run_modifyElement_eq_ok_iff] at hmodify
    have hmodified : Labelled t L s₁ := hmodify ▸ h.modify fun e _ =>
      Element.quiet_addInterface _ e
    exact hmodified.addImports hadd

/-- Nullable types show the same names. -/
theorem makeEnumPropertiesNullable (h : Labelled t L s) {u : Unit}
    (hrun : Edit.makeEnumPropertiesNullable.run s = .ok u s') :
    Labelled t (L.after t .makeEnumPropertiesNullable (t.descendants t.root)) s' :=
      by
  refine h.crawl_quiet (fun _ _ => rfl) (fun _ => rfl)
    (fun L s id s' h hrun => ?_) hrun
  rw [Edit.run_get_bind] at hrun
  split at hrun
  · rw [Edit.run_modifyElement_eq_ok_iff] at hrun
    rw [← hrun]
    exact h.modify fun e _ => Element.quiet_makeNullable e
  · exact (Edit.run_pure_eq_ok_iff.mp hrun).2 ▸ h

/-- What is referred to is imported, and labels stay. -/
theorem importReferenced {ownNamespaceToo : Bool} (h : Labelled t L s) {u : Unit}
    (hrun : (Edit.importReferenced ownNamespaceToo).run s = .ok u s') :
    Labelled t (L.after t (.importReferenced ownNamespaceToo)
      (t.descendants t.root)) s' := by
  refine h.crawl_quiet (fun _ _ => rfl) (fun _ => rfl)
    (fun L s id s' h hrun => ?_) hrun
  rw [Edit.run_get_bind] at hrun
  split at hrun
  · exact (Edit.run_pure_eq_ok_iff.mp hrun).2 ▸ h
  · dsimp only at hrun
    split at hrun
    · exact (Edit.run_pure_eq_ok_iff.mp hrun).2 ▸ h
    · obtain ⟨k, hadd⟩ := Edit.run_discard_eq_ok_iff.mp hrun
      exact h.addImports hadd

/-- Paths are no labels. -/
theorem resolveImportPaths (h : Labelled t L s) {u : Unit}
    (hrun : Edit.resolveImportPaths.run s = .ok u s') :
    Labelled t (L.after t .resolveImportPaths (t.descendants t.root)) s' := by
  refine h.crawl_quiet (fun _ _ => rfl) (fun _ => rfl)
    (fun L s id s' h hrun => ?_) hrun
  rw [Edit.run_get_bind] at hrun
  cases hc : s.class? id with
  | none =>
      rw [hc] at hrun
      exact (Edit.run_pure_eq_ok_iff.mp hrun).2 ▸ h
  | some c =>
      rw [hc] at hrun
      obtain ⟨resolved, s₁, hresolve, hrest⟩ := Edit.run_bind_eq_ok_iff.mp hrun
      obtain ⟨-, rfl⟩ := Edit.run_inspect_eq_ok_iff.mp hresolve
      rw [Edit.run_modifyElement_eq_ok_iff] at hrest
      rw [← hrest]
      exact h.modify fun e _ => Element.quiet_mapImports _ e

/-- Turn by turn the labels change as the rule for asynchronous methods says. -/
theorem addAsyncSuffix {suffix : String} (h : Labelled t L s) {u : Unit}
    (hrun : (Edit.addAsyncSuffix suffix).run s = .ok u s') :
    Labelled t (L.after t (.addAsyncSuffix suffix) (t.descendants t.root)) s' := by
  have hrule : ∀ (s : Tree) id e, s.get? id = some e →
      (Pass.addAsyncSuffix suffix).newName? e.role e.name =
        (s.unsuffixedAsync? suffix id).map (· ++ suffix) := by
    rintro s id ⟨name, parent, children, description, content⟩ he
    rw [unsuffixedAsync?, he]
    cases content with
    | method m =>
        obtain ⟨kind, returnType, isAsync⟩ := m
        cases isAsync with
        | false => rfl
        | true =>
            by_cases hends : suffix.toList <:+ name.toList
            · simp [Element.role, Content.role, Pass.newName?,
                Element.method?, hends]
            · simp [Element.role, Content.role, Pass.newName?,
                Element.method?, hends]
    | _ => rfl
  refine h.crawl_renames (fun _ => rfl) (fun s id s' hrun => ?_) hrun
  rw [Edit.run_get_bind] at hrun
  cases hname : s.unsuffixedAsync? suffix id with
  | none =>
      rw [hname] at hrun
      refine Or.inl ⟨(Edit.run_pure_eq_ok_iff.mp hrun).2.symm, fun e he => ?_⟩
      rw [hrule s id e he, hname]
      rfl
  | some name =>
      rw [hname] at hrun
      obtain ⟨-, -, ⟨e, he⟩, rfl⟩ := Edit.run_setName_eq_ok hrun
      refine Or.inr ⟨e, name ++ suffix, fun e => e, he, ?_, Element.quiet_refl,
        (modify_self _ id).symm⟩
      rw [hrule s id e he, hname]
      rfl

/-- Namespaces get their new names, turn by turn. -/
theorem capitalizeNamespaces (h : Labelled t L s) {u : Unit}
    (hrun : Edit.capitalizeNamespaces.run s = .ok u s') :
    Labelled t (L.after t .capitalizeNamespaces (t.descendants t.root)) s' := by
  have hrule : ∀ e : Element, Pass.capitalizeNamespaces.newName? e.role e.name =
      if e.kind = .namespaceDecl
        ∧ Text.capitalize e.name ≠ e.name then some (Text.capitalize e.name)
      else none := by
    rintro ⟨name, parent, children, description, content⟩
    cases content with
    | namespaceDecl imports =>
        by_cases hsame : Text.capitalize name = name
        · simp [Element.role, Content.role, Content.kind, Pass.newName?, hsame]
        · simp [Element.role, Content.role, Content.kind, Pass.newName?,
            Element.kind, hsame]
    | _ => rfl
  refine h.crawl_renames (fun _ => rfl) (fun s id s' hrun => ?_) hrun
  obtain ⟨e, s₁, helement, hrest⟩ := Edit.run_bind_eq_ok_iff.mp hrun
  obtain ⟨he, rfl⟩ := Edit.run_element_eq_ok_iff.mp helement
  split at hrest
  next hc =>
    obtain ⟨-, -, -, rfl⟩ := Edit.run_setName_eq_ok hrest
    refine Or.inr ⟨e, _, fun e => e, he, ?_, Element.quiet_refl,
      (modify_self _ id).symm⟩
    rw [hrule, if_pos hc]
  next hc =>
    refine Or.inl ⟨(Edit.run_pure_eq_ok_iff.mp hrest).2.symm, fun e' he' => ?_⟩
    rw [← Option.some.inj (he.symm.trans he'), hrule, if_neg hc]

/-- Reserved names are escaped turn by turn, and each turn reads the role and
    the name that the labels tell. -/
theorem escapeReservedNames {reserved : ReservedNames} {style : EscapeStyle}
    (h : Labelled t L s) {u : Unit}
    (hrun : (Edit.escapeReservedNames reserved style).run s = .ok u s') :
    Labelled t (L.after t (.escapeReservedNames reserved style)
      (t.descendants t.root)) s' := by
  have hrule : ∀ e : Element,
      (Pass.escapeReservedNames reserved style).newName? e.role e.name
        = if e.isEscapable && reserved.contains e.name then
            some (style.apply e.name)
          else none := by
    intro e
    rw [Element.isEscapable_eq_role]
    cases e.role <;> rfl
  refine h.crawl_renames (fun _ => rfl) (fun s id s' hrun => ?_) hrun
  obtain ⟨e, s₁, helement, hrest⟩ := Edit.run_bind_eq_ok_iff.mp hrun
  obtain ⟨he, rfl⟩ := Edit.run_element_eq_ok_iff.mp helement
  split at hrest
  next hc =>
    obtain ⟨_, s₂, hset, hkeep⟩ := Edit.run_bind_eq_ok_iff.mp hrest
    obtain ⟨-, -, -, rfl⟩ := Edit.run_setName_eq_ok hset
    rw [Edit.run_modifyElement_eq_ok_iff] at hkeep
    refine Or.inr ⟨e, _, Element.keepWireName e.name, he, ?_,
      Element.quiet_keepWireName e.name, hkeep.symm⟩
    rw [hrule, if_pos hc]
  next hc =>
    refine Or.inl ⟨(Edit.run_pure_eq_ok_iff.mp hrest).2.symm, fun e' he' => ?_⟩
    rw [← Option.some.inj (he.symm.trans he'), hrule, if_neg hc]

/-- A change of the type of a parameter shows in the labels. -/
theorem retype (h : Labelled t L s)
    (hnone : ∀ role name, pass.newName? role name = none) {id : ElementId}
    {f : Element → Element} {g : TypeRef → TypeRef}
    (hframe : ∀ e, (f e).frame = e.frame) (hrole : ∀ e, (f e).role = e.role)
    (htype : ∀ e, (f e).parameterType? = e.parameterType?.map g)
    (hanchor : ∀ r, (g r).anchor = r.anchor) (hname : ∀ r, (g r).name
      = if r.isExternal then pass.newTypeName r.name else r.name) :
    Labelled t (L.after t pass [id]) (s.modify id f) := by
  have hnew : ∀ x, t.newName? pass L x = none := newName?_eq_none hnone L
  have hframes := sameFrames_modify s id hframe
  refine h.changed (hframes.wellLinked h.wellLinked) (changedBy_modify s id f)
    ?_ ?_ ?_ ?_
  · intro x e _
    by_cases hx : x = id
    · rw [if_pos hx, Element.place_eq_of_frame_eq (hframe e)]
    · rw [if_neg hx]
  · intro x e _
    by_cases hx : x = id
    · rw [if_pos hx, Element.sketch, Element.sketch, hrole, htype, Option.map_map]
      exact congrArg (e.role, ·) (congrArg (Option.map · _) (funext hanchor))
    · rw [if_neg hx]
  · intro x e he
    have hkeep : (if x = id then f e else e).name = e.name := by
      by_cases hx : x = id
      · rw [if_pos hx, Element.name_eq_of_frame_eq (hframe e)]
      · rw [if_neg hx]
    rw [hkeep, h.name_eq x e he]
    dsimp only [Labels.after]
    rw [hnew, Option.getD_none, ite_self]
  · intro x e r' he hr'
    -- What the labels say of a type before the change.
    have hold : ∀ r, e.parameterType? = some r →
        (t.parameterType? x).map TypeRef.anchor = some r.anchor
        ∧ r.name = L.typeName x := by
      intro r hr
      refine ⟨?_, h.typeName_eq x e r he hr⟩
      rw [← h.anchor_eq, parameterType?, he, Option.bind_some, hr]
      rfl
    dsimp only [Labels.after]
    by_cases hx : x = id
    · rw [if_pos hx, htype] at hr'
      obtain ⟨r, hr, rfl⟩ := Option.map_eq_some_iff.mp hr'
      obtain ⟨hanchored, hshown⟩ := hold r hr
      rw [hanchored, hname, hshown, TypeRef.anchor]
      cases hdef : r.definition? with
      | none => cases r.isExternal <;> simp [hx]
      | some d =>
          have hexternal : r.isExternal = false :=
            TypeRef.isExternal_of_definition? hdef
          simp [hnew, hexternal]
    · rw [if_neg hx] at hr'
      obtain ⟨hanchored, hshown⟩ := hold r' hr'
      rw [hanchored, hshown, TypeRef.anchor]
      cases r'.definition? with
      | none => cases r'.isExternal <;> simp [hx]
      | some d => simp [hnew]

/-- Corrections change the labels of the types of parameters. -/
theorem correctTypes {c : TypeCorrections} (h : Labelled t L s) {u : Unit}
    (hrun : (Edit.correctTypes c).run s = .ok u s') :
    Labelled t (L.after t (.correctTypes c) (t.descendants t.root)) s' := by
  refine h.crawl_each (fun L s id s' h _ hrun => ?_) hrun
  rw [Edit.run_get_bind, Edit.run_modifyElement_eq_ok_iff] at hrun
  rw [← hrun]
  refine h.retype (g := TypeRef.correctNames c.renames)
    (fun _ _ => rfl) ?_ ?_ ?_ ?_ ?_
  · exact Element.frame_mapContent (c.kind_correct _) (c.token?_correct _)
  · exact fun e => c.role_correct _ e.content
  · exact fun e => c.parameterType?_correct _ e.content
  · exact TypeRef.anchor_rename _
  · exact TypeRef.name_rename _

/-- A change of the types of several elements shows in the labels of all of
    them. -/
theorem retype_forM (h : Labelled t L s)
    (hnone : ∀ role name, pass.newName? role name = none) {f : Element → Element}
    {g : TypeRef → TypeRef} (hframe : ∀ e, (f e).frame = e.frame)
    (hrole : ∀ e, (f e).role = e.role)
    (htype : ∀ e, (f e).parameterType? = e.parameterType?.map g)
    (hanchor : ∀ r, (g r).anchor = r.anchor)
    (hname : ∀ r, (g r).name = if r.isExternal then pass.newTypeName r.name
      else r.name) {ids : List ElementId} (hnodup : ids.Nodup) {u : Unit}
    (hrun : (ids.forM fun id => Edit.modifyElement id f).run s = .ok u s') :
    Labelled t (L.after t pass ids) s' := by
  rw [List.forM_eq_forM] at hrun
  -- The elements are taken in turn, each one new to the labels of those before it.
  induction ids generalizing L s with
  | nil =>
      rw [List.forM_nil, Edit.run_pure_eq_ok_iff] at hrun
      rw [Labels.after_nil, ← hrun.2]
      exact h
  | cons id rest ih =>
      rw [List.forM_cons, Edit.run_bind_eq_ok_iff] at hrun
      obtain ⟨_, s₁, hfirst, hrest⟩ := hrun
      obtain ⟨hnew, hnodup⟩ := List.nodup_cons.mp hnodup
      rw [Edit.run_modifyElement_eq_ok_iff] at hfirst
      have hone : Labelled t (L.after t pass [id]) s₁ :=
        hfirst ▸ h.retype hnone hframe hrole htype hanchor hname
      have hall := ih hone hnodup hrest
      rwa [Labels.after_append, List.singleton_append] at hall
      intro x hx
      rw [List.mem_singleton.mp hx]
      exact hnew

theorem replaceBinary {typeName : String} {spec : ImportSpec}
    (h : Labelled t L s) (hwl : WellLinked t) {u : Unit}
    (hrun : (Edit.replaceBinary typeName spec).run s = .ok u s') :
    Labelled t
      (L.after t (.replaceBinary typeName spec) (t.descendants t.root)) s' := by
  have hnone : ∀ role name, (Pass.replaceBinary typeName spec).newName? role name
    = none := fun _ _ => rfl
  -- A method answers for its parameters; a visit to one of these finds nothing to
  -- do.
  have hall : Labelled t
      (L.after t (.replaceBinary typeName spec)
        ((t.descendants t.root).flatMap t.typeHolders)) s' :=
    h.crawl t.typeHolders ?_ (fun x y hne => hwl.disjoint_typeHolders hne) hrun
  · rwa [Labels.after_congr hnone fun p r hr =>
      hwl.mem_flatMap_typeHolders_iff hr] at hall
  · intro L s id s' h _ hrun
    rw [Edit.run_get_bind] at hrun
    obtain ⟨_, s₁, hmodify, hrest⟩ := Edit.run_bind_eq_ok_iff.mp hrun
    -- No pass of this kind moves anything, so a visit finds the parameters that the
    -- method had.
    have hholders : s.typeHolders id = t.typeHolders id := by
      rw [typeHolders, typeHolders, h.places.kind?_eq, h.places.childrenOfKind_eq]
    rw [hholders] at hmodify
    have hfirst : Labelled t
        (L.after t (.replaceBinary typeName spec) (t.typeHolders id)) s₁ := by
      refine h.retype_forM (g := TypeRef.replaceBinary typeName) hnone
        (Element.frame_mapValueType _) ?_ ?_
        (TypeRef.anchor_rename _) ?_ (hwl.nodup_typeHolders id) hmodify
      · rintro ⟨name, parent, children, description, content⟩
        cases content <;> rfl
      · rintro ⟨name, parent, children, description, content⟩
        cases content <;> rfl
      · intro r
        rw [TypeRef.replaceBinary, TypeRef.name_rename, TypeRef.isBinary]
        cases r.isExternal <;> simp [Pass.newTypeName]
    cases hp : s.parent? id with
    | none =>
        rw [hp] at hrest
        exact (Edit.run_pure_eq_ok_iff.mp hrest).2 ▸ hfirst
    | some owner =>
        rw [hp] at hrest
        dsimp only at hrest
        split at hrest
        · obtain ⟨k, hadd⟩ := Edit.run_discard_eq_ok_iff.mp hrest
          exact hfirst.addImports hadd
        · exact (Edit.run_pure_eq_ok_iff.mp hrest).2 ▸ hfirst

/-- A pass that keeps every element in its place leads from labels to what it
    makes of them. -/
theorem apply (h : Labelled t L s) (hwl : WellLinked t)
    (hkeeps : pass.keepsPlaces = true) {u : Unit}
    (hrun : pass.apply.run s = .ok u s') :
    Labelled t (L.after t pass (t.descendants t.root)) s' := by
  cases pass with
  | seedImports defaults => exact h.seedImports hrun
  | importReferenced ownNamespaceToo => exact h.importReferenced hrun
  | addAsyncSuffix suffix => exact h.addAsyncSuffix hrun
  | implementInModels interface spec => exact h.implementInModels hrun
  | capitalizeNamespaces => exact h.capitalizeNamespaces hrun
  | replaceBinary typeName spec => exact h.replaceBinary hwl hrun
  | makeEnumPropertiesNullable => exact h.makeEnumPropertiesNullable hrun
  | escapeReservedNames reserved style => exact h.escapeReservedNames hrun
  | correctTypes corrections => exact h.correctTypes hrun
  | resolveImportPaths => exact h.resolveImportPaths hrun
  | _ => exact absurd hkeeps Bool.false_ne_true

end Labelled

end Tree

end CodeModel
