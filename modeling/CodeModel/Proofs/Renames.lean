import CodeModel.Proofs.Links

/-!
# Renaming, element by element

A rename changes the element that gets the name, the references bound to it, and
the imports whose declarations sit at or below it. `Tree.renamedElement` is what
it makes of each element of the arena, whatever kind of element is renamed.

Main statements: `changedBy_rename`, and `WellLinked.rename`, a rename keeps a
tree well linked.
-/

namespace CodeModel

/-! ## Names that stay -/

mutual

/-- To rename a reference by the name that it shows changes nothing, at no
    depth. -/
theorem TypeRef.rename_name : ∀ r : TypeRef, r.rename (·.name) = r
  | ⟨_, target, _, _⟩ => by rw [TypeRef.rename, TypeTarget.rename_name target]

theorem TypeTarget.rename_name :
    ∀ target : TypeTarget, target.rename (·.name) = target
  | .external => rfl
  | .declared _ => rfl
  | .union members => by rw [TypeTarget.rename, TypeRef.renameAll_name members]

theorem TypeRef.renameAll_name :
    ∀ rs : List TypeRef, TypeRef.renameAll (·.name) rs = rs
  | [] => rfl
  | r :: rest =>
      by rw [TypeRef.renameAll, TypeRef.rename_name r, TypeRef.renameAll_name rest]

end

namespace Import

/-- An import is its own image under the identity. -/
theorem mapSymbol_id (i : Import) : i.mapSymbol id = i := by
  simp [mapSymbol]

end Import

namespace Element

/-- An element is, too. -/
theorem mapTypes_id (e : Element) : e.mapTypes id = e := by
  have hcontent : ∀ content : Content, content.mapTypes id = content := by
    rintro (_ | _ | _ | _ | _ | _ | _)
      <;> simp [Content.mapTypes, Import.mapSymbol_id]
  rw [mapTypes, mapContent, hcontent]

/-- Nor does renaming by the shown names change an element. -/
theorem mapTypes_rename_name (e : Element) :
    e.mapTypes (·.rename (·.name)) = e := by
  have hid : (fun r : TypeRef => r.rename (·.name)) = id :=
    funext TypeRef.rename_name
  rw [hid, mapTypes_id]

/-- A block that a change leaves alone leaves its element alone. -/
theorem mapImports_of_map_eq {f : List Import → List Import} {e : Element}
    (h : f e.imports = e.imports) : e.mapImports f = e := by
  rw [mapImports, mapContent]
  obtain ⟨name, parent, children, description, content⟩ := e
  cases content with
  | namespaceDecl imports =>
      exact congrArg
        (fun l => Element.mk name parent children description (.namespaceDecl l)) h
  | classDecl c =>
      exact congrArg
        (fun l => Element.mk name parent children description
          (.classDecl { c with imports := l })) h
  | _ => rfl

end Element

namespace Tree

variable {t t' : Tree}

/-! ## What holds declarations -/

/-- Only namespaces and classes are above namespaces, classes and enums. -/
theorem WellLinked.kind?_of_ancestor (hwl : WellLinked t) {a b : ElementId}
    {k : NodeKind} (h : Ancestor t a b) (hb : t.kind? b = some k)
    (hk : k = .namespaceDecl ∨ k = .classDecl ∨ k = .enumDecl) :
    t.kind? a = some .namespaceDecl ∨ t.kind? a = some .classDecl := by
  have hholder : ∀ {p c : ElementId} {k : NodeKind}, t.parent? c = some p →
      t.kind? c = some k → (k = .namespaceDecl ∨ k = .classDecl ∨ k = .enumDecl) →
      t.kind? p = some .namespaceDecl ∨ t.kind? p = some .classDecl := by
    intro p c k hp hc hk
    have hmem := (hwl.mem_children_iff p c).mpr hp
    obtain ⟨e, he, -⟩ := mem_children_iff_exists.mp hmem
    have hkind : t.kind? p = some e.kind := kind?_eq_some_iff.mpr ⟨e, he, rfl⟩
    have hmay := hwl.mayHold_of_mem p c e.kind k hmem hkind hc
    rw [hkind]
    rcases hk with rfl | rfl | rfl <;> cases hek : e.kind <;> rw [hek] at hmay <;>
      simp_all [NodeKind.mayHold]
  induction h generalizing k with
  | parent hp => exact hholder hp hb hk
  | above hp _ ih =>
      rcases hholder hp hb hk with hp' | hp'
      · exact ih hp' (Or.inl rfl)
      · exact ih hp' (Or.inr (Or.inl rfl))

/-- A declaration is a class or an enum. -/
theorem isDeclaration_iff {id : ElementId} :
    t.isDeclaration id = true ↔ t.kind? id = some .classDecl
      ∨ t.kind? id = some .enumDecl := by
  rw [isDeclaration]
  cases t.kind? id with
  | none => simp
  | some k => cases k <;> simp [NodeKind.isDeclaration]

/-- Imports are refreshed only for what sits at or below a namespace, a class or
    an enum. -/
theorem WellLinked.kind?_of_isWithin (hwl : WellLinked t) {scope target : ElementId}
    (hin : t.isWithin scope target = true) (hdecl : t.isDeclaration target = true) :
    t.kind? scope = some .namespaceDecl ∨ t.isDeclaration scope = true := by
  rcases hwl.isWithin_iff.mp hin with rfl | habove
  · exact Or.inr hdecl
  · rcases isDeclaration_iff.mp hdecl with hk | hk
    · exact (hwl.kind?_of_ancestor habove hk (by simp)).imp id fun h =>
        isDeclaration_iff.mpr (Or.inl h)
    · exact (hwl.kind?_of_ancestor habove hk (by simp)).imp id fun h =>
        isDeclaration_iff.mpr (Or.inl h)

/-- Where nothing within the scope is a declaration no import is named anew. -/
theorem refreshImport_of_forall {scope : ElementId}
    (h : ∀ target, t.isWithin scope target = true → t.isDeclaration target = false)
    (i : Import) : t.refreshImport scope i = i := by
  rw [refreshImport]
  cases i.target? with
  | none => rfl
  | some target =>
      by_cases hin : t.isWithin scope target = true
      · simp [h target hin]
      · simp [hin]

/-! ## Renaming -/

/-- The name that a reference shows once the element `id` is called `name`. -/
def shownName (t : Tree) (id : ElementId) (name : String) (r : TypeRef) : String :=
  if t.isDeclaration id ∧ r.definition? = some id then name else r.name

/-- What renaming `id` makes of the element `x`. -/
def renamedElement (t : Tree) (id : ElementId) (name : String) (x : ElementId)
    (e : Element) : Element :=
  ((if x = id then e.withName name else e).mapTypes
    (·.rename (t.shownName id name))).mapImports
    (·.map ((t.rename id name).refreshImport id))

/-- Renaming leaves every element in its place. -/
theorem samePlaces_rename (t : Tree) (id : ElementId) (name : String) :
    SamePlaces t (t.rename id name) := by
  have hnamed : SamePlaces t (t.modify id (Element.withName name)) := by
    refine (changedBy_modify t id _).samePlaces fun x e _ => ?_
    by_cases hx : x = id
    · rw [if_pos hx]
      exact Element.place_withName name e
    · rw [if_neg hx]
  have hrebind : ∀ s : Tree, SamePlaces s (s.rebindImports id) := fun s =>
    (sameFrames_rebindImports s id).samePlaces
  have hbound : ∀ s : Tree, SamePlaces s (s.renameBound id name) := fun s =>
    (changedBy_renameReferences s _).samePlaces fun _ e _ =>
      Element.place_eq_of_frame_eq (Element.frame_mapTypes _ e)
  rw [rename]
  split
  · exact hnamed.trans ((hbound _).trans (hrebind _))
  · exact hnamed.trans ((hbound _).trans (hrebind _))
  · exact hnamed.trans (hrebind _)
  · exact hnamed

/-- Renaming changes every element as `renamedElement` says: first the name,
    then references to it, then the imports of what sits at or below it. -/
theorem changedBy_rename (hwl : WellLinked t) (id : ElementId) (name : String) :
    ChangedBy (t.renamedElement id name) t (t.rename id name) := by
  have hnamed := changedBy_modify t id (Element.withName name)
  have hrebind : ∀ s s' : Tree, s' = s.rebindImports id →
      ChangedBy (fun _ e => e.mapImports (·.map (s'.refreshImport id))) s s' := by
    rintro s _ rfl
    refine (changedBy_rebindImports s id).congr fun x e _ => ?_
    rw [funext ((sameFrames_rebindImports s id).refreshImport_eq id)]
  by_cases hdecl : t.isDeclaration id = true
  · -- A class or an enum: what is bound to it shows the name, and imports follow.
    have heq : t.rename id name =
        ((t.modify id (Element.withName name)).renameBound id name).rebindImports
          id := by
      rw [rename]
      rcases isDeclaration_iff.mp hdecl with hk | hk <;> rw [hk]
    refine ((hnamed.trans (changedBy_renameReferences _ _)).trans
      (hrebind _ _ heq)).congr fun x e _ => ?_
    have hshown : t.shownName id name =
        fun r : TypeRef => if r.definition? = some id then name else r.name := by
      funext r
      simp [shownName, hdecl]
    rw [renamedElement, hshown]
  · have hshown : t.shownName id name = fun r : TypeRef => r.name := by
      funext r
      simp [shownName, hdecl]
    by_cases hns : t.kind? id = some .namespaceDecl
    · -- A namespace: no reference is bound to it that would show the name, but
      -- imports follow.
      have heq : t.rename id name
          = (t.modify id (Element.withName name)).rebindImports id := by
        rw [rename, hns]
      refine (hnamed.trans (hrebind _ _ heq)).congr fun x e _ => ?_
      rw [renamedElement, hshown, Element.mapTypes_rename_name]
    · -- Any other element: nothing that is imported sits at or below it.
      have heq : t.rename id name = t.modify id (Element.withName name) := by
        rw [rename]
        split
        · next hk => exact absurd (isDeclaration_iff.mpr (Or.inl hk)) hdecl
        · next hk => exact absurd (isDeclaration_iff.mpr (Or.inr hk)) hdecl
        · next hk => exact absurd hk hns
        · rfl
      have hsame := samePlaces_rename t id name
      have hkeep : ∀ i, (t.rename id name).refreshImport id i = i := by
        refine refreshImport_of_forall fun target hin => ?_
        rw [hsame.isWithin_eq] at hin
        rw [hsame.isDeclaration_eq]
        cases hd : t.isDeclaration target with
        | false => rfl
        | true => exact absurd (hwl.kind?_of_isWithin hin hd) (by simp [hns, hdecl])
      rw [← heq] at hnamed
      refine hnamed.congr fun x e _ => ?_
      rw [renamedElement, hshown, Element.mapTypes_rename_name,
        Element.mapImports_of_map_eq]
      rw [funext hkeep]
      exact List.map_id' _

/-- Of frames only that of the renamed element is another. -/
theorem renamedElement_frame (t : Tree) (id : ElementId) (name : String)
    (x : ElementId) (e : Element) :
    (t.renamedElement id name x e).frame
      = (if x = id then e.withName name else e).frame := by
  rw [renamedElement, Element.frame_mapImports, Element.frame_mapTypes]

/-- Of names only its own is. -/
theorem name?_rename (hwl : WellLinked t) (id : ElementId) (name : String)
    (x : ElementId) :
    (t.rename id name).name? x = if x = id then (t.name? x).map fun _ =>
      name else t.name? x := by
  rw [name?, name?, (changedBy_rename hwl id name).get?_eq]
  cases t.get? x with
  | none => simp
  | some e =>
      have hname := congrArg (·.2.1) (renamedElement_frame t id name x e)
      show some (t.renamedElement id name x e).name = _
      by_cases hx : x = id
      · rw [if_pos hx] at hname ⊢
        exact congrArg some hname
      · rw [if_neg hx] at hname ⊢
        exact congrArg some hname

/-- A rename keeps a tree well linked. -/
theorem WellLinked.rename (hwl : WellLinked t) (id : ElementId) (name : String) :
    WellLinked (t.rename id name) := by
  refine (samePlaces_rename t id name).wellLinked hwl fun x e' he' => ?_
  obtain ⟨e, he, rfl⟩ := (changedBy_rename hwl id name).exists_of_get? he'
  refine Element.tokenFits_of_frame_eq (renamedElement_frame t id name x e) ?_
  by_cases hx : x = id
  · rw [if_pos hx]
    exact Element.tokenFits_withName name e
  · rw [if_neg hx]
    exact fun c hc => hwl.token_eq_name x e c he hc

end Tree

end CodeModel
