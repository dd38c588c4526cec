import CodeModel.Proofs.ImportNames
import CodeModel.Proofs.Successes

/-!
# What a rename reaches

A new name shows in the element and in its header, in every reference bound to
it, and through the dotted names of namespaces in the imports of all that lies
below it. `Renamed` says this of two trees without a word of the sweeps that a
rename makes over the arena, and says as well that all else is the same.

* **`renamed_rename`**: a rename is such a change.
* **`ReferencesCurrent.rename`, `ImportsCurrent.rename`**: so references and
  imports that show current names show current names afterwards. A declaration
  that is not at or below the renamed element has no renamed element above it,
  so that imports of it keep their name.
* **`run_setName_exact`**: when a rename is refused, and what it is otherwise.
-/

namespace CodeModel

namespace Element

/-- The names of imports take no part in the types that an element refers to. -/
theorem references_mapImports {f : Import → Import}
    (hf : ∀ i, (f i).symbol = i.symbol) (e : Element) :
    (e.mapImports (·.map f)).references = e.references := by
  rw [references, typeSlots_mapImports_eq, references]
  rw [List.filterMap_map]
  exact List.filterMap_congr fun i _ => hf i

/-- A name is no reference. -/
theorem references_withName (name : String) (e : Element) :
    (e.withName name).references = e.references := by
  obtain ⟨oldName, parent, children, description, content⟩ := e
  cases content <;> rfl

theorem references_keepWireName (name : String) (e : Element) :
    (e.keepWireName name).references = e.references := by
  obtain ⟨oldName, parent, children, description, content⟩ := e
  cases content <;> rfl

end Element

namespace Tree

variable {t t' : Tree} {id : ElementId} {name : String}

/-! ## Names that are current -/

/-- Every reference of the arena that is bound to a class or an enum shows its
    name. -/
def ReferencesCurrent (t : Tree) : Prop :=
  ∀ x e, t.get? x = some e → ∀ r ∈ e.references, ∀ d, r.definition? = some d →
    t.isDeclaration d = true →
    t.name? d = some r.name

/-- Every import of the arena that is bound to a class or an enum carries the
    name that imports of it carry. -/
def ImportsCurrent (t : Tree) : Prop :=
  ∀ x e, t.get? x = some e → ∀ i ∈ e.imports, ∀ d, i.target? = some d →
    t.isDeclaration d = true →
    i.name = t.importName d

/-! ## A rename as a change of the arena -/

/-- What the import `i` is after the element `id` of `t` was renamed, `t'` being
    the tree afterwards. An import of a class or an enum at or below the element
    gets the name that imports of it carry; any other stays as it is. -/
structure Follows (t t' : Tree) (id : ElementId) (i i' : Import) : Prop where
  named : ∀ d, i.target? = some d → t.isDeclaration d = true → Within t id d →
    i' = { i with name := t'.importName d }
  kept : (∀ d, i.target? = some d → t.isDeclaration d = true → ¬ Within t id d) →
    i' = i

/-- Tree `t'` is `t` with the element `id` called `name`, with the references
    bound to it showing that name if it is a class or an enum, and with the
    imports of what is at or below it following. All else is the same in every
    element of the arena. -/
def Renamed (t t' : Tree) (id : ElementId) (name : String) : Prop :=
  ∃ follow : Import → Import, (∀ i, Follows t t' id i (follow i))
    ∧ ChangedBy (fun x e => ((if x = id then e.withName name else e).mapTypes
        (·.rename fun r => if t.isDeclaration id
          ∧ r.definition? = some id then name else r.name)).mapImports
          (·.map follow)) t t'

/-- Refreshed after a renaming, an import follows it. -/
theorem follows_refreshImport (hwl : WellLinked t) (id : ElementId) (name : String)
    (i : Import) :
    Follows t (t.rename id name) id i ((t.rename id name).refreshImport id i) := by
  have hsame := samePlaces_rename t id name
  constructor
  · intro d hd hdecl hin
    rw [refreshImport, hd]
    dsimp only
    rw [hsame.isWithin_eq, hsame.isDeclaration_eq, hwl.isWithin_iff.mpr hin, hdecl,
      Bool.and_self, if_pos rfl]
  · intro hout
    rw [refreshImport]
    cases hd : i.target? with
    | none => rfl
    | some d =>
        dsimp only
        rw [hsame.isWithin_eq, hsame.isDeclaration_eq, if_neg]
        intro h
        obtain ⟨hin, hdecl⟩ := Bool.and_eq_true_iff.mp h
        exact hout d hd hdecl (hwl.isWithin_iff.mp hin)

/-- A rename changes what shows the name, and nothing else. -/
theorem renamed_rename (hwl : WellLinked t) (id : ElementId) (name : String) :
    Renamed t (t.rename id name) id name :=
  ⟨(t.rename id name).refreshImport id, follows_refreshImport hwl id name,
    changedBy_rename hwl id name⟩

/-! ## Names stay current -/

/-- Every reference of an element shows the names afterwards. -/
theorem references_renamedElement (x : ElementId) (e : Element) :
    (t.renamedElement id name x e).references
      = e.references.map (·.rename (t.shownName id name)) := by
  rw [renamedElement, Element.references_mapImports (symbol_refreshImport id),
    Element.references_rename]
  by_cases hx : x = id
  · rw [if_pos hx, Element.references_withName]
  · rw [if_neg hx]

/-- References that showed current names do so after a renaming. -/
theorem ReferencesCurrent.rename (h : t.ReferencesCurrent) (hwl : WellLinked t)
    (id : ElementId) (name : String) : (t.rename id name).ReferencesCurrent := by
  intro x e' he' r' hr' d hd hdecl
  obtain ⟨e, he, rfl⟩ := (changedBy_rename hwl id name).exists_of_get? he'
  rw [references_renamedElement] at hr'
  obtain ⟨r, hr, rfl⟩ := List.mem_map.mp hr'
  rw [TypeRef.definition?_rename] at hd
  rw [(samePlaces_rename t id name).isDeclaration_eq] at hdecl
  have hname := h x e he r hr d hd hdecl
  have hshown : (r.rename (t.shownName id name)).name = t.shownName id name r := by
    obtain ⟨_, _, _, _⟩ := r
    rw [TypeRef.rename]
  rw [hshown, name?_rename hwl, shownName, hd]
  by_cases hid : d = id
  · -- The declaration is the renamed element, and the reference follows.
    subst hid
    rw [if_pos rfl, if_pos ⟨hdecl, rfl⟩, hname]
    rfl
  · rw [if_neg hid, if_neg (fun hb => hid (Option.some.inj hb.2)), hname]

/-- Imports that carried current names do so after a renaming. What matters is
    what lies at or below the element; the names of all other declarations are
    as they were. -/
theorem ImportsCurrent.rename (h : t.ImportsCurrent) (hwl : WellLinked t)
    (id : ElementId) (name : String) : (t.rename id name).ImportsCurrent := by
  have hsame := samePlaces_rename t id name
  intro x e' he' i' hi' d hd hdecl
  obtain ⟨e, he, rfl⟩ := (changedBy_rename hwl id name).exists_of_get? he'
  rw [imports_renamedElement] at hi'
  obtain ⟨i, hi, rfl⟩ := List.mem_map.mp hi'
  rw [target?_renamedImport] at hd
  rw [hsame.isDeclaration_eq] at hdecl
  have htarget : (i.mapSymbol (·.rename (t.shownName id name))).target? = some d :=
    (Import.target?_eq_of_subject?_eq
      (Import.subject?_mapSymbol_rename (t.unbound_shownName id name) i)).trans hd
  have hfollows :=
    follows_refreshImport hwl id name (i.mapSymbol (·.rename (t.shownName id name)))
  rw [renamedImport]
  by_cases hin : Within t id d
  · rw [hfollows.named d htarget hdecl hin]
  · have hkept := hfollows.kept fun d' hd' _ => by
      rw [htarget] at hd'
      exact Option.some.inj hd' ▸ hin
    rw [hkept, importName_eq_of_sameAbove hwl (hwl.rename id name) hsame.root_eq
      (hwl.sameAbove_rename name hin)]
    exact h x e he i hi d hd hdecl

/-- A change of what is neither named nor referred to leaves references
    current. -/
theorem ReferencesCurrent.modify {f : Element → Element}
    (h : t.ReferencesCurrent) (hframe : ∀ e, (f e).frame = e.frame)
    (hrefs : ∀ e, (f e).references = e.references) (id : ElementId) :
    (t.modify id f).ReferencesCurrent := by
  have hsame := sameFrames_modify t id hframe
  intro x e' he' r hr d hd hdecl
  obtain ⟨e, he, rfl⟩ := (changedBy_modify t id f).exists_of_get? he'
  rw [hsame.samePlaces.isDeclaration_eq] at hdecl
  rw [hsame.name?_eq]
  refine h x e he r ?_ d hd hdecl
  split at hr
  · exact hrefs e ▸ hr
  · exact hr

/-- Imports stay current while frames and blocks are the same. -/
theorem ImportsCurrent.modify {f : Element → Element}
    (h : t.ImportsCurrent) (hframe : ∀ e, (f e).frame = e.frame)
    (himports : ∀ e, (f e).imports = e.imports) (id : ElementId) :
    (t.modify id f).ImportsCurrent := by
  have hsame := sameFrames_modify t id hframe
  intro x e' he' i hi d hd hdecl
  obtain ⟨e, he, rfl⟩ := (changedBy_modify t id f).exists_of_get? he'
  rw [hsame.samePlaces.isDeclaration_eq] at hdecl
  rw [hsame.importName_eq]
  refine h x e he i ?_ d hd hdecl
  split at hi
  · exact himports e ▸ hi
  · exact hi

end Tree

namespace Edit

open CodeModel.Tree

variable {t : Tree}

/-- Any element but the root may be called by any name but the empty one. That
    changes what shows the name and nothing else, and references and imports
    that showed current names still do. A rename of anything else, or to the
    empty name, is refused and leaves the tree as it was. -/
theorem run_setName_exact (hwf : WellFormed t) (id : ElementId) (name : String) :
    (∀ e, t.get? id = some e → id ≠ t.root → name ≠ "" →
        ∃ t', (setName id name).run t = .ok () t' ∧ Renamed t t' id name
          ∧ (t.ReferencesCurrent → t'.ReferencesCurrent)
            ∧ (t.ImportsCurrent → t'.ImportsCurrent))
      ∧ (t.get? id = none ∨ id = t.root ∨ name = "" →
        ∃ err, (setName id name).run t = .error err t) := by
  have hwl := hwf.toWellLinked
  constructor
  · intro e he hroot hname
    obtain ⟨_, t', hrun, rfl⟩ :=
      succeeds_setName (Q := fun _ t' => t' = t.rename id name) hname hroot he rfl
    exact ⟨_, hrun, renamed_rename hwl id name, fun h => h.rename hwl id name,
      fun h => h.rename hwl id name⟩
  · intro hrefused
    cases hrun : (setName id name).run t with
    | error err t' => exact ⟨err, by rw [eq_of_run_change_eq_error hrun]⟩
    | ok u t' =>
        obtain ⟨hname, hroot, ⟨e, he⟩, -⟩ := run_setName_eq_ok hrun
        rcases hrefused with hnone | heq | hempty
        · rw [hnone] at he
          cases he
        · exact absurd heq hroot
        · exact absurd hempty hname

/-- A tree with a class in a namespace, and a class that imports it and uses it
    in a union. -/
def orderInUnion : Tree :=
  Operation.runAll
    [.addNamespace ⟨0⟩ "shop",
      .addNew .classes ⟨1⟩ (.classDecl "Order" .model),
      .addNew .classes ⟨0⟩ (.classDecl "Client" .custom),
      .addImports ⟨3⟩ [.ofSymbol "shop" (.declared "Order" ⟨2⟩), .ofModule "shop"],
      .addNew .properties ⟨3⟩
        (.property "value" .custom
          (.union "Order" [.external "Order", .declared "Order" ⟨2⟩]))]
    initial

theorem wellFormed_orderInUnion : WellFormed orderInUnion :=
  (Operation.fullyNamed_runAll _ fullyNamed_initial).wellFormed

/-- Of the three references of the union that show the name of the class, the
    one that is bound to it follows. Of the two imports that name the namespace,
    the one of the class follows. -/
theorem run_setName_exact_orderInUnion :
    (∃ t', (setName ⟨2⟩ "Purchase").run orderInUnion = .ok () t'
        ∧ t'.name? ⟨2⟩ = some "Purchase"
        ∧ (t'.class? ⟨2⟩).map (·.token) = some "Purchase"
        ∧ t'.valueType? ⟨4⟩
          = some (.union "Order" [.external "Order", .declared "Purchase" ⟨2⟩])
        ∧ t'.ReferencesCurrent ∧ t'.ImportsCurrent)
      ∧ (∃ t', (setName ⟨1⟩ "store").run orderInUnion = .ok () t'
        ∧ t'.imports ⟨3⟩ = [.ofSymbol "store" (.declared "Order" ⟨2⟩),
          .ofModule "shop"] ∧ t'.ImportsCurrent)
      ∧ ∃ err, (setName ⟨2⟩ "").run orderInUnion = .error err orderInUnion := by
  have hrefs : orderInUnion.ReferencesCurrent := by
    have hall : ∀ i < orderInUnion.size, ∀ e ∈ orderInUnion.get? ⟨i⟩,
        ∀ r ∈ e.references, ∀ d ∈ r.definition?,
        orderInUnion.isDeclaration d = true →
        orderInUnion.name? d = some r.name := by
          decide +kernel
    exact fun x e he r hr d hd => hall x.index (index_lt_of_get? he) e he r hr d hd
  have himports : orderInUnion.ImportsCurrent := by
    have hall : ∀ i < orderInUnion.size, ∀ e ∈ orderInUnion.get? ⟨i⟩,
        ∀ j ∈ e.imports, ∀ d ∈ j.target?,
        orderInUnion.isDeclaration d = true →
        j.name = orderInUnion.importName d := by
          decide +kernel
    exact fun x e he i hi d hd => hall x.index (index_lt_of_get? he) e he i hi d hd
  obtain ⟨eo, heo⟩ : ∃ e, orderInUnion.get? ⟨2⟩ = some e := ⟨_, rfl⟩
  obtain ⟨es, hes⟩ : ∃ e, orderInUnion.get? ⟨1⟩ = some e := ⟨_, rfl⟩
  refine ⟨?_, ?_,
    (run_setName_exact wellFormed_orderInUnion ⟨2⟩ "").2 (Or.inr (Or.inr rfl))⟩
  · obtain ⟨t', hrun, -, hkeptRefs, hkeptImports⟩ :=
      (run_setName_exact wellFormed_orderInUnion ⟨2⟩ "Purchase").1 eo heo
        (by decide) (by decide)
    obtain ⟨-, -, -, rfl⟩ := run_setName_eq_ok hrun
    exact ⟨_, hrun, by decide +kernel, by decide +kernel, by decide +kernel,
      hkeptRefs hrefs, hkeptImports himports⟩
  · obtain ⟨t', hrun, -, -, hkeptImports⟩ :=
      (run_setName_exact wellFormed_orderInUnion ⟨1⟩ "store").1 es hes
        (by decide) (by decide)
    obtain ⟨-, -, -, rfl⟩ := run_setName_eq_ok hrun
    exact ⟨_, hrun, by decide +kernel, hkeptImports himports⟩

end Edit

end CodeModel
