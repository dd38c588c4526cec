import CodeModel.Proofs.ImportCompleteness
import CodeModel.Proofs.Keywords

/-!
# Paths of imports

Imports of declarations get their paths in one pass. Most passes come before it
and do not touch paths at all; three come after it, and none of those moves or
renames anything or brings in a declaration.

* **`LooseKept`**: the imports that are bound to no declaration stay as they
  are, one after another, and new ones come after them and have no path. Every
  pass keeps that (`Pass.looseKept_apply`).
* **`Resolved`**: the imports that are bound to a declaration have the path that
  leads there. The pass brings that about for every attached class
  (`resolved_of_resolveImportPaths`), and what stands as `PathsStand` says keeps
  it.

Main statement: `importPaths_of_refine`.
-/

namespace CodeModel

open CodeModel.Tree

/-! ## Blocks -/

namespace Import

/-- For an import that is bound to no declaration: what it brings in, and its
    path. -/
def loose? (i : Import) : Option (ImportKey × Option String) :=
  if i.target?.isNone then some (i.key, i.path) else none

/-- The imports of a block that are bound to no declaration, in order. -/
def looseImports (block : List Import) : List (ImportKey × Option String) :=
  block.filterMap loose?

/-- The imports that are bound to no declaration are what they were, and those
    that come after them have no path. -/
def GrowsLoosely (block block' : List Import) : Prop :=
  ∃ added, looseImports block' = looseImports block ++ added
    ∧ ∀ i ∈ added, i.2 = none

/-- A bound import is not loose. -/
theorem loose?_of_bound {i : Import} {d : ElementId} (h : i.target? = some d) :
    i.loose? = none := by
  rw [loose?, h]
  rfl

/-- Only the name of a bound import may change. -/
theorem loose?_congr {i j : Import} (hsubject : j.subject? = i.subject?)
    (hpath : j.path = i.path) (hname : i.target? = none → j.name = i.name) :
    j.loose? = i.loose? := by
  have htarget : j.target? = i.target? := target?_eq_of_subject?_eq hsubject
  rw [loose?, loose?, htarget, hpath]
  cases ht : i.target? with
  | none => rw [key_eq_iff.mpr ⟨hname ht, hsubject⟩]
  | some d => rfl

/-- A block grows loosely into one with the same loose imports. -/
theorem growsLoosely_of_eq {block block' : List Import}
    (h : looseImports block' = looseImports block) : GrowsLoosely block block' :=
  ⟨[], by rw [h, List.append_nil], fun _ hi => absurd hi List.not_mem_nil⟩

namespace GrowsLoosely

variable {block block' block'' : List Import}

theorem refl (block : List Import) : GrowsLoosely block block :=
  growsLoosely_of_eq rfl

theorem trans (h : GrowsLoosely block block') (h' : GrowsLoosely block' block'') :
    GrowsLoosely block block'' := by
  obtain ⟨added, heq, hpath⟩ := h
  obtain ⟨added', heq', hpath'⟩ := h'
  refine ⟨added ++ added', by rw [heq', heq, List.append_assoc], fun i hi => ?_⟩
  exact (List.mem_append.mp hi).elim (hpath i) (hpath' i)

/-- Changing a block by something that leaves loose imports alone is no
    growth. -/
theorem map {g : Import → Import} (hg : ∀ i ∈ block, (g i).loose? = i.loose?) :
    GrowsLoosely block (block.map g) := by
  refine growsLoosely_of_eq ?_
  rw [looseImports, List.filterMap_map]
  exact List.filterMap_congr hg

/-- Only bound imports may be dropped. -/
theorem filter {p : Import → Bool}
    (hp : ∀ i ∈ block, p i = false → i.target?.isSome) :
    GrowsLoosely block (block.filter p) := by
  refine growsLoosely_of_eq ?_
  rw [looseImports, List.filterMap_filter]
  refine List.filterMap_congr fun i hi => ?_
  cases hpi : p i with
  | true => rfl
  | false =>
      obtain ⟨d, hd⟩ := Option.isSome_iff_exists.mp (hp i hi hpi)
      exact (loose?_of_bound hd).symm

/-- New imports without paths are growth. -/
theorem addImports {new : List Import}
    (hnew : ∀ i ∈ new, i.target? = none → i.path = none) :
    GrowsLoosely block (addImports block new) := by
  induction new generalizing block with
  | nil => exact refl block
  | cons i rest ih =>
      have hfirst : GrowsLoosely block (addImport block i) := by
        rcases addImport_eq block i with ⟨heq, -⟩ | ⟨heq, -⟩
        · rw [heq]
          exact refl block
        · refine ⟨looseImports [i],
            by rw [heq, looseImports, List.filterMap_append]; rfl, fun l hl => ?_⟩
          obtain ⟨j, hj, hloose⟩ := List.mem_filterMap.mp hl
          obtain rfl := List.mem_singleton.mp hj
          rw [loose?] at hloose
          split at hloose
          · next hnone =>
            rw [← Option.some.inj hloose]
            exact hnew j List.mem_cons_self (Option.isNone_iff_eq_none.mp hnone)
          · cases hloose
      exact hfirst.trans (ih fun j hj => hnew j (List.mem_cons_of_mem _ hj))

end GrowsLoosely

end Import

/-- Imports that a target asks for have no paths. -/
theorem ImportSpec.path_toImport (s : ImportSpec) : s.toImport.path = none := by
  rw [toImport]
  cases s.symbol <;> rfl

/-! ## Trees -/

namespace Tree

variable {t t' t'' t₀ : Tree} {n : Nat} {K : StepKind → Prop}

/-- Every element keeps its imports that are bound to no declaration, and new
    ones have no path. -/
def LooseKept (t t' : Tree) : Prop :=
  ∀ x, Import.GrowsLoosely (t.imports x) (t'.imports x)

theorem LooseKept.refl (t : Tree) : LooseKept t t :=
  fun x => .refl (t.imports x)

theorem LooseKept.trans (h : LooseKept t t') (h' : LooseKept t' t'') :
    LooseKept t t'' :=
  fun x => (h x).trans (h' x)

/-- A change keeps loose imports if it does so element by element. -/
theorem ChangedBy.looseKept {F : ElementId → Element → Element}
    (h : ChangedBy F t t') (hF : ∀ x e, t.get? x = some e →
      Import.GrowsLoosely e.imports (F x e).imports) : LooseKept t t' := by
  intro x
  rw [imports, imports, h.get?_eq x]
  cases he : t.get? x with
  | none => exact .refl []
  | some e => exact hF x e he

/-- Modifying one element does. -/
theorem looseKept_modify {id : ElementId} {f : Element → Element}
    (hf : ∀ e, t.get? id = some e → Import.GrowsLoosely e.imports (f e).imports) :
    LooseKept t (t.modify id f) := by
  refine (changedBy_modify t id f).looseKept fun x e he => ?_
  split
  · next hx => exact hf e (hx ▸ he)
  · exact .refl e.imports

/-- A new element without imports does. -/
theorem looseKept_push {e : Element} (himports : e.imports = []) :
    LooseKept t (t.push e) := by
  intro x
  rw [imports, imports, get?_push]
  by_cases hx : x = t.nextId
  · rw [if_pos hx, hx, get?_nextId, Option.map_some, himports]
    exact .refl []
  · rw [if_neg hx]
    exact .refl _

/-- Links have no imports. -/
theorem looseKept_attach (holder : ElementId) (ids : List ElementId) :
    LooseKept t (t.attach holder ids) :=
  (changedBy_attach t holder ids).looseKept fun _ e _ => .refl e.imports

theorem looseKept_detach (holder child : ElementId) :
    LooseKept t (t.detach holder child).2 := by
  by_cases hc : child ∈ t.children holder
  · exact (changedBy_detach hc).looseKept fun _ e _ => .refl e.imports
  · rw [detach, if_neg hc]
    exact .refl t

/-- Refreshing leaves loose imports alone. -/
theorem loose?_refreshImport (scope : ElementId) (i : Import) :
    (t.refreshImport scope i).loose? = i.loose? := by
  refine Import.loose?_congr (subject?_refreshImport scope i) ?_ fun hi => ?_
  · rw [refreshImport]
    cases i.target? with
    | none => rfl
    | some d =>
        dsimp only
        split <;> rfl
  · rw [refreshImport_of_unbound hi]

theorem looseKept_rebindImports (scope : ElementId) :
    LooseKept t (t.rebindImports scope) := by
  refine (changedBy_rebindImports t scope).looseKept fun _ e _ => ?_
  rw [imports_mapImports_map]
  exact .map fun i _ => loose?_refreshImport scope i

/-- Renaming does too, for only bound imports get other names. -/
theorem looseKept_renameBound (id : ElementId) (name : String) :
    LooseKept t (t.renameBound id name) := by
  refine (changedBy_renameReferences t _).looseKept fun _ e _ => ?_
  rw [Element.imports_mapTypes]
  refine .map fun i _ => ?_
  have hname : ∀ r : TypeRef, r.definition? = none →
      (if r.definition? = some id then name else r.name) = r.name := fun r hr => by
        rw [hr]; rfl
  exact Import.loose?_congr (Import.subject?_mapSymbol_rename hname i) rfl
    fun _ => rfl

theorem looseKept_rename (id : ElementId) (name : String) :
    LooseKept t (t.rename id name) := by
  have hnamed : LooseKept t (t.modify id (Element.withName name)) :=
    looseKept_modify fun e _ => by
      rw [Element.imports_withName]
      exact .refl e.imports
  rw [rename]
  split
  · exact (hnamed.trans (looseKept_renameBound id name)).trans
      (looseKept_rebindImports id)
  · exact (hnamed.trans (looseKept_renameBound id name)).trans
      (looseKept_rebindImports id)
  · exact hnamed.trans (looseKept_rebindImports id)
  · exact hnamed

/-- Elements are made without imports, and setting a type leaves imports alone. -/
theorem looseKept_of_steps
    (hK : ∀ k, K k → k ∈ [StepKind.retype, .make, .construct, .copy, .attach])
    (hsteps : Steps K n t t') : LooseKept t t' := by
  induction hsteps with
  | refl => exact .refl t
  | tail _ hstep ih =>
      refine ih.trans ?_
      cases hstep with
      | retype _ _ =>
          refine looseKept_modify fun e _ => ?_
          rw [Element.imports_mapValueType]
          exact .refl e.imports
      | create _ _ _ himports => exact looseKept_push himports
      | attach => exact looseKept_attach _ _
      | amend _ hk
      | rename _ _ _ hk
      | move _ _ _ _ _ hk
      | reinsert _ _ _ _ _ _ hk =>
          exact absurd (hK _ hk) (by decide)

end Tree

/-! ## Edits -/

namespace Edit

open CodeModel.Tree

variable {t₀ : Tree}

/-- Modifying an element keeps loose imports if the change does. -/
theorem looseKept_modifyElement {id : ElementId} {f : Element → Element}
    (hf : ∀ e, Import.GrowsLoosely e.imports (f e).imports) :
    Keeps (LooseKept t₀) (modifyElement id f) :=
  fun _ h => h.trans (looseKept_modify fun e _ => hf e)

/-- An edit of one element that leaves its imports alone. -/
theorem looseKept_modifyElement_of_eq {id : ElementId} {f : Element → Element}
    (hf : ∀ e, (f e).imports = e.imports) :
    Keeps (LooseKept t₀) (modifyElement id f) :=
  looseKept_modifyElement fun e => by
    rw [hf e]
    exact .refl e.imports

theorem looseKept_addImports {target : ElementId} {new : List Import}
    (hnew : ∀ i ∈ new, i.target? = none → i.path = none) :
    Keeps (LooseKept t₀) (discard (addImports target new)) := by
  refine Keeps.discard (Keeps.changeWith fun t k t' h hok => h.trans ?_)
  obtain ⟨e, he, -, rfl⟩ := run_addImports_eq_ok (run_changeWith_eq_ok_iff.mpr hok)
  refine looseKept_modify fun e' he' => ?_
  obtain rfl : e = e' := Option.some.inj (he.symm.trans he')
  rw [Element.imports_mapImports]
  split
  · exact .addImports hnew
  · next hnone =>
    rw [Element.imports, Option.not_isSome_iff_eq_none.mp hnone]
    exact .refl []

theorem looseKept_addSpec (target : ElementId) (spec : ImportSpec) :
    Keeps (LooseKept t₀) (discard (addImports target [spec.toImport])) :=
  looseKept_addImports fun i hi _ => by
    rw [List.mem_singleton.mp hi]
    exact spec.path_toImport

theorem looseKept_setName (id : ElementId) (name : String) :
    Keeps (LooseKept t₀) (setName id name) := by
  refine Keeps.change fun t t' h hok => h.trans ?_
  obtain ⟨-, -, -, rfl⟩ :=
    run_setName_eq_ok (u := ()) (run_change_eq_ok_iff.mpr hok)
  exact looseKept_rename id name

theorem looseKept_add (slot : Slot) (holder : ElementId) (ids : List ElementId) :
    Keeps (LooseKept t₀) (add slot holder ids) := by
  refine Keeps.change fun t t' h hok => h.trans ?_
  obtain ⟨-, -, -, -, -, rfl⟩ := (insert_eq_ok_iff t t' slot holder ids).mp hok
  exact looseKept_attach holder ids

theorem looseKept_addNew (slot : Slot) (holder : ElementId) {e : Element}
    (himports : e.imports = []) :
    Keeps (LooseKept t₀) (addNew slot holder e) := by
  have hcreate : Keeps (LooseKept t₀) (create e) := by
    refine Keeps.changeWith fun t id t' h hok => h.trans ?_
    obtain ⟨-, -, rfl⟩ := run_create_eq_ok (run_changeWith_eq_ok_iff.mpr hok)
    exact looseKept_push himports
  exact hcreate.bind fun id =>
    (looseKept_add slot holder [id]).bind fun _ => Keeps.pure id

theorem looseKept_remove (holder child : ElementId) :
    Keeps (LooseKept t₀) (discard (remove holder child)) := by
  refine Keeps.discard (Keeps.changeWith fun t found t' h hok => h.trans ?_)
  rw [run_remove_eq_ok (run_changeWith_eq_ok_iff.mpr hok)]
  exact looseKept_detach holder child

theorem looseKept_rebindImports (scope : ElementId) :
    Keeps (LooseKept t₀) (discard (rebindImports scope)) := by
  refine Keeps.discard (Keeps.changeWith fun t k t' h hok => h.trans ?_)
  rw [run_rebindImports_eq_ok (run_changeWith_eq_ok_iff.mpr hok)]
  exact Tree.looseKept_rebindImports scope

/-! ## Passes -/

theorem looseKept_seedImports (defaults : List DefaultImport) :
    Keeps (LooseKept t₀) (seedImports defaults) := by
  refine Keeps.crawl fun id => Keeps.get.bind fun t => ?_
  cases t.class? id with
  | none => exact Keeps.pure _
  | some c =>
      dsimp only
      split
      · exact Keeps.pure _
      · refine looseKept_addImports fun i hi _ => ?_
        obtain ⟨d, -, rfl⟩ := List.mem_map.mp hi
        exact d.spec.path_toImport

/-- Moving classes names bound imports anew, and no others. -/
theorem looseKept_moveIntoNamesakes : Keeps (LooseKept t₀) moveIntoNamesakes := by
  refine Keeps.crawl fun id => Keeps.get.bind fun t => ?_
  split
  · exact Keeps.pure _
  · exact (looseKept_remove _ id).bind fun _ => (looseKept_add _ _ _).bind fun _ =>
      looseKept_rebindImports id

/-- What is imported because it is referred to is bound. -/
theorem looseKept_importReferenced (ownNamespaceToo : Bool) :
    Keeps (LooseKept t₀) (importReferenced ownNamespaceToo) := by
  refine Keeps.crawl fun id => Keeps.get.bind fun t => ?_
  split
  · exact Keeps.pure _
  · dsimp only
    split
    · exact Keeps.pure _
    · refine looseKept_addImports fun i hi _ => ?_
      -- All that is added is bound, and has no path yet.
      obtain ⟨d, -, himport⟩ := List.mem_filterMap.mp hi
      rw [importOf?] at himport
      split at himport
      · cases himport
      · split at himport
        · cases himport
        · obtain ⟨name, -, rfl⟩ := Option.map_eq_some_iff.mp himport
          rfl

theorem looseKept_addAsyncSuffix (suffix : String) :
    Keeps (LooseKept t₀) (addAsyncSuffix suffix) := by
  refine Keeps.crawl fun id => Keeps.get.bind fun t => ?_
  split
  · exact Keeps.pure _
  · exact looseKept_setName id _

/-- Taking a class in drops one bound import and names others anew. -/
theorem looseKept_nestQueryClasses : Keeps (LooseKept t₀) nestQueryClasses := by
  have hdrop : ∀ builder id : ElementId, Keeps (LooseKept t₀)
      (modifyElement builder (Element.mapClass fun c =>
        { c with imports := c.imports.filter fun i => i.target? ≠ some id })) := by
    intro builder id
    refine looseKept_modifyElement fun e => ?_
    by_cases hclass : e.kind = .classDecl
    · rw [Element.imports_filterImports _ hclass]
      refine .filter fun i _ hi => ?_
      rw [of_not_not (of_decide_eq_false hi)]
      rfl
    · have hsame : (e.mapClass fun c =>
          { c with imports := c.imports.filter fun i => i.target? ≠ some id }).imports
          = e.imports := by
        obtain ⟨name, parent, children, description, content⟩ := e
        cases content <;> first | rfl | exact absurd rfl hclass
      rw [hsame]
      exact .refl e.imports
  have hafter : ∀ builder id : ElementId, Keeps (LooseKept t₀) (do
      add .innerClasses builder [id]
      modifyElement builder (Element.mapClass fun c =>
        { c with imports := c.imports.filter fun i => i.target? ≠ some id })
      discard <| rebindImports id) := fun builder id =>
    (looseKept_add _ _ _).bind fun _ => (hdrop builder id).bind fun _ =>
      looseKept_rebindImports id
  refine Keeps.crawl fun id => Keeps.get.bind fun t => ?_
  split
  · exact Keeps.pure _
  · refine Keeps.forM (fun d => ?_) _
    refine Keeps.get.bind fun s => ?_
    split
    · exact (looseKept_remove _ d).bind fun _ => hafter id d
    · exact hafter id d

theorem looseKept_implementInModels (interface : String) (spec : ImportSpec) :
    Keeps (LooseKept t₀) (implementInModels interface spec) := by
  refine Keeps.crawl fun id => Keeps.get.bind fun t => ?_
  split
  · exact Keeps.pure _
  · exact (looseKept_modifyElement_of_eq (Element.imports_addInterface _)).bind
        fun _ =>
      looseKept_addSpec id spec

theorem looseKept_capitalizeNamespaces :
    Keeps (LooseKept t₀) capitalizeNamespaces := by
  refine Keeps.crawl fun id => (Keeps.inspect _).bind fun e => ?_
  split
  · exact looseKept_setName id _
  · exact Keeps.pure _

theorem looseKept_replaceBinary (typeName : String) (spec : ImportSpec) :
    Keeps (LooseKept t₀) (replaceBinary typeName spec) := by
  refine Keeps.crawl fun id => Keeps.get.bind fun t => ?_
  refine (Keeps.forM (fun h =>
    looseKept_modifyElement_of_eq (Element.imports_mapValueType _)) _).bind
    fun _ => ?_
  split
  · exact Keeps.pure _
  · split
    · exact looseKept_addSpec _ spec
    · exact Keeps.pure _

theorem looseKept_makeEnumPropertiesNullable :
    Keeps (LooseKept t₀) makeEnumPropertiesNullable := by
  refine Keeps.crawl fun id => Keeps.get.bind fun t => ?_
  split
  · exact looseKept_modifyElement_of_eq (Element.imports_mapProperty _)
  · exact Keeps.pure _

theorem looseKept_escapeReservedNames (reserved : ReservedNames)
    (style : EscapeStyle) :
    Keeps (LooseKept t₀) (escapeReservedNames reserved style) := by
  refine Keeps.crawl fun id => (Keeps.inspect _).bind fun e => ?_
  split
  · exact (looseKept_setName id _).bind fun _ =>
      looseKept_modifyElement_of_eq (Element.imports_keepWireName _)
  · exact Keeps.pure _

theorem looseKept_disambiguateProperties (suffix : String) :
    Keeps (LooseKept t₀) (disambiguateProperties suffix) := by
  refine Keeps.crawl fun id => Keeps.get.bind fun t =>
    (Keeps.inspect _).bind fun e => ?_
  split
  · exact Keeps.pure _
  · split
    · exact Keeps.pure _
    · exact (looseKept_remove id _).bind fun _ =>
        (looseKept_modifyElement_of_eq (Element.imports_keepWireName _)).bind
            fun _ =>
          (looseKept_setName _ _).bind fun _ => looseKept_add _ _ _

theorem looseKept_addConstructors (inheritingToo : Bool) :
    Keeps (LooseKept t₀) (addConstructors inheritingToo) := by
  refine Keeps.crawl fun id => Keeps.get.bind fun t => ?_
  split
  · exact (looseKept_addNew .methods id rfl).discard
  · exact Keeps.pure _

/-- Corrected types change no import. -/
theorem looseKept_correctTypes (c : TypeCorrections) :
    Keeps (LooseKept t₀) (correctTypes c) := by
  refine Keeps.crawl fun id => Keeps.get.bind fun t => ?_
  exact looseKept_modifyElement_of_eq (TypeCorrections.imports_correct c _)

end Edit

namespace Tree

variable {t t' : Tree}

/-- Only the path of a bound import is written. -/
theorem loose?_withImportPath {id : ElementId} {i j : Import}
    (h : t.withImportPath id i = .ok j) : j.loose? = i.loose? := by
  rw [withImportPath] at h
  cases ht : i.target? with
  | none =>
      rw [ht] at h
      rw [Except.ok.inj h]
  | some d =>
      rw [ht] at h
      dsimp only at h
      split at h
      · rw [← Except.ok.inj h, Import.loose?_of_bound ht]
        exact Import.loose?_of_bound ht
      · cases h

/-- A bound import with a path has the one that leads to its declaration. -/
theorem importPath_of_withImportPath {id d : ElementId} {i j : Import}
    (h : t.withImportPath id i = .ok j) (hd : j.target? = some d) :
    ∃ path, t.importPath id d = .ok path ∧ j.path = some path := by
  have hi : i.target? = some d := by
    rw [← hd, Import.target?, Import.target?, (withImportPath_eq h).2]
  rw [withImportPath, hi] at h
  dsimp only at h
  split at h
  · next path hpath =>
    rw [← Except.ok.inj h]
    exact ⟨path, hpath, rfl⟩
  · cases h

/-- A whole block is given paths, import by import; the loose ones are what they
    were. -/
theorem mapM_withImportPath_eq_ok {id : ElementId} {block resolved : List Import}
    (h : block.mapM (t.withImportPath id) = .ok resolved) :
    Import.looseImports resolved = Import.looseImports block
      ∧ ∀ j ∈ resolved, ∃ i, t.withImportPath id i = .ok j := by
  induction block generalizing resolved with
  | nil =>
      obtain rfl : [] = resolved := Except.ok.inj h
      exact ⟨rfl, fun j hj => absurd hj List.not_mem_nil⟩
  | cons i rest ih =>
      rw [List.mapM_cons] at h
      cases hi : t.withImportPath id i with
      | error e => rw [hi] at h; cases h
      | ok j =>
          rw [hi] at h
          cases hr : rest.mapM (t.withImportPath id) with
          | error e => rw [hr] at h; cases h
          | ok js =>
              rw [hr] at h
              obtain rfl : j :: js = resolved := Except.ok.inj h
              obtain ⟨hloose, hmem⟩ := ih hr
              refine ⟨?_, fun k hk => ?_⟩
              · rw [Import.looseImports] at hloose
                rw [Import.looseImports, Import.looseImports, List.filterMap_cons,
                  List.filterMap_cons, loose?_withImportPath hi, hloose,
                  Import.looseImports]
              · rcases List.mem_cons.mp hk with rfl | hk
                · exact ⟨i, hi⟩
                · exact hmem k hk

/-- The visit of an element gives the imports of a class their paths and does
    nothing to what is no class. -/
theorem run_resolveOwn_eq_ok {id : ElementId} {u : Unit}
    (hrun : (Edit.resolveOwn id).run t = .ok u t') :
    (t' = t ∧ t.class? id = none)
      ∨ ∃ resolved, (t.imports id).mapM (t.withImportPath id) = .ok resolved
        ∧ t' = t.modify id (Element.mapImports fun _ => resolved)
        ∧ t'.imports id = resolved := by
  rw [Edit.resolveOwn, Edit.run_get_bind] at hrun
  cases hc : t.class? id with
  | none =>
      rw [hc] at hrun
      exact Or.inl ⟨(Edit.run_pure_eq_ok_iff.mp hrun).2.symm, rfl⟩
  | some c =>
      rw [hc] at hrun
      obtain ⟨resolved, t₁, hresolve, hmodify⟩ := Edit.run_bind_eq_ok_iff.mp hrun
      obtain ⟨hok, rfl⟩ := Edit.run_inspect_eq_ok_iff.mp hresolve
      rw [Edit.run_modifyElement_eq_ok_iff] at hmodify
      obtain ⟨e, he, hclass⟩ := Option.bind_eq_some_iff.mp hc
      have hblock : e.imports? = some c.imports := by
        rw [Element.imports?, Element.class?_eq_some_iff.mp hclass]
      have himports : t.imports id = c.imports := by
        rw [imports, he, Option.map_some, Option.getD_some, Element.imports, hblock,
          Option.getD_some]
      refine Or.inr ⟨resolved, himports ▸ hok, hmodify.symm, ?_⟩
      rw [← hmodify, imports, get?_modify, if_pos rfl, he, Option.map_some,
        Option.map_some, Option.getD_some, Element.imports_mapImports, hblock]
      rfl

/-- A visit changes paths only, and only those of the element visited. -/
theorem sameFrames_of_resolveOwn {id : ElementId} {u : Unit}
    (hrun : (Edit.resolveOwn id).run t = .ok u t') :
    SameFrames t t' ∧ LooseKept t t' ∧ ∀ x, x ≠ id →
      t'.imports x = t.imports x := by
  rcases run_resolveOwn_eq_ok hrun with ⟨rfl, -⟩ | ⟨resolved, hok, rfl, hresolved⟩
  · exact ⟨.refl _, .refl _, fun _ _ => rfl⟩
  · have hother : ∀ x, x ≠ id →
        (t.modify id (Element.mapImports fun _ => resolved)).imports x
        = t.imports x :=
      fun x hx => by rw [imports, imports, get?_modify, if_neg hx]
    refine ⟨sameFrames_modify t id fun e => Element.frame_mapImports _ e,
      fun x => ?_, hother⟩
    by_cases hx : x = id
    · rw [hx, hresolved]
      exact Import.growsLoosely_of_eq (mapM_withImportPath_eq_ok hok).1
    · rw [hother x hx]
      exact .refl _

theorem looseKept_resolveImportPaths {u : Unit}
    (hrun : Edit.resolveImportPaths.run t = .ok u t') : LooseKept t t' := by
  rw [Edit.resolveImportPaths_eq] at hrun
  refine Edit.crawl_induction (I := LooseKept t)
    (fun s id s' hs _ hvisit => ?_) (.refl t) hrun
  exact hs.trans (sameFrames_of_resolveOwn hvisit).2.1

/-- Wrappers are made and put in place without touching imports. -/
theorem looseKept_wrapUnions {placement : WrapperPlacement} (h : Stable t)
    {u : Unit} (hrun : (Edit.wrapUnions placement).run t = .ok u t') :
    LooseKept t t' :=
  looseKept_of_steps (K := (· ∈ [StepKind.retype, .make, .attach])) (n := 0)
    (by decide)
    (steps_wrapUnions (by decide) (by decide) (by decide) h (Nat.zero_le _) hrun)

/-- Copies are properties, which import nothing. -/
theorem looseKept_flattenInheritance (h : Stable t) {u : Unit}
    (hrun : Edit.flattenInheritance.run t = .ok u t') : LooseKept t t' := by
  refine (Edit.crawl_induction (I := fun s => Stable s ∧ LooseKept t s)
    (fun s id s' hs ha hvisit => ?_) ⟨h, .refl t⟩ hrun).2
  obtain ⟨hstable, hkept⟩ := hs
  have hattached : Attached s id := hstable.toWellLinked.isAttached_iff.mp ha
  rw [Edit.run_get_bind] at hvisit
  split at hvisit
  · obtain ⟨-, rfl⟩ := Edit.run_pure_eq_ok_iff.mp hvisit
    exact ⟨hstable, hkept⟩
  next hparent =>
    obtain ⟨copies, s₁, hclone, hrest⟩ := Edit.run_bind_eq_ok_iff.mp hvisit
    have hsources := fun p hp =>
      hstable.of_mem_inheritedProperties (p := p)
        (hstable.ancestor_of_parentClass? hattached hparent) hp
    have hcopied : LooseKept s s₁ :=
      looseKept_of_steps (K := fun k => k = .copy) (by rintro k rfl; decide)
        (steps_cloneProperties (K := fun k => k = .copy) rfl hstable (Nat.zero_le _)
          hsources hclone).1
    have hinherit : Edit.Keeps (LooseKept s) (Edit.inherit id copies) := by
      have hdrop : Edit.Keeps (LooseKept s) (Edit.modifyElement id
          (Element.mapClass fun c => { c with inherits := none })) :=
        Edit.looseKept_modifyElement_of_eq Element.imports_dropInheritance
      rw [Edit.inherit]
      split
      · exact (Edit.looseKept_add .properties id copies).bind fun _ => hdrop
      · exact hdrop
    have hsteps :=
      (steps_inherit (K := fun _ => True) (n := 0) trivial trivial trivial hstable
      (Nat.zero_le _) hattached hparent hclone hrest).1
    exact ⟨(hstable.steps hsteps).1, hkept.trans (hinherit.of_run hcopied hrest)⟩

end Tree

/-- No pass changes the path of an import that is bound to no declaration, and
    none gives such an import one. -/
theorem Pass.looseKept_apply (pass : Pass) {t t' : Tree} {u : Unit} (h : Stable t)
    (hrun : pass.apply.run t = .ok u t') : LooseKept t t' := by
  have hbefore : LooseKept t t := .refl t
  cases pass with
  | seedImports defaults =>
      exact (Edit.looseKept_seedImports defaults).of_run hbefore hrun
  | moveIntoNamesakes => exact Edit.looseKept_moveIntoNamesakes.of_run hbefore hrun
  | wrapUnions placement => exact looseKept_wrapUnions h hrun
  | flattenInheritance => exact looseKept_flattenInheritance h hrun
  | importReferenced own =>
      exact (Edit.looseKept_importReferenced own).of_run hbefore hrun
  | addAsyncSuffix suffix =>
      exact (Edit.looseKept_addAsyncSuffix suffix).of_run hbefore hrun
  | nestQueryClasses => exact Edit.looseKept_nestQueryClasses.of_run hbefore hrun
  | implementInModels interface spec =>
      exact (Edit.looseKept_implementInModels interface spec).of_run hbefore hrun
  | capitalizeNamespaces =>
      exact Edit.looseKept_capitalizeNamespaces.of_run hbefore hrun
  | replaceBinary typeName spec =>
      exact (Edit.looseKept_replaceBinary typeName spec).of_run hbefore hrun
  | makeEnumPropertiesNullable =>
      exact Edit.looseKept_makeEnumPropertiesNullable.of_run hbefore hrun
  | escapeReservedNames reserved style =>
      exact (Edit.looseKept_escapeReservedNames reserved style).of_run hbefore hrun
  | disambiguateProperties suffix =>
      exact (Edit.looseKept_disambiguateProperties suffix).of_run hbefore hrun
  | addConstructors inheritingToo =>
      exact (Edit.looseKept_addConstructors inheritingToo).of_run hbefore hrun
  | correctTypes c => exact (Edit.looseKept_correctTypes c).of_run hbefore hrun
  | resolveImportPaths => exact looseKept_resolveImportPaths hrun

/-- Through a list of passes loose imports are kept, and new ones have no
    paths. -/
theorem Pipeline.looseKept_of_forM {language : Language} {passes : List Pass}
    {t t' : Tree} {u : Unit} (h : Stable t)
    (hrun : (passes.forM (Pipeline.runPass language)).run t = .ok u t') :
    LooseKept t t' := by
  induction passes generalizing t with
  | nil =>
      obtain rfl := Pipeline.run_forM_nil_eq_ok_iff.mp hrun
      exact .refl t'
  | cons pass rest ih =>
      obtain ⟨s, hpass, hrest⟩ := Pipeline.run_forM_cons_eq_ok_iff.mp hrun
      exact (pass.looseKept_apply h hpass).trans
        (ih (pass.stable_apply h hpass).1 hrest)

/-! ## Paths that lead to declarations -/

namespace Tree

variable {t t' t'' t₀ : Tree}

/-- Every import of a class that is bound to a declaration has the path that
    leads there. -/
def Resolved (t : Tree) (c : ElementId) : Prop :=
  ∀ i ∈ t.imports c, ∀ d, i.target? = some d → ∃ path, t.importPath c d = .ok path
    ∧ i.path = some path

/-- Every element stands where it stood under the name it had, and what is bound
    among its imports was there before. -/
structure PathsStand (t t' : Tree) : Prop where
  frames : SameFrames t t'
  imports : ∀ x, ∀ i ∈ t'.imports x, ∀ d, i.target? = some d → i ∈ t.imports x

theorem PathsStand.refl (t : Tree) : PathsStand t t :=
  ⟨.refl t, fun _ _ hi _ _ => hi⟩

theorem PathsStand.trans (h : PathsStand t t') (h' : PathsStand t' t'') :
    PathsStand t t'' :=
  ⟨h.frames.trans h'.frames, fun x i hi d hd =>
    h.imports x i (h'.imports x i hi d hd) d hd⟩

/-- A change that keeps frames and adds no bound import keeps the paths. -/
theorem pathsStand_modify {id : ElementId} {f : Element → Element}
    (hframe : ∀ e, (f e).frame = e.frame) (himports : ∀ e, t.get? id = some e →
      ∀ i ∈ (f e).imports, ∀ d, i.target? = some d → i ∈ e.imports) :
    PathsStand t (t.modify id f) := by
  refine ⟨sameFrames_modify t id hframe, fun x i hi d hd => ?_⟩
  rw [Tree.imports, get?_modify] at hi
  rw [Tree.imports]
  split at hi
  · next hx =>
    obtain rfl := hx
    cases he : t.get? x with
    | none =>
        rw [he] at hi
        exact absurd hi List.not_mem_nil
    | some e =>
        rw [he] at hi
        exact himports e he i hi d hd
  · exact hi

/-- Paths are made of frames. -/
theorem SameFrames.importPath_eq (h : SameFrames t t') (start target : ElementId) :
    t'.importPath start target = t.importPath start target := by
  have hstart : t'.namespaceOf? start = t.namespaceOf? start := by
    rw [namespaceOf?, namespaceOf?, h.samePlaces.kind?_eq,
      h.samePlaces.containingNamespace?_eq]
  have hframe := h.frame_eq target
  rw [importPath, importPath, hstart, h.samePlaces.containingNamespace?_eq]
  cases t.namespaceOf? start with
  | none => rfl
  | some here =>
      cases he : t.get? target with
      | none =>
          rw [he, Option.map_none, Option.map_eq_none_iff] at hframe
          rw [hframe]
      | some e =>
          rw [he, Option.map_some] at hframe
          obtain ⟨e', he', hframe⟩ := Option.map_eq_some_iff.mp hframe
          have hkind : e'.kind = e.kind :=
            congrArg (·.2.2) (Element.place_eq_of_frame_eq hframe)
          rw [he']
          dsimp only
          rw [hkind, Element.name_eq_of_frame_eq hframe]
          split
          · rfl
          · cases t.containingNamespace? target with
            | none => rfl
            | some there =>
                dsimp only
                rw [h.namespaceSegments_eq here, h.namespaceSegments_eq there]

/-- Paths that are right stay right while places, names and bound imports
    stay. -/
theorem Resolved.stand {c : ElementId} (h : Resolved t c)
    (hstand : PathsStand t t') : Resolved t' c := by
  intro i hi d hd
  rw [hstand.frames.importPath_eq]
  exact h i (hstand.imports c i hi d hd) d hd

/-- The visit of a class gives its imports their paths, and does not lead the
    paths of others astray. -/
theorem resolved_of_resolveOwn {c id : ElementId}
    {u : Unit} (hrun : (Edit.resolveOwn id).run t = .ok u t')
    (h : c = id ∧ (t.class? id).isSome ∨ Resolved t c) : Resolved t' c := by
  obtain ⟨hframes, -, hother⟩ := sameFrames_of_resolveOwn hrun
  intro i hi d hd
  rw [hframes.importPath_eq]
  rcases run_resolveOwn_eq_ok hrun
    with ⟨rfl, hnone⟩ | ⟨resolved, hok, rfl, hresolved⟩
  · rcases h with ⟨-, hclass⟩ | h
    · rw [hnone] at hclass
      cases hclass
    · exact h i hi d hd
  · by_cases hc : c = id
    · rw [hc, hresolved] at hi
      obtain ⟨j, hj⟩ := (mapM_withImportPath_eq_ok hok).2 i hi
      exact hc ▸ importPath_of_withImportPath hj hd
    · rw [hother c hc] at hi
      rcases h with ⟨heq, -⟩ | h
      · exact absurd heq hc
      · exact h i hi d hd

/-- After the pass the imports of every attached class have their paths. -/
theorem resolved_of_resolveImportPaths (h : Stable t) {u : Unit}
    (hrun : Edit.resolveImportPaths.run t = .ok u t') {c : ElementId}
    (hc : Attached t' c) (hclass : t'.kind? c = some .classDecl) :
    Resolved t' c := by
  rw [Edit.resolveImportPaths_eq] at hrun
  have hwl := h.toWellLinked
  have hdone := Edit.crawl_done_induction
    (I := fun done s => SameFrames t s ∧ ∀ x ∈ done, t.kind? x = some .classDecl →
      Resolved s x)
    (fun done s id hI hid => by
      rw [(hI.1.wellLinked hwl).isAttached_iff, hI.1.samePlaces.attached_iff]
      exact Or.inr (hwl.mem_descendants_iff.mp hid))
    (fun done id rest s s' _ hI hvisit => by
      refine ⟨hI.1.trans (sameFrames_of_resolveOwn hvisit).1, fun x hx hkind => ?_⟩
      refine resolved_of_resolveOwn hvisit ((List.mem_append.mp hx).elim
        (fun hx => Or.inr (hI.2 x hx hkind)) fun hx => ?_)
      obtain rfl := List.mem_singleton.mp hx
      exact Or.inl
        ⟨rfl, isSome_class?_iff.mpr (hI.1.samePlaces.kind?_eq x ▸ hkind)⟩)
    ⟨.refl t, fun x hx => absurd hx List.not_mem_nil⟩ hrun
  rw [hdone.1.samePlaces.kind?_eq] at hclass
  rw [hdone.1.samePlaces.attached_iff] at hc
  rcases hc with rfl | hc
  · rw [hwl.kind?_root] at hclass
    cases hclass
  · exact hdone.2 c (hwl.mem_descendants_iff.mpr hc) hclass

/-! ## Passes after the paths are there -/

/-- An import that a target asks for leaves the others in their places. -/
theorem pathsStand_addSpec {target : ElementId} {spec : ImportSpec} {u : Unit}
    (hrun : (discard (Edit.addImports target [spec.toImport]) : Edit Unit).run
      t = .ok u t') : PathsStand t t' := by
  obtain ⟨k, hadd⟩ := Edit.run_discard_eq_ok_iff.mp hrun
  obtain ⟨e, he, hsome, rfl⟩ := Edit.run_addImports_eq_ok hadd
  refine pathsStand_modify (Element.frame_mapImports _) fun e' he' i hi d hd => ?_
  obtain rfl : e = e' := Option.some.inj (he.symm.trans he')
  rw [Element.imports_mapImports, if_pos hsome] at hi
  rcases Import.mem_addImports hi with hi | hi
  · exact hi
  · rw [List.mem_singleton.mp hi, spec.target?_toImport] at hd
    cases hd

theorem pathsStand_modifyElement {id : ElementId}
    {f : Element → Element} (hframe : ∀ e, (f e).frame = e.frame)
    (himports : ∀ e, (f e).imports = e.imports) {u : Unit}
    (hrun : (Edit.modifyElement id f).run t = .ok u t') : PathsStand t t' := by
  rw [Edit.run_modifyElement_eq_ok_iff] at hrun
  rw [← hrun]
  exact pathsStand_modify hframe fun e _ i hi d _ => himports e ▸ hi

theorem pathsStand_implementInModels {interface : String} {spec : ImportSpec}
    {u : Unit} (hrun : (Edit.implementInModels interface spec).run t = .ok u t') :
    PathsStand t t' := by
  refine Edit.crawl_induction (I := PathsStand t)
    (fun s id s' hs _ hvisit => hs.trans ?_) (.refl t) hrun
  rw [Edit.run_get_bind] at hvisit
  split at hvisit
  · exact (Edit.run_pure_eq_ok_iff.mp hvisit).2 ▸ .refl s
  · obtain ⟨_, s₁, hmodify, hadd⟩ := Edit.run_bind_eq_ok_iff.mp hvisit
    exact (pathsStand_modifyElement (Element.frame_addInterface _)
      (Element.imports_addInterface _) hmodify).trans (pathsStand_addSpec hadd)

theorem pathsStand_correctTypes {c : TypeCorrections} {u : Unit}
    (hrun : (Edit.correctTypes c).run t = .ok u t') : PathsStand t t' := by
  refine Edit.crawl_induction (I := PathsStand t)
    (fun s id s' hs _ hvisit => hs.trans ?_) (.refl t) hrun
  rw [Edit.run_get_bind] at hvisit
  exact pathsStand_modifyElement
    (Element.frame_mapContent (TypeCorrections.kind_correct c _)
      (TypeCorrections.token?_correct c _))
    (TypeCorrections.imports_correct c _) hvisit

theorem pathsStand_makeEnumPropertiesNullable {u : Unit}
    (hrun : Edit.makeEnumPropertiesNullable.run t = .ok u t') :
    PathsStand t t' := by
  refine Edit.crawl_induction (I := PathsStand t)
    (fun s id s' hs _ hvisit => hs.trans ?_) (.refl t) hrun
  rw [Edit.run_get_bind] at hvisit
  split at hvisit
  · exact pathsStand_modifyElement (Element.frame_mapProperty _)
      (Element.imports_mapProperty _) hvisit
  · exact (Edit.run_pure_eq_ok_iff.mp hvisit).2 ▸ .refl s

/-- The path to a declaration goes from the namespace around the class to the
    one around the declaration. -/
theorem importPath_eq_ok {c d : ElementId} {path : String}
    (hclass : t.kind? c = some .classDecl) (h : t.importPath c d = .ok path) :
    ∃ here there name, t.containingNamespace? c = some here
      ∧ t.containingNamespace? d = some there
      ∧ t.name? d = some name
      ∧ path = ImportPath.relative (t.namespaceSegments here)
        (t.namespaceSegments there) name := by
  rw [importPath, namespaceOf?, hclass] at h
  dsimp only at h
  cases hhere : t.containingNamespace? c with
  | none => rw [hhere] at h; cases h
  | some here =>
      cases he : t.get? d with
      | none => rw [hhere, he] at h; cases h
      | some e =>
          rw [hhere, he] at h
          dsimp only at h
          split at h
          · cases h
          · cases hthere : t.containingNamespace? d with
            | none => rw [hthere] at h; cases h
            | some there =>
                rw [hthere] at h
                refine ⟨here, there, e.name, rfl, rfl, ?_, (Except.ok.inj h).symm⟩
                rw [name?, he, Option.map_some]

end Tree

namespace Configuration

variable {c : Configuration} {t t' : Tree} {u : Unit}

/-- TypeScript imports lead to what they import: in a well-formed tree refined
    for TypeScript, every import of an attached class that is bound to a
    declaration has the relative path from the namespace around the class to the
    declaration. The imports that are bound to no declaration are those of the
    class as it was, each with the path it had, and after them new ones without
    a path. -/
theorem importPaths_of_refine (hlanguage : c.language = .typescript)
    (hwf : WellFormed t) (hrun : (refine c).run t = .ok u t') {x : ElementId}
    (hx : Attached t' x) (hkind : t'.kind? x = some .classDecl) :
    (∀ i ∈ t'.imports x, ∀ d, i.target? = some d → ∃ here there name,
        t'.containingNamespace? x = some here
          ∧ t'.containingNamespace? d = some there
          ∧ t'.name? d = some name
          ∧ i.path
            = some (ImportPath.relative (t'.namespaceSegments here)
              (t'.namespaceSegments there) name))
      ∧ Import.GrowsLoosely (t.imports x) (t'.imports x) := by
  have hpasses : c.passes =
      ([.seedImports typescriptImports, .wrapUnions .siblingClasses] ++ c.flattening
        ++ [.escapeReservedNames c.reservedNames (.suffix "_escaped"),
          .importReferenced true]
        ++ c.asyncSuffix)
      ++ .resolveImportPaths ::
        [.implementInModels "Parsable"
          (.ofSymbol typescriptAbstractions "Parsable"),
          .correctTypes typescriptCorrections, .makeEnumPropertiesNullable] := by
    rw [passes, hlanguage, typescriptPasses]
  have hall := run_of_refine hrun
  have hloose : LooseKept t t' :=
    Pipeline.looseKept_of_forM (Pipeline.steps_of_run hwf hall).1
      (Pipeline.run_eq_ok_iff.mp hall).2
  refine ⟨fun i hi d hd => ?_, hloose x⟩
  obtain ⟨s, m, hs, hpaths, -, hrest⟩ := exists_run_of_refine hwf hrun hpasses
  have hstand : PathsStand m t' := by
    obtain ⟨m₁, himplement, hrest⟩ := Pipeline.run_forM_cons_eq_ok_iff.mp hrest
    obtain ⟨m₂, hcorrect, hrest⟩ := Pipeline.run_forM_cons_eq_ok_iff.mp hrest
    obtain ⟨m₃, hnullable, hrest⟩ := Pipeline.run_forM_cons_eq_ok_iff.mp hrest
    obtain rfl := Pipeline.run_forM_nil_eq_ok_iff.mp hrest
    exact ((pathsStand_implementInModels himplement).trans
      (pathsStand_correctTypes hcorrect)).trans
      (pathsStand_makeEnumPropertiesNullable hnullable)
  have hresolved : Resolved m x := by
    refine resolved_of_resolveImportPaths hs hpaths ?_ ?_
    · exact hstand.frames.samePlaces.attached_iff.mp hx
    · rw [← hstand.frames.samePlaces.kind?_eq]
      exact hkind
  obtain ⟨path, hpath, hi⟩ := hresolved.stand hstand i hi d hd
  obtain ⟨here, there, name, hhere, hthere, hname, rfl⟩ :=
    importPath_eq_ok hkind hpath
  exact ⟨here, there, name, hhere, hthere, hname, hi⟩

/-- A tree with an order in one namespace and a client in another that takes it
    and imports a file. -/
def clientOfOrders : Tree :=
  Operation.runAll
    [.addNamespace ⟨0⟩ "shop.Orders",
      .addNew .classes ⟨2⟩ (.classDecl "Order" .model),
      .addNamespace ⟨1⟩ "web",
      .addNew .classes ⟨4⟩ (.classDecl "Client" .requestBuilder),
      .addNew .properties ⟨5⟩ (.property "order" .custom (.declared "Order" ⟨3⟩)),
      .addImports ⟨5⟩ [⟨"lodash", none, some "vendor/lodash"⟩]]
    initial

theorem wellFormed_clientOfOrders : WellFormed clientOfOrders :=
  (Operation.fullyNamed_runAll _ fullyNamed_initial).wellFormed

/-- The client comes to import the order by a path that goes up from its own
    namespace, in lower case; the file it imported before keeps its path and
    comes first. -/
theorem importPaths_of_refine_clientOfOrders :
    ∃ t', (refine { language := .typescript }).run clientOfOrders = .ok () t'
      ∧ (∃ i ∈ t'.imports ⟨5⟩, i.target? = some ⟨3⟩
        ∧ i.path = some "../orders/order")
      ∧ ∃ added, Import.looseImports (t'.imports ⟨5⟩)
        = (.whole "lodash", some "vendor/lodash") :: added
        ∧ ∀ i ∈ added, i.2 = none := by
  obtain ⟨t', hrun, hattached, hkind, hbound, hclient, horder, hname, hfrom, hto⟩ :
      ∃ t', (refine { language := .typescript }).run clientOfOrders = .ok () t'
        ∧ t'.isAttached ⟨5⟩ = true ∧ t'.kind? ⟨5⟩ = some .classDecl
        ∧ (∃ i ∈ t'.imports ⟨5⟩, i.target? = some ⟨3⟩)
        ∧ t'.containingNamespace? ⟨5⟩ = some ⟨4⟩
        ∧ t'.containingNamespace? ⟨3⟩ = some ⟨2⟩
        ∧ t'.name? ⟨3⟩ = some "Order"
        ∧ t'.namespaceSegments ⟨4⟩ = ["shop", "web"]
        ∧ t'.namespaceSegments ⟨2⟩ = ["shop", "Orders"] :=
    exists_refine_eq_ok rfl (by decide +kernel)
  have hwl := (Pipeline.wellFormed_of_run wellFormed_clientOfOrders
    (run_of_refine hrun)).1.toWellLinked
  obtain ⟨hpaths, hloose⟩ :=
    importPaths_of_refine rfl wellFormed_clientOfOrders hrun
    (hwl.isAttached_iff.mp hattached) hkind
  obtain ⟨i, hi, htarget⟩ := hbound
  obtain ⟨here, there, name, hhere, hthere, hname', hi'⟩ := hpaths i hi ⟨3⟩ htarget
  obtain rfl := Option.some.inj (hclient.symm.trans hhere)
  obtain rfl := Option.some.inj (horder.symm.trans hthere)
  obtain rfl := Option.some.inj (hname.symm.trans hname')
  have hpath : ImportPath.relative ["shop", "web"] ["shop", "Orders"] "Order"
      = "../orders/order" := by
    decide +kernel
  rw [hfrom, hto, hpath] at hi'
  have hbefore : Import.looseImports (clientOfOrders.imports ⟨5⟩)
      = [(.whole "lodash", some "vendor/lodash")] := by decide +kernel
  obtain ⟨added, hadded, hnone⟩ := hloose
  rw [hbefore, List.singleton_append] at hadded
  exact ⟨t', hrun, ⟨i, hi, htarget, hi'⟩, added, hadded, hnone⟩

end Configuration

end CodeModel
