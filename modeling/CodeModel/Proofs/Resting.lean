import CodeModel.Proofs.ImportPaths

/-!
# Edits that have nothing left to do

An edit rests on a tree when it is not refused and leaves the tree as it is. A
traversal rests when every visit does. So that a second traversal rests, the
first has to settle every element that it visits, and no later visit may
unsettle it.

* **`Rests`**: the property, with its laws for the operations and for traversals
  (`rests_crawl`).
* **`settled_of_crawl`**: what the visits of a traversal settle is settled in
  the end.
* **`rests_crawl_of_elements`**: the case of visits that change only the element
  that they visit.
* **`rests_crawl_importWanted`**: the case of imports that are added by what
  does not depend on imports (`Tree.SameButImports`).

The passes here change an element in its place and by itself: those that seed
imports, import what is referred to, make models implement an interface, make
properties nullable and give imports their paths.
-/

namespace CodeModel

open CodeModel.Tree

/-! ## Blocks that hold what would be added -/

namespace Import

/-- A block to which some named imports could be added, but which holds all of
    them. -/
structure Absorbs (block new : List Import) : Prop where
  ne_nil : new ≠ []
  named : ∀ i ∈ new, i.name ≠ ""
  held : ∀ i ∈ new, ∃ j ∈ block, j.key = i.key

/-- Imports that are held are not added. -/
theorem addImports_of_held {block new : List Import}
    (h : ∀ i ∈ new, ∃ j ∈ block, j.key = i.key) : addImports block new = block := by
  induction new with
  | nil => rfl
  | cons i rest ih =>
      have hfirst : addImport block i = block := by
        obtain ⟨j, hj, hkey⟩ := h i List.mem_cons_self
        rcases addImport_eq block i with ⟨heq, -⟩ | ⟨-, hnew⟩
        · exact heq
        · exact absurd hkey (hnew j hj)
      show addImports (addImport block i) rest = block
      rw [hfirst]
      exact ih fun i hi => h i (List.mem_cons_of_mem _ hi)

end Import

namespace Edit

variable {t t' : Tree}

/-! ## Resting -/

/-- The edit is not refused and leaves the tree as it is. -/
def Rests (m : Edit Unit) (t : Tree) : Prop :=
  m.run t = .ok () t

/-- A change that an element does not need leaves the tree alone. -/
theorem rests_modifyElement {id : ElementId} {f : Element → Element}
    (h : ∀ e, t.get? id = some e → f e = e) : Rests (modifyElement id f) t := by
  refine run_modifyElement_eq_ok_iff.mpr (eq_of_get?_eq rfl fun x => ?_)
  rw [get?_modify]
  by_cases hx : x = id
  · rw [if_pos hx, hx]
    cases he : t.get? id with
    | none => rfl
    | some e => exact congrArg some (h e he)
  · rw [if_neg hx]

/-- What rests in both parts rests. -/
theorem Rests.bind {m : Edit Unit} {f : Unit → Edit Unit} (hm : Rests m t)
    (hf : Rests (f ()) t) : Rests (m >>= f) t :=
  run_bind_eq_ok_iff.mpr ⟨(), t, hm, hf⟩

theorem rests_addImports {id : ElementId} {e : Element} {new : List Import}
    (he : t.get? id = some e) (hblock : e.imports?.isSome)
    (h : Import.Absorbs e.imports new) : Rests (discard (addImports id new)) t := by
  obtain ⟨block, hblock⟩ := Option.isSome_iff_exists.mp hblock
  have himports : e.imports = block := by
    rw [Element.imports, hblock, Option.getD_some]
  have hempty : new.isEmpty = false := List.isEmpty_eq_false_iff.mpr h.ne_nil
  have hnamed : (new.any fun i => i.name.isEmpty) = false := by
    refine List.any_eq_false.mpr fun i hi hname => h.named i hi ?_
    rwa [String.isEmpty_iff] at hname
  have hsame : t.modify id (Element.mapImports fun _ => block) = t := by
    refine run_modifyElement_eq_ok_iff.mp (rests_modifyElement fun e' he' => ?_)
    obtain rfl := Option.some.inj (he'.symm.trans he)
    exact Element.mapImports_of_map_eq himports.symm
  refine run_discard_eq_ok_iff.mpr ⟨0, run_changeWith_eq_ok_iff.mpr ?_⟩
  rw [himports] at h
  rw [if_neg (by rw [hempty]; exact Bool.false_ne_true),
    if_neg (by rw [hnamed]; exact Bool.false_ne_true)]
  simp only [he, hblock, Import.addImports_of_held h.held, Nat.sub_self, hsame]

/-- A block absorbs what has been added to it. -/
theorem absorbs_of_run_addImports {id : ElementId} {new : List Import} {k : Nat}
    (hrun : (addImports id new).run t = .ok k t') :
    ∃ e, t.get? id = some e ∧ e.imports?.isSome
      ∧ t'
        = t.modify id (Element.mapImports fun _ => Import.addImports e.imports new)
      ∧ Import.Absorbs (Import.addImports e.imports new) new := by
  obtain ⟨e, he, hblock, ht'⟩ := run_addImports_eq_ok hrun
  rw [addImports, run_changeWith_eq_ok_iff] at hrun
  split_ifs at hrun with hempty hunnamed
  refine ⟨e, he, hblock, ht', ?_, fun i hi hname => ?_, fun i hi =>
    Import.exists_mem_addImports_of_mem hi⟩
  · rintro rfl
    exact hempty rfl
  · refine hunnamed (List.any_eq_true.mpr ⟨i, hi, ?_⟩)
    rw [hname]
    rfl

/-! ## Traversals -/

/-- What was below the root is attached as long as places stay. -/
theorem isAttached_of_samePlaces (hwl : WellLinked t) (h : SamePlaces t t')
    {id : ElementId} (hid : id ∈ t.descendants t.root) :
    t'.isAttached id = true := by
  show t'.isWithin t'.root id = true
  rw [h.root_eq, h.isWithin_eq]
  exact hwl.isAttached_iff.mpr (Or.inr (hwl.mem_descendants_iff.mp hid))

/-- A traversal all of whose visits rest rests. -/
theorem rests_crawl {visit : ElementId → Edit Unit}
    (h : ∀ x ∈ t.descendants t.root, Rests (visit x) t) :
    Rests (crawl visit) t := by
  show (crawlWith () fun _ id => visit id).run t = _
  rw [crawlWith, run_get_bind]
  generalize t.descendants t.root = ids at h
  induction ids with
  | nil => rfl
  | cons id rest ih =>
      rw [List.foldlM_cons]
      refine run_bind_eq_ok_iff.mpr ⟨(), t, ?_, ih fun x hx =>
        h x (List.mem_cons_of_mem _ hx)⟩
      rw [visitAttached, run_get_bind]
      split
      · exact h id List.mem_cons_self
      · rfl

/-- What every visit makes of the element that it visits, and all other visits
    leave alone, holds of all that was below the root when the traversal
    began. -/
theorem settled_of_crawl {J : Tree → Prop}
    {C : ElementId → Tree → Prop} {visit : ElementId → Edit Unit}
    (hattached : ∀ s id, J s → id ∈ t.descendants t.root → s.isAttached id = true)
    (hvisit : ∀ s id s', J s → id ∈ t.descendants t.root → (visit id).run s = .ok ()
      s' → J s' ∧ C id s' ∧ ∀ x ∈ t.descendants t.root, x ≠ id → C x s → C x s')
    (hJ : J t) {u : Unit} (hrun : (crawl visit).run t = .ok u t') :
    J t' ∧ ∀ x ∈ t.descendants t.root, C x t' := by
  have hdone := crawl_done_induction
    (I := fun done s => (∀ x ∈ done, x ∈ t.descendants t.root) ∧ J s
      ∧ ∀ x ∈ done, C x s)
    (fun done s id hI hid => hattached s id hI.2.1 hid)
    (fun done id rest s s' hitems => by
      rintro ⟨hdone, hs, hC⟩ hone
      have hid : id ∈ t.descendants t.root :=
        hitems ▸ List.mem_append_right _ List.mem_cons_self
      obtain ⟨hs', hnew, hkept⟩ := hvisit s id s' hs hid hone
      have hmem : ∀ x ∈ done ++ [id], x ∈ done ∨ x = id := fun x hx => by
        simpa using hx
      refine ⟨fun x hx => ?_, hs', fun x hx => ?_⟩
      · rcases hmem x hx with hold | rfl
        · exact hdone x hold
        · exact hid
      · by_cases hne : x = id
        · exact hne ▸ hnew
        · have hold := (hmem x hx).resolve_right hne
          exact hkept x (hdone x hold) hne (hC x hold))
    ⟨fun _ hx => absurd hx List.not_mem_nil, hJ, fun _ hx =>
      absurd hx List.not_mem_nil⟩ hrun
  exact ⟨hdone.2.1, hdone.2.2⟩

/-- Tree `s'` is `s` with the element `id` changed in its place to one that is
    settled. -/
def SettledAt (D : ElementId → Element → Prop) (s : Tree) (id : ElementId)
    (s' : Tree) : Prop :=
  ∃ f, s' = s.modify id f ∧ (∀ e, (f e).place = e.place) ∧ ∀ e, s.get? id = some e →
    D id (f e)

/-- What is as it should be is settled without a change. -/
theorem settledAt_self {D : ElementId → Element → Prop} {s : Tree} {id : ElementId}
    (h : ∀ e, s.get? id = some e → D id e) : SettledAt D s id s :=
  ⟨fun e => e, (modify_self s id).symm, fun _ => rfl, h⟩

/-- Visits that settle the element that they visit, and change no other. -/
theorem rests_crawl_of_elements {J : Tree → Prop} {D : ElementId → Element → Prop}
    {visit : ElementId → Edit Unit} (hwl : WellLinked t) (hJ : J t)
    (hvisit : ∀ s id s', J s → SamePlaces t s → (visit id).run s = .ok () s' →
      J s' ∧ SettledAt D s id s') (hrests : ∀ s id e, J s →
      SamePlaces t s → s.get? id = some e → D id e → Rests (visit id) s) {u : Unit}
    (hrun : (crawl visit).run t = .ok u t') : Rests (crawl visit) t' := by
  obtain ⟨⟨hJ', hs'⟩, hD⟩ := settled_of_crawl (J := fun s => J s ∧ SamePlaces t s)
    (C := fun x s => ∀ e, s.get? x = some e → D x e)
    (fun s id hs hid => isAttached_of_samePlaces hwl hs.2 hid)
    (fun s id s' hs _ hone => by
      obtain ⟨hJ', f, rfl, hplace, hD⟩ := hvisit s id s' hs.1 hs.2 hone
      have hchanged := changedBy_modify s id f
      refine ⟨⟨hJ', hs.2.trans (hchanged.samePlaces fun x e _ => ?_)⟩,
        fun e he => ?_, fun x _ hne hC e he => ?_⟩
      · by_cases hx : x = id
        · rw [if_pos hx, hplace]
        · rw [if_neg hx]
      · rw [get?_modify, if_pos rfl] at he
        obtain ⟨e₀, he₀, rfl⟩ := Option.map_eq_some_iff.mp he
        exact hD e₀ he₀
      · rw [get?_modify, if_neg hne] at he
        exact hC e he)
    ⟨hJ, SamePlaces.refl t⟩ hrun
  refine rests_crawl fun x hx => ?_
  rw [hs'.root_eq, hs'.descendants_eq] at hx
  obtain ⟨e, he⟩ : ∃ e, t'.get? x = some e := by
    refine Option.isSome_iff_exists.mp ?_
    rw [hs'.isSome_get?]
    exact (hwl.mem_descendants_iff.mp hx).isSome_get?
  exact hrests t' x e hJ' hs' he (hD x hx e he)

end Edit

/-! ## Imports that a class wants -/

namespace Element

/-- The element without its imports. -/
def bare (e : Element) : Element :=
  e.mapImports fun _ => []

/-- Without imports no change of imports shows. -/
theorem bare_mapImports (f : List Import → List Import) (e : Element) :
    (e.mapImports f).bare = e.bare := by
  obtain ⟨name, parent, children, description, content⟩ := e
  cases content <;> rfl

theorem valueType?_mapImports (f : List Import → List Import) (e : Element) :
    (e.mapImports f).valueType? = e.valueType? := by
  obtain ⟨name, parent, children, description, content⟩ := e
  cases content <;> rfl

theorem parameter?_bare (e : Element) : e.bare.parameter? = e.parameter? := by
  obtain ⟨name, parent, children, description, content⟩ := e
  cases content <;> rfl

theorem isSome_imports?_mapImports (f : List Import → List Import) (e : Element) :
    (e.mapImports f).imports?.isSome = e.imports?.isSome := by
  obtain ⟨name, parent, children, description, content⟩ := e
  cases content <;> rfl

/-- The imports of a class are those of its declaration. -/
theorem imports_of_class? {e : Element} {c : ClassDecl} (h : e.class? = some c) :
    e.imports? = some c.imports ∧ e.imports = c.imports := by
  have hblock : e.imports? = some c.imports := by
    rw [Element.imports?, Element.class?_eq_some_iff.mp h]
  exact ⟨hblock, by rw [Element.imports, hblock, Option.getD_some]⟩

/-- A change that a class does not need leaves its element alone. -/
theorem mapClass_eq_self {e : Element} {f : ClassDecl → ClassDecl}
    (h : ∀ c, e.class? = some c → f c = c) : e.mapClass f = e := by
  obtain ⟨name, parent, children, description, content⟩ := e
  cases content with
  | classDecl c =>
      have hsame : f c = c := h c rfl
      show (⟨name, parent, children, description, .classDecl (f c)⟩ : Element) = _
      rw [hsame]
  | _ => rfl

theorem place_mapImports (f : List Import → List Import) (e : Element) :
    (e.mapImports f).place = e.place :=
  place_eq_of_frame_eq (frame_mapImports f e)

end Element

namespace Tree

variable {s t t' : Tree}

/-- Two changes of one element are one. -/
theorem modify_modify (t : Tree) (id : ElementId) (f g : Element → Element) :
    (t.modify id f).modify id g = t.modify id fun e => g (f e) := by
  refine eq_of_get?_eq rfl fun x => ?_
  rw [get?_modify, get?_modify, get?_modify]
  by_cases hx : x = id
  · rw [if_pos hx, if_pos hx, if_pos hx, Option.map_map]
    rfl
  · rw [if_neg hx, if_neg hx, if_neg hx]

/-- Tree `t'` is `t` but for imports. -/
structure SameButImports (t t' : Tree) : Prop where
  root_eq : t'.root = t.root
  bare_eq : ∀ x, (t'.get? x).map Element.bare = (t.get? x).map Element.bare

theorem SameButImports.refl (t : Tree) : SameButImports t t := ⟨rfl, fun _ => rfl⟩

theorem SameButImports.trans (h : SameButImports t s) (h' : SameButImports s t') :
    SameButImports t t' :=
  ⟨h'.root_eq.trans h.root_eq, fun x => (h'.bare_eq x).trans (h.bare_eq x)⟩

/-- A change that leaves all but the imports alone does so in the tree. -/
theorem ChangedBy.sameButImports {F : ElementId → Element → Element}
    (h : ChangedBy F t t') (hF : ∀ x e, (F x e).bare = e.bare) :
    SameButImports t t' where
  root_eq := h.root_eq
  bare_eq x := by
    rw [h.get?_eq, Option.map_map]
    exact congrArg (Option.map · _) (funext (hF x))

theorem sameButImports_mapImports (t : Tree) (id : ElementId)
    (f : List Import → List Import) :
    SameButImports t (t.modify id (Element.mapImports f)) :=
  (changedBy_modify t id (Element.mapImports f)).sameButImports fun x e => by
    split
    · exact Element.bare_mapImports f e
    · rfl

/-- What does not depend on the imports of an element is the same. -/
theorem SameButImports.map_eq (h : SameButImports t t') {α : Type} {g : Element → α}
    (hg : ∀ e, g e.bare = g e) (x : ElementId) :
    (t'.get? x).map g = (t.get? x).map g := by
  have hread : ∀ s : Tree, (s.get? x).map g = ((s.get? x).map Element.bare).map g :=
      by
    intro s
    rw [Option.map_map]
    exact congrArg (Option.map · _) (funext fun e => (hg e).symm)
  rw [hread, hread, h.bare_eq]

/-- What is read off an element without its imports is the same. -/
theorem SameButImports.bind_eq (h : SameButImports t t') {α : Type}
    {g : Element → Option α} (hg : ∀ e, g e.bare = g e) (x : ElementId) :
    (t'.get? x).bind g = (t.get? x).bind g := by
  have hread : ∀ s : Tree, (s.get? x).bind g = ((s.get? x).map g).join := by
    intro s
    cases s.get? x <;> rfl
  rw [hread, hread, h.map_eq hg]

/-- Frames are read off elements without their imports. -/
theorem SameButImports.sameFrames (h : SameButImports t t') : SameFrames t t' where
  root_eq := h.root_eq
  frame_eq := h.map_eq fun e => Element.frame_mapImports _ e

/-- A class is the same but for its imports. -/
theorem SameButImports.class_eq (h : SameButImports t t') {α : Type}
    {g : ClassDecl → α} (hg : ∀ c : ClassDecl, g { c with imports := [] } = g c)
    (x : ElementId) : (t'.class? x).map g = (t.class? x).map g := by
  rw [class?, class?, Option.map_bind, Option.map_bind]
  refine h.bind_eq (fun e => ?_) x
  obtain ⟨name, parent, children, description, content⟩ := e
  cases content with
  | classDecl c => exact congrArg some (hg c)
  | _ => rfl

end Tree

namespace Edit

variable {t t' : Tree} {wanted : Tree → ElementId → List Import}

/-- Makes an element import what it wants, unless it wants nothing. -/
def importWanted (wanted : Tree → ElementId → List Import) (id : ElementId) :
    Edit Unit := do
  let new := wanted (← get) id
  if new.isEmpty then return
  discard <| addImports id new

/-- What is wanted has been added once every element has been visited, as long
    as imports play no part in what is wanted. -/
theorem rests_crawl_importWanted (hwl : WellLinked t)
    (hwanted : ∀ s x, SameButImports t s → wanted s x = wanted t x) {u : Unit}
    (hrun : (crawl (importWanted wanted)).run t = .ok u t') :
    Rests (crawl (importWanted wanted)) t' := by
  refine rests_crawl_of_elements (J := SameButImports t) (D := fun x e =>
    wanted t x = [] ∨ e.imports?.isSome ∧ Import.Absorbs e.imports (wanted t x)) hwl
    (SameButImports.refl t) ?_ ?_ hrun
  · intro s id s' hs _ hone
    rw [importWanted, run_get_bind] at hone
    dsimp only at hone
    rw [hwanted s id hs] at hone
    split at hone
    next hempty =>
      obtain ⟨-, rfl⟩ := run_pure_eq_ok_iff.mp hone
      exact ⟨hs, settledAt_self fun e _ => Or.inl (List.isEmpty_iff.mp hempty)⟩
    next =>
      obtain ⟨k, hadd⟩ := run_discard_eq_ok_iff.mp hone
      obtain ⟨e, he, hblock, rfl, habsorbs⟩ := absorbs_of_run_addImports hadd
      refine ⟨hs.trans (sameButImports_mapImports s id _), _, rfl,
        Element.place_mapImports _, ?_⟩
      refine fun e' he' => Or.inr ?_
      obtain rfl := Option.some.inj (he'.symm.trans he)
      rw [Element.imports_mapImports, if_pos hblock]
      exact ⟨by rw [Element.isSome_imports?_mapImports, hblock], habsorbs⟩
  · intro s id e hs _ he hsettled
    rw [Rests, importWanted, run_get_bind]
    dsimp only
    rw [hwanted s id hs]
    split
    · rfl
    next hsome =>
      obtain ⟨hblock, habsorbs⟩ := hsettled.resolve_left fun hnil =>
        hsome (List.isEmpty_iff.mpr hnil)
      exact rests_addImports he hblock habsorbs

/-- The imports that a target asks for in a class. -/
def seeds (defaults : List DefaultImport) (t : Tree) (id : ElementId) :
    List Import :=
  match t.class? id with
  | none => []
  | some c => (defaults.filter (·.appliesTo c.kind)).map (·.spec.toImport)

/-- Seeding is importing what is wanted for the kind of class. -/
theorem seedImports_eq (defaults : List DefaultImport) :
    seedImports defaults = crawl (importWanted (seeds defaults)) := by
  refine congrArg crawl (funext fun id => funext fun t => ?_)
  show (_ : Edit Unit).run t = (importWanted _ id).run t
  rw [importWanted, run_get_bind, run_get_bind, seeds]
  cases t.class? id <;> rfl

/-- After the pass every class holds the imports for its kind, and a second run
    adds none. -/
theorem rests_seedImports {defaults : List DefaultImport} (hwl : WellLinked t)
    {u : Unit} (hrun : (seedImports defaults).run t = .ok u t') :
    Rests (seedImports defaults) t' := by
  rw [seedImports_eq] at hrun ⊢
  refine rests_crawl_importWanted hwl (fun s x hs => ?_) hrun
  have hread : ∀ s : Tree, seeds defaults s x
      = (((s.class? x).map (·.kind)).map fun kind =>
      (defaults.filter (·.appliesTo kind)).map (·.spec.toImport)).getD [] := by
    intro s
    rw [seeds]
    cases s.class? x <;> rfl
  rw [hread, hread, hs.class_eq fun _ => rfl]

/-- The imports of the declarations that a class refers to. -/
def ownImports (ownNamespaceToo : Bool) (t : Tree) (id : ElementId) : List Import :=
  if (t.class? id).isNone then [] else (t.referencedDeclarations id).filterMap
    (t.importOf? ownNamespaceToo id)

/-- Importing what is referred to is importing what is wanted. -/
theorem importReferenced_eq_wanted (ownNamespaceToo : Bool) :
    importReferenced ownNamespaceToo
      = crawl (importWanted (ownImports ownNamespaceToo)) := by
  refine congrArg crawl (funext fun id => funext fun t => ?_)
  show (_ : Edit Unit).run t = (importWanted _ id).run t
  rw [importWanted, run_get_bind, run_get_bind, ownImports]
  cases (t.class? id).isNone <;> rfl

/-- The types that a member writes, given the type of each parameter. -/
def writtenTypes (value? : ElementId → Option TypeRef) (e : Element) :
    List TypeRef :=
  match e.content with
  | .classDecl _ => []
  | .indexer i => [i.indexType, i.returnType]
  | .method m => m.returnType :: e.children.filterMap value?
  | _ => e.valueType?.toList

/-- The types that a member mentions are those written in it and in its
    parameters. -/
theorem memberTypes_eq_writtenTypes (s : Tree) (id : ElementId) :
    s.memberTypes id = ((s.get? id).map (writtenTypes s.valueType?)).getD [] := by
  rw [memberTypes]
  cases s.get? id <;> rfl

theorem writtenTypes_mapImports (value? : ElementId → Option TypeRef)
    (f : List Import → List Import) (e : Element) :
    writtenTypes value? (e.mapImports f) = writtenTypes value? e := by
  obtain ⟨name, parent, children, description, content⟩ := e
  cases content <;> rfl

/-- What an element refers to, and from where, does not depend on imports. -/
theorem ownImports_eq {s : Tree} (h : SameButImports t s) (ownNamespaceToo : Bool)
    (x : ElementId) :
    ownImports ownNamespaceToo s x = ownImports ownNamespaceToo t x := by
  have hframes := h.sameFrames
  have hclass : (s.class? x).isNone = (t.class? x).isNone := by
    have heq :=
      congrArg Option.isNone (h.class_eq (g := fun _ => ()) (fun _ => rfl) x)
    rwa [Option.isNone_map, Option.isNone_map] at heq
  have hvalue : s.valueType? = t.valueType? := funext fun y =>
    h.bind_eq (Element.valueType?_mapImports _) y
  have hheader : s.headerTypes x = t.headerTypes x := by
    have hread : ∀ s : Tree, s.headerTypes x =
        ((s.class? x).map fun c => c.inherits.toList ++ c.implements).getD [] := by
      intro s
      rw [headerTypes]
      cases s.class? x <;> rfl
    rw [hread, hread, h.class_eq fun _ => rfl]
  have hmember : s.memberTypes = t.memberTypes := by
    funext y
    rw [memberTypes_eq_writtenTypes, memberTypes_eq_writtenTypes, hvalue,
      h.map_eq (fun e => writtenTypes_mapImports _ _ e)]
  have himport : s.importOf? ownNamespaceToo x = t.importOf? ownNamespaceToo x := by
    funext d
    rw [importOf?, importOf?, hframes.samePlaces.isWithin_eq,
      hframes.samePlaces.containingNamespace?_eq,
      hframes.samePlaces.containingNamespace?_eq, hframes.name?_eq,
      hframes.importName_eq]
  rw [ownImports, ownImports, hclass, referencedDeclarations,
    referencedDeclarations, hheader, hmember,
    hframes.samePlaces.children_eq, himport]

/-- What a class refers to does not depend on imports, so a second run finds all
    of it imported. -/
theorem rests_importReferenced {ownNamespaceToo : Bool} (hwl : WellLinked t)
    {u : Unit} (hrun : (importReferenced ownNamespaceToo).run t = .ok u t') :
    Rests (importReferenced ownNamespaceToo) t' := by
  rw [importReferenced_eq_wanted] at hrun ⊢
  exact rests_crawl_importWanted hwl
    (fun _ x hs => ownImports_eq hs ownNamespaceToo x) hrun

end Edit

/-! ## Interfaces of models -/

namespace ClassDecl

/-- Whether a class implements an interface. -/
def implementsInterface (c : ClassDecl) (interface : TypeRef) : Bool :=
  c.implements.any fun i => i.name = interface.name ∧ i.target = interface.target

/-- An interface that was added is implemented. -/
theorem implementsInterface_addInterface (c : ClassDecl) (interface : TypeRef) :
    (c.addInterface interface).implementsInterface interface = true := by
  rw [ClassDecl.addInterface]
  split
  next hany => exact hany
  next =>
    refine List.any_eq_true.mpr ⟨interface,
      List.mem_append_right _ (List.mem_singleton_self _), ?_⟩
    exact decide_eq_true ⟨rfl, rfl⟩

end ClassDecl

namespace Edit

variable {t t' : Tree}

/-- What is done to one model when models implement an interface. -/
def implementOne (interface : String) (spec : ImportSpec) (id : ElementId) :
    Edit Unit := do
  if !(← get).isClassOf id [.model] then return
  modifyElement id (Element.mapClass (·.addInterface (.external interface)))
  discard <| addImports id [spec.toImport]

/-- The pass is a crawl with one turn for each element. -/
theorem implementInModels_eq (interface : String) (spec : ImportSpec) :
    implementInModels interface spec = crawl (implementOne interface spec) := rfl

/-- An element that implements the interface and has the import for it, if it is
    a model. -/
def Interfaced (interface : String) (spec : ImportSpec) (e : Element) : Prop :=
  ∀ c, e.class? = some c → c.kind = .model →
    c.implementsInterface (.external interface) = true
      ∧ Import.Absorbs e.imports [spec.toImport]

/-- A turn leaves a model with its interface and the import for it. -/
theorem settledAt_of_implementOne {interface : String} {spec : ImportSpec}
    {id : ElementId} {u : Unit}
    (hrun : (implementOne interface spec id).run t = .ok u t') :
    SettledAt (fun _ => Interfaced interface spec) t id t' := by
  rw [implementOne, run_get_bind] at hrun
  split at hrun
  next hother =>
    obtain ⟨-, rfl⟩ := run_pure_eq_ok_iff.mp hrun
    refine settledAt_self fun e he c hclass hmodel => ?_
    simp [isClassOf, class?, he, hclass, hmodel] at hother
  next =>
    obtain ⟨_, s, hmodify, hrest⟩ := run_bind_eq_ok_iff.mp hrun
    obtain rfl := run_modifyElement_eq_ok_iff.mp hmodify
    obtain ⟨k, hadd⟩ := run_discard_eq_ok_iff.mp hrest
    obtain ⟨e₁, he₁, hblock, rfl, habsorbs⟩ := absorbs_of_run_addImports hadd
    refine ⟨_, modify_modify t id _ _, fun e => ?_, fun e he c hclass _ => ?_⟩
    · rw [Element.place_mapImports]
      exact Element.place_eq_of_frame_eq (Element.frame_addInterface _ e)
    · rw [get?_modify, if_pos rfl, he, Option.map_some] at he₁
      obtain rfl := Option.some.inj he₁
      rw [Element.imports_mapImports, if_pos hblock]
      refine ⟨?_, habsorbs⟩
      obtain ⟨name, parent, children, description, content⟩ := e
      cases content with
      | classDecl d =>
          obtain rfl := Option.some.inj hclass
          exact d.implementsInterface_addInterface (.external interface)
      | _ => cases hclass

theorem rests_implementOne {interface : String} {spec : ImportSpec} {id : ElementId}
    {e : Element} (he : t.get? id = some e)
    (hsettled : Interfaced interface spec e) :
    Rests (implementOne interface spec id) t := by
  rw [Rests, implementOne, run_get_bind]
  split
  · rfl
  next hmodel =>
    obtain ⟨c, hclass, hkind⟩ : ∃ c, e.class? = some c ∧ c.kind = .model := by
      cases hclass : e.class? with
      | none => simp [isClassOf, class?, he, hclass] at hmodel
      | some c =>
          exact ⟨c, rfl, by simpa [isClassOf, class?, he, hclass] using hmodel⟩
    obtain ⟨hinterface, habsorbs⟩ := hsettled c hclass hkind
    refine Rests.bind (rests_modifyElement fun e' he' => ?_)
      (rests_addImports he ?_ habsorbs)
    · obtain rfl := Option.some.inj (he'.symm.trans he)
      refine Element.mapClass_eq_self fun c' hclass' => ?_
      obtain rfl := Option.some.inj (hclass'.symm.trans hclass)
      exact if_pos hinterface
    · rw [(Element.imports_of_class? hclass).1]
      rfl

/-- Later turns leave earlier models alone, so the whole pass rests. -/
theorem rests_implementInModels {interface : String} {spec : ImportSpec}
    (hwl : WellLinked t) {u : Unit}
    (hrun : (implementInModels interface spec).run t = .ok u t') :
    Rests (implementInModels interface spec) t' := by
  rw [implementInModels_eq] at hrun ⊢
  exact rests_crawl_of_elements (J := fun _ => True) hwl trivial
    (fun _ _ _ _ _ hone => ⟨trivial, settledAt_of_implementOne hone⟩)
    (fun _ _ _ _ _ he hsettled => rests_implementOne he hsettled) hrun

end Edit

/-! ## Properties of enum types -/

/-- To make a type nullable that is nullable changes nothing. -/
theorem TypeRef.nullable_eq_self {r : TypeRef} (h : r.isNullable = true) :
    r.nullable = r := by
  obtain ⟨name, target, isNullable, isCollection⟩ := r
  obtain rfl : isNullable = true := h
  rfl

/-- A property of an enum type is one that is bound to an enum. -/
theorem Tree.isEnumProperty_iff {t : Tree} {id : ElementId} :
    t.isEnumProperty id = true ↔
      ∃ p d, t.property? id = some p ∧ p.type.definition? = some d
        ∧ t.kind? d = some .enumDecl := by
  rw [isEnumProperty]
  cases t.property? id with
  | none => simp
  | some p => cases hd : p.type.definition? <;> simp [hd]

namespace Element

/-- After the change its type is nullable. -/
theorem nullable_of_mapProperty {e : Element} {p : PropertyDecl}
    (h : (e.mapProperty fun q => { q with type := q.type.nullable }).property?
      = some p) : p.type.isNullable = true := by
  obtain ⟨name, parent, children, description, content⟩ := e
  cases content with
  | property q =>
      obtain rfl := Option.some.inj h
      rfl
  | _ => cases h

/-- A change that a property does not need leaves its element alone. -/
theorem mapProperty_eq_self {f : PropertyDecl → PropertyDecl} {e : Element}
    (h : ∀ p, e.property? = some p → f p = p) : e.mapProperty f = e := by
  obtain ⟨name, parent, children, description, content⟩ := e
  cases content with
  | property p =>
      show Element.mk name parent children description (.property (f p)) = _
      rw [h p rfl]
  | _ => rfl

end Element

namespace Edit

variable {t t' : Tree}

/-- What is nullable is so after the other turns, and the pass rests. -/
theorem rests_makeEnumPropertiesNullable (hwl : WellLinked t) {u : Unit}
    (hrun : makeEnumPropertiesNullable.run t = .ok u t') :
    Rests makeEnumPropertiesNullable t' := by
  refine rests_crawl_of_elements (J := fun _ => True)
    (D := fun _ e => ∀ p d, e.property? = some p → p.type.definition? = some d →
    t.kind? d = some .enumDecl → p.type.isNullable = true) hwl trivial ?_ ?_ hrun
  · intro s id s' _ hs hone
    refine ⟨trivial, ?_⟩
    rw [run_get_bind] at hone
    split at hone
    next =>
      obtain rfl := run_modifyElement_eq_ok_iff.mp hone
      exact ⟨_, rfl, fun e =>
        Element.place_eq_of_frame_eq (Element.frame_mapProperty _ e),
        fun e _ p d hp _ _ => Element.nullable_of_mapProperty hp⟩
    next hother =>
      obtain ⟨-, rfl⟩ := run_pure_eq_ok_iff.mp hone
      refine settledAt_self fun e he p d hp hd henum =>
        absurd (isEnumProperty_iff.mpr ⟨p, d, ?_, hd, ?_⟩) hother
      · rw [property?, he, Option.bind_some, hp]
      · rw [hs.kind?_eq, henum]
  · intro s id e _ hs he hsettled
    rw [Rests, run_get_bind]
    split
    next henum =>
      obtain ⟨p, d, hp, hd, hkind⟩ := isEnumProperty_iff.mp henum
      rw [property?, he, Option.bind_some] at hp
      rw [hs.kind?_eq] at hkind
      refine rests_modifyElement fun e' he' => ?_
      obtain rfl := Option.some.inj (he.symm.trans he')
      refine Element.mapProperty_eq_self fun q hq => ?_
      obtain rfl := Option.some.inj (hq.symm.trans hp)
      rw [TypeRef.nullable_eq_self (hsettled q d hp hd hkind)]
    · rfl

end Edit

/-! ## Paths of imports -/

namespace Tree

variable {t t' : Tree}

/-- Paths of imports are told by frames. -/
theorem SameFrames.withImportPath_eq {s : Tree} (h : SameFrames t s)
    (id : ElementId) : s.withImportPath id = t.withImportPath id := by
  funext i
  rw [withImportPath, withImportPath]
  cases i.target? with
  | none => rfl
  | some d =>
      dsimp only
      rw [h.importPath_eq]

/-- An import that has its path gets the same one. -/
theorem withImportPath_withImportPath {id : ElementId} {i j : Import}
    (h : t.withImportPath id i = .ok j) : t.withImportPath id j = .ok j := by
  have htarget : j.target? = i.target? := by
    rw [Import.target?, Import.target?, (withImportPath_eq h).2]
  cases hd : j.target? with
  | none => rw [withImportPath, hd]
  | some d =>
      obtain ⟨path, hpath, hjpath⟩ := importPath_of_withImportPath h hd
      obtain ⟨name, subject, oldPath⟩ := j
      obtain rfl : oldPath = some path := hjpath
      rw [withImportPath, hd]
      dsimp only
      rw [hpath]

/-- A list whose every entry is given back is given back. -/
theorem mapM_eq_ok_self {α : Type} {f : α → Except ModelError α} {l : List α}
    (h : ∀ a ∈ l, f a = .ok a) : l.mapM f = .ok l := by
  induction l with
  | nil => rfl
  | cons a rest ih =>
      rw [List.mapM_cons, h a List.mem_cons_self, ih fun b hb =>
        h b (List.mem_cons_of_mem _ hb)]
      rfl

end Tree

namespace Edit

variable {t t' : Tree}

/-- Paths depend on places and names alone, and the pass changes none of them;
    so it rests. -/
theorem rests_resolveImportPaths (hwl : WellLinked t) {u : Unit}
    (hrun : resolveImportPaths.run t = .ok u t') : Rests resolveImportPaths t' := by
  rw [resolveImportPaths_eq] at hrun ⊢
  refine rests_crawl_of_elements (J := SameFrames t)
    (D := fun x e => ∀ c, e.class? = some c → e.imports.mapM (t.withImportPath x)
    = .ok e.imports) hwl (SameFrames.refl t) ?_ ?_ hrun
  · intro s id s' hs _ hone
    refine ⟨hs.trans (sameFrames_of_resolveOwn hone).1, ?_⟩
    rcases run_resolveOwn_eq_ok hone
      with ⟨rfl, hnone⟩ | ⟨resolved, hresolved, rfl, -⟩
    · refine settledAt_self fun e he c hclass => ?_
      rw [class?, he, Option.bind_some, hclass] at hnone
      cases hnone
    · refine ⟨_, rfl, Element.place_mapImports _, fun e he c hclass => ?_⟩
      have hblock : (e.mapImports fun _ => resolved).imports = resolved := by
        have hsome := Element.isSome_imports?_mapImports (fun _ => resolved) e
        rw [(Element.imports_of_class? hclass).1, Option.isSome_some] at hsome
        rw [Element.imports_mapImports, if_pos hsome.symm]
      rw [hblock, ← hs.withImportPath_eq]
      refine mapM_eq_ok_self fun j hj => ?_
      obtain ⟨i, hi⟩ := (mapM_withImportPath_eq_ok hresolved).2 j hj
      exact withImportPath_withImportPath hi
  · intro s id e hs _ he hsettled
    rw [Rests, resolveOwn, run_get_bind]
    cases hclass : e.class? with
    | none =>
        rw [class?, he, Option.bind_some, hclass]
        rfl
    | some c =>
        have himports := (Element.imports_of_class? hclass).2
        have hsame := hsettled c hclass
        rw [← hs.withImportPath_eq, himports] at hsame
        rw [class?, he, Option.bind_some, hclass]
        refine run_bind_eq_ok_iff.mpr ⟨c.imports, s,
          run_inspect_eq_ok_iff.mpr ⟨hsame, rfl⟩, ?_⟩
        refine rests_modifyElement fun e' he' => ?_
        obtain rfl := Option.some.inj (he'.symm.trans he)
        exact Element.mapImports_of_map_eq himports.symm

end Edit

end CodeModel
