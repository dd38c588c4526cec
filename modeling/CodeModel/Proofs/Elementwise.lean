import CodeModel.Tree.Insert
import CodeModel.Tree.Rename
import CodeModel.Tree.WellFormed

/-!
# Changes of elements one by one

Most changes of a tree leave the arena as long as it is and change each of its
elements by what the element was. `ChangedBy F t t'` says that `F` is the
change. A change that leaves holders, children and kinds alone (`SamePlaces`)
leaves alone all that is read off the links: ancestors, descendants, attachment,
containing namespaces. One that leaves names alone as well (`SameFrames`) leaves
alone the names of imports.

* **`frame_mapContent`, …**: which changes of one element leave its frame alone.
* **`changedBy_modify`, `changedBy_attach`, `changedBy_detach`, …**: the
  operations as such changes.
* **`SamePlaces.…`, `SameFrames.…`**: what is read off the links and names.
-/

namespace CodeModel

namespace Content

/-- The identifier in the header of a class. -/
def token? : Content → Option String
  | classDecl c => some c.token
  | _ => none

end Content

namespace Element

/-- Where an element stands and what it is. -/
def place (e : Element) : Option ElementId × List ElementId × NodeKind :=
  (e.parent, e.children, e.kind)

/-- The place of an element with what it is called. -/
def frame (e : Element) :
    (Option ElementId × List ElementId × NodeKind) × String × Option String :=
  (e.place, e.name, e.content.token?)

/-- The header of a class shows the name of the element. -/
def TokenFits (e : Element) : Prop :=
  ∀ c, e.class? = some c → c.token = e.name

/-! ## Frames -/

/-- The place is part of the frame. -/
theorem place_eq_of_frame_eq {e e' : Element} (h : e'.frame = e.frame) :
    e'.place = e.place :=
  congrArg Prod.fst h

theorem name_eq_of_frame_eq {e e' : Element} (h : e'.frame = e.frame) :
    e'.name = e.name :=
  congrArg (·.2.1) h

theorem kind_eq_of_frame_eq {e e' : Element} (h : e'.frame = e.frame) :
    e'.kind = e.kind :=
  congrArg (·.1.2.2) h

/-- A header fits exactly when it shows the name. -/
theorem tokenFits_iff (e : Element) :
    e.TokenFits ↔ ∀ token, e.content.token? = some token → token = e.name := by
  obtain ⟨name, parent, children, description, content⟩ := e
  cases content <;> simp [TokenFits, class?, Content.token?]

theorem class?_eq_some_iff {e : Element} {c : ClassDecl} :
    e.class? = some c ↔ e.content = .classDecl c := by
  rw [class?]
  cases e.content <;> simp

theorem tokenFits_of_frame_eq {e e' : Element} (h : e'.frame = e.frame)
    (hfits : e.TokenFits) : e'.TokenFits := by
  rw [tokenFits_iff] at hfits ⊢
  have htoken : e'.content.token? = e.content.token? := congrArg (·.2.2) h
  rw [htoken, name_eq_of_frame_eq h]
  exact hfits

/-- Only classes have a header to fit. -/
theorem tokenFits_of_kind_ne {e : Element} (hkind : e.kind ≠ .classDecl) :
    e.TokenFits := by
  rw [tokenFits_iff]
  intro token htoken
  obtain ⟨name, parent, children, description, content⟩ := e
  cases content with
  | classDecl c => exact absurd rfl hkind
  | _ => cases htoken

/-- A change of content that keeps kind and header keeps the frame. -/
theorem frame_mapContent {f : Content → Content} (hkind : ∀ c, (f c).kind = c.kind)
    (htoken : ∀ c, (f c).token? = c.token?) (e : Element) :
    (e.mapContent f).frame = e.frame := by
  simp only [frame, place, mapContent, kind, hkind, htoken]

/-- A class whose header shows the same name keeps its frame. -/
theorem frame_mapClass {f : ClassDecl → ClassDecl} (hf : ∀ c, (f c).token = c.token)
    (e : Element) : (e.mapClass f).frame = e.frame := by
  refine frame_mapContent ?_ ?_ e
  · rintro (_ | _ | _ | _ | _ | _ | _) <;> rfl
  · rintro (_ | c | _ | _ | _ | _ | _)
    case classDecl => exact congrArg some (hf c)
    all_goals rfl

theorem frame_mapProperty (f : PropertyDecl → PropertyDecl) (e : Element) :
    (e.mapProperty f).frame = e.frame :=
  frame_mapContent (by rintro (_ | _ | _ | _ | _ | _ | _) <;> rfl)
    (by rintro (_ | _ | _ | _ | _ | _ | _) <;> rfl) e

theorem frame_mapImports (f : List Import → List Import) (e : Element) :
    (e.mapImports f).frame = e.frame :=
  frame_mapContent (by rintro (_ | _ | _ | _ | _ | _ | _) <;> rfl)
    (by rintro (_ | _ | _ | _ | _ | _ | _) <;> rfl) e

theorem frame_mapValueType (f : TypeRef → TypeRef) (e : Element) :
    (e.mapValueType f).frame = e.frame :=
  frame_mapContent (by rintro (_ | _ | _ | _ | _ | _ | _) <;> rfl)
    (by rintro (_ | _ | _ | _ | _ | _ | _) <;> rfl) e

theorem frame_mapTypes (f : TypeRef → TypeRef) (e : Element) :
    (e.mapTypes f).frame = e.frame :=
  frame_mapContent (Content.kind_mapTypes f)
    (by rintro (_ | _ | _ | _ | _ | _ | _) <;> rfl) e

theorem frame_keepWireName (name : String) (e : Element) :
    (e.keepWireName name).frame = e.frame :=
  frame_mapContent (by rintro (_ | _ | _ | _ | _ | _ | _) <;> rfl)
    (by rintro (_ | _ | _ | _ | _ | _ | _) <;> rfl) e

theorem place_withName (name : String) (e : Element) :
    (e.withName name).place = e.place := by
  obtain ⟨oldName, parent, children, description, content⟩ := e
  cases content <;> rfl

/-- Renaming renames the header along. -/
theorem tokenFits_withName (name : String) (e : Element) :
    (e.withName name).TokenFits := by
  rw [tokenFits_iff]
  rw [withName, mapClass, mapContent]
  intro token
  cases e.content with
  | classDecl c =>
      intro h
      exact (Option.some.inj h).symm
  | _ => intro h; cases h

end Element

namespace Tree

/-- Tree `t'` is `t` with every element changed by `F`. -/
structure ChangedBy (F : ElementId → Element → Element) (t t' : Tree) : Prop where
  root_eq : t'.root = t.root
  get?_eq : ∀ id, t'.get? id = (t.get? id).map (F id)

/-- Tree `t'` has the elements of `t` in their places, whatever they hold
    besides. -/
structure SamePlaces (t t' : Tree) : Prop where
  root_eq : t'.root = t.root
  place_eq : ∀ id, (t'.get? id).map Element.place = (t.get? id).map Element.place

/-- Tree `t'` has the elements of `t` in their places and under their names. -/
structure SameFrames (t t' : Tree) : Prop where
  root_eq : t'.root = t.root
  frame_eq : ∀ id, (t'.get? id).map Element.frame = (t.get? id).map Element.frame

/-- Arenas with elements at the same places are of the same size. -/
theorem size_eq_of_isSome_get? {t t' : Tree}
    (h : ∀ id, (t'.get? id).isSome = (t.get? id).isSome) : t'.size = t.size := by
  have hiff : ∀ i, i < t'.size ↔ i < t.size := by
    intro i
    rw [← get?_isSome_iff t' ⟨i⟩, ← get?_isSome_iff t ⟨i⟩, h]
  have hbelow := hiff t.size
  have habove := hiff t'.size
  omega

/-! ## The operations as changes of elements -/

theorem changedBy_refl (t : Tree) : ChangedBy (fun _ e => e) t t :=
  ⟨rfl, fun id => by simp⟩

/-- Two changes one after another are one change. -/
theorem ChangedBy.trans {F G : ElementId → Element → Element} {t t' t'' : Tree}
    (h : ChangedBy F t t') (h' : ChangedBy G t' t'') :
    ChangedBy (fun id e => G id (F id e)) t t'' := by
  refine ⟨h'.root_eq.trans h.root_eq, fun id => ?_⟩
  rw [h'.get?_eq, h.get?_eq, Option.map_map]
  rfl

/-- Changes that agree on the elements of a tree are the same change of it. -/
theorem ChangedBy.congr {F G : ElementId → Element → Element} {t t' : Tree}
    (h : ChangedBy F t t') (hFG : ∀ id e, t.get? id = some e → F id e = G id e) :
    ChangedBy G t t' := by
  refine ⟨h.root_eq, fun id => ?_⟩
  rw [h.get?_eq]
  cases hg : t.get? id with
  | none => rfl
  | some e => exact congrArg some (hFG id e hg)

/-- Modifying one element changes no other. -/
theorem changedBy_modify (t : Tree) (id : ElementId) (f : Element → Element) :
    ChangedBy (fun x e => if x = id then f e else e) t (t.modify id f) := by
  refine ⟨rfl, fun x => ?_⟩
  rw [get?_modify]
  by_cases h : x = id
  · simp [h]
  · simp [h]

theorem changedBy_mapElements (t : Tree) (f : Element → Element) :
    ChangedBy (fun _ e => f e) t (t.mapElements f) :=
  ⟨rfl, get?_mapElements t f⟩

/-- An element with the links that attaching `ids` to `holder` gives it. -/
def linkUp (holder : ElementId) (ids : List ElementId) (x : ElementId)
    (e : Element) : Element :=
  { e with
    parent := if x ∈ ids then some holder else e.parent
    children := if x = holder then e.children ++ ids else e.children }

/-- An element with the links that taking `child` out of `holder` leaves it. -/
def unlink (holder child x : ElementId) (e : Element) : Element :=
  { e with
    parent := if x = child then none else e.parent
    children := if x = holder then e.children.erase child else e.children }

/-- Attaching changes the holder and what it takes, and nothing else. -/
theorem changedBy_attach (t : Tree) (holder : ElementId) (ids : List ElementId) :
    ChangedBy (linkUp holder ids) t (t.attach holder ids) := by
  have hfold : ∀ (l : List ElementId) (s : Tree),
      ChangedBy (fun x e => if x ∈ l then { e with parent := some holder } else e) s
        (l.foldl
          (fun t c => t.modify c fun e => { e with parent := some holder }) s) := by
    intro l
    induction l with
    | nil => intro s; simpa using changedBy_refl s
    | cons c rest ih =>
        intro s
        refine ((changedBy_modify s c _).trans (ih _)).congr fun x e _ => ?_
        by_cases hc : x = c <;> by_cases hr : x ∈ rest <;> simp [hc, hr]
  refine ((hfold ids t).trans (changedBy_modify _ holder _)).congr fun x e _ => ?_
  rw [linkUp]
  by_cases hi : x ∈ ids
  · by_cases hh : x = holder
    · subst hh; simp [hi]
    · simp [hi, hh]
  · by_cases hh : x = holder
    · subst hh; simp [hi]
    · simp [hi, hh]

/-- Detaching changes the holder and the child, and nothing else. -/
theorem changedBy_detach {t : Tree} {holder child : ElementId}
    (h : child ∈ t.children holder) :
    ChangedBy (unlink holder child) t (t.detach holder child).2 := by
  rw [detach, if_pos h]
  refine ((changedBy_modify t holder _).trans (changedBy_modify _ child _)).congr
    fun x e _ => ?_
  rw [unlink]
  by_cases hc : x = child
  · by_cases hh : x = holder
    · subst hh; simp [hc]
    · subst hc; simp [hh]
  · by_cases hh : x = holder
    · subst hh; simp [hc]
    · simp [hh, hc]

/-- Naming imports anew changes nothing but imports. -/
theorem changedBy_rebindImports (t : Tree) (scope : ElementId) :
    ChangedBy (fun _ e => e.mapImports (·.map (t.refreshImport scope))) t
      (t.rebindImports scope) :=
  changedBy_mapElements t _

/-- Renaming references changes nothing but the names that are shown. -/
theorem changedBy_renameReferences (t : Tree) (f : TypeRef → String) :
    ChangedBy (fun _ e => e.mapTypes (·.rename f)) t (t.renameReferences f) :=
  changedBy_mapElements t _

/-! ## What the change of an element leaves alone -/

/-- Every element of the changed tree was one before. -/
theorem ChangedBy.exists_of_get? {F : ElementId → Element → Element} {t t' : Tree}
    (h : ChangedBy F t t') {id : ElementId} {e' : Element}
    (he : t'.get? id = some e') : ∃ e, t.get? id = some e ∧ F id e = e' := by
  rw [h.get?_eq] at he
  exact Option.map_eq_some_iff.mp he

/-- A change that keeps places keeps the tree in place. -/
theorem ChangedBy.samePlaces {F : ElementId → Element → Element} {t t' : Tree}
    (h : ChangedBy F t t')
    (hF : ∀ id e, t.get? id = some e → (F id e).place = e.place) :
    SamePlaces t t' := by
  refine ⟨h.root_eq, fun id => ?_⟩
  rw [h.get?_eq]
  cases hg : t.get? id with
  | none => rfl
  | some e => exact congrArg some (hF id e hg)

/-- A change that keeps frames keeps them in the tree. -/
theorem ChangedBy.sameFrames {F : ElementId → Element → Element} {t t' : Tree}
    (h : ChangedBy F t t')
    (hF : ∀ id e, t.get? id = some e → (F id e).frame = e.frame) :
    SameFrames t t' := by
  refine ⟨h.root_eq, fun id => ?_⟩
  rw [h.get?_eq]
  cases hg : t.get? id with
  | none => rfl
  | some e => exact congrArg some (hF id e hg)

theorem sameFrames_modify (t : Tree) (id : ElementId) {f : Element → Element}
    (hf : ∀ e, (f e).frame = e.frame) : SameFrames t (t.modify id f) := by
  refine (changedBy_modify t id f).sameFrames fun x e _ => ?_
  by_cases h : x = id
  · rw [if_pos h]; exact hf e
  · rw [if_neg h]

theorem sameFrames_rebindImports (t : Tree) (scope : ElementId) :
    SameFrames t (t.rebindImports scope) :=
  (changedBy_rebindImports t scope).sameFrames fun _ e _ =>
    Element.frame_mapImports _ e

theorem SamePlaces.refl (t : Tree) : SamePlaces t t :=
  ⟨rfl, fun _ => rfl⟩

theorem SamePlaces.trans {t t' t'' : Tree} (h : SamePlaces t t')
    (h' : SamePlaces t' t'') : SamePlaces t t'' :=
  ⟨h'.root_eq.trans h.root_eq, fun id => (h'.place_eq id).trans (h.place_eq id)⟩

namespace SamePlaces

variable {t t' : Tree}

theorem symm (h : SamePlaces t t') : SamePlaces t' t :=
  ⟨h.root_eq.symm, fun id => (h.place_eq id).symm⟩

theorem isSome_get? (h : SamePlaces t t') (id : ElementId) :
    (t'.get? id).isSome = (t.get? id).isSome := by
  rw [← Option.isSome_map (f := Element.place), h.place_eq, Option.isSome_map]

theorem exists_get? (h : SamePlaces t t') {id : ElementId} {e' : Element}
    (he : t'.get? id = some e') :
    ∃ e, t.get? id = some e ∧ e'.place = e.place := by
  have hp := h.place_eq id
  rw [he] at hp
  obtain ⟨e, hg, heq⟩ := Option.map_eq_some_iff.mp hp.symm
  exact ⟨e, hg, heq.symm⟩

/-- As many elements are there as were. -/
theorem size_eq (h : SamePlaces t t') : t'.size = t.size :=
  size_eq_of_isSome_get? h.isSome_get?

theorem parent?_eq (h : SamePlaces t t') (id : ElementId) :
    t'.parent? id = t.parent? id := by
  have hread : ∀ s : Tree, s.parent? id = ((s.get? id).map Element.place).bind
      (·.1) := by
    intro s
    cases hg : s.get? id <;> simp [parent?, hg, Element.place]
  rw [hread, hread, h.place_eq]

theorem children_eq (h : SamePlaces t t') (id : ElementId) :
    t'.children id = t.children id := by
  have hread : ∀ s : Tree, s.children id
      = (((s.get? id).map Element.place).map (·.2.1)).getD [] := by
    intro s
    cases hg : s.get? id <;> simp [children, hg, Element.place]
  rw [hread, hread, h.place_eq]

theorem kind?_eq (h : SamePlaces t t') (id : ElementId) :
    t'.kind? id = t.kind? id := by
  have hread : ∀ s : Tree, s.kind? id = ((s.get? id).map Element.place).map
      (·.2.2) := by
    intro s
    cases hg : s.get? id <;> simp [kind?, hg, Element.place]
  rw [hread, hread, h.place_eq]

theorem isNamespace_eq (h : SamePlaces t t') (id : ElementId) :
    t'.isNamespace id = t.isNamespace id := by
  rw [isNamespace, isNamespace, h.kind?_eq]

theorem isDeclaration_eq (h : SamePlaces t t') (id : ElementId) :
    t'.isDeclaration id = t.isDeclaration id := by
  rw [isDeclaration, isDeclaration, h.kind?_eq]

theorem childrenOfKind_eq (h : SamePlaces t t') (id : ElementId) (kind : NodeKind) :
    t'.childrenOfKind id kind = t.childrenOfKind id kind := by
  rw [childrenOfKind, h.children_eq]
  congr 1
  funext c
  rw [h.kind?_eq]

/-- Who is above whom is told by places. -/
theorem ancestor_iff (h : SamePlaces t t') {a id : ElementId} : Ancestor t' a id ↔
    Ancestor t a id := by
  have hone : ∀ {s s' : Tree}, SamePlaces s s' → Ancestor s' a id →
      Ancestor s a id := by
    intro s s' h ha
    induction ha with
    | parent hp => exact .parent (h.parent?_eq _ ▸ hp)
    | above hp _ ih => exact .above (h.parent?_eq _ ▸ hp) ih
  exact ⟨hone h, hone h.symm⟩

theorem within_iff (h : SamePlaces t t') {scope id : ElementId} :
    Within t' scope id ↔ Within t scope id := by
  rw [Within, Within, h.ancestor_iff]

/-- What is attached is told by places. -/
theorem attached_iff (h : SamePlaces t t') {id : ElementId} : Attached t' id ↔
    Attached t id := by
  rw [Attached, Attached, h.root_eq, h.within_iff]

theorem ancestors_eq (h : SamePlaces t t') (id : ElementId) :
    t'.ancestors id = t.ancestors id := by
  have hwalk : ∀ (n : Nat) (id : ElementId), t'.ancestorsWithin n id
      = t.ancestorsWithin n id := by
    intro n
    induction n with
    | zero => intro id; rfl
    | succ n ih =>
        intro id
        simp only [ancestorsWithin, h.parent?_eq, ih]
  rw [ancestors, ancestors, h.size_eq, hwalk]

theorem isAncestor_eq (h : SamePlaces t t') (a id : ElementId) :
    t'.isAncestor a id = t.isAncestor a id := by
  rw [isAncestor, isAncestor, h.ancestors_eq]

theorem isWithin_eq (h : SamePlaces t t') (scope id : ElementId) :
    t'.isWithin scope id = t.isWithin scope id := by
  rw [isWithin, isWithin, h.isAncestor_eq]

theorem containingNamespace?_eq (h : SamePlaces t t') (id : ElementId) :
    t'.containingNamespace? id = t.containingNamespace? id := by
  rw [containingNamespace?, containingNamespace?, h.ancestors_eq,
    funext h.isNamespace_eq]

theorem descendants_eq (h : SamePlaces t t') (id : ElementId) :
    t'.descendants id = t.descendants id := by
  have hwalk : ∀ (n : Nat) (id : ElementId), t'.descendantsWithin n id
      = t.descendantsWithin n id := by
    intro n
    induction n with
    | zero => intro id; rfl
    | succ n ih =>
        intro id
        simp only [descendantsWithin, h.children_eq, ih]
  rw [descendants, descendants, h.size_eq, hwalk]

/-- Well-linkedness is read off the places, but for the headers of classes. -/
theorem wellLinked (h : SamePlaces t t') (hwl : WellLinked t)
    (htoken : ∀ id e, t'.get? id = some e → e.TokenFits) : WellLinked t' where
  kind?_root := by rw [h.root_eq, h.kind?_eq]; exact hwl.kind?_root
  parent?_root := by rw [h.root_eq, h.parent?_eq]; exact hwl.parent?_root
  mem_children_iff p c := by
    rw [h.children_eq, h.parent?_eq]; exact hwl.mem_children_iff p c
  nodup_children p := by rw [h.children_eq]; exact hwl.nodup_children p
  acyclic id ha := hwl.acyclic id (h.ancestor_iff.mp ha)
  mayHold_of_mem p c k m := by
    rw [h.children_eq, h.kind?_eq, h.kind?_eq]
    exact hwl.mayHold_of_mem p c k m
  length_indexers id := by rw [h.childrenOfKind_eq]; exact hwl.length_indexers id
  token_eq_name id e c he := htoken id e he c

end SamePlaces

theorem SameFrames.refl (t : Tree) : SameFrames t t :=
  ⟨rfl, fun _ => rfl⟩

theorem SameFrames.trans {t t' t'' : Tree} (h : SameFrames t t')
    (h' : SameFrames t' t'') : SameFrames t t'' :=
  ⟨h'.root_eq.trans h.root_eq, fun id => (h'.frame_eq id).trans (h.frame_eq id)⟩

namespace SameFrames

variable {t t' : Tree}

theorem exists_get? (h : SameFrames t t') {id : ElementId} {e' : Element}
    (he : t'.get? id = some e') :
    ∃ e, t.get? id = some e ∧ e'.frame = e.frame := by
  have hp := h.frame_eq id
  rw [he] at hp
  obtain ⟨e, hg, heq⟩ := Option.map_eq_some_iff.mp hp.symm
  exact ⟨e, hg, heq.symm⟩

/-- Frames contain places. -/
theorem samePlaces (h : SameFrames t t') : SamePlaces t t' := by
  refine ⟨h.root_eq, fun id => ?_⟩
  have hread : ∀ s : Tree, (s.get? id).map Element.place
      = ((s.get? id).map Element.frame).map (·.1) := by
    intro s
    cases s.get? id <;> rfl
  rw [hread, hread, h.frame_eq]

theorem name?_eq (h : SameFrames t t') (id : ElementId) :
    t'.name? id = t.name? id := by
  have hread : ∀ s : Tree, s.name? id = ((s.get? id).map Element.frame).map
      (·.2.1) := by
    intro s
    rw [name?]
    cases s.get? id <;> rfl
  rw [hread, hread, h.frame_eq]

theorem namespaceSegments_eq (h : SameFrames t t') (id : ElementId) :
    t'.namespaceSegments id = t.namespaceSegments id := by
  rw [namespaceSegments, namespaceSegments]
  rw [h.root_eq, h.samePlaces.ancestors_eq, funext h.samePlaces.isNamespace_eq,
    funext h.name?_eq]

/-- Qualified names are made of frames. -/
theorem qualifiedName_eq (h : SameFrames t t') (id : ElementId) :
    t'.qualifiedName id = t.qualifiedName id := by
  rw [qualifiedName, qualifiedName, namespaceOf?, namespaceOf?]
  rw [h.samePlaces.kind?_eq, h.samePlaces.containingNamespace?_eq,
    funext h.namespaceSegments_eq]

/-- So are the names under which declarations are imported. -/
theorem importName_eq (h : SameFrames t t') (id : ElementId) :
    t'.importName id = t.importName id := by
  rw [importName, importName, h.samePlaces.containingNamespace?_eq,
    funext h.qualifiedName_eq, h.name?_eq]

theorem refreshImport_eq (h : SameFrames t t') (scope : ElementId) (i : Import) :
    t'.refreshImport scope i = t.refreshImport scope i := by
  rw [refreshImport, refreshImport]
  cases i.target? with
  | none => rfl
  | some target =>
      dsimp only
      rw [h.samePlaces.isWithin_eq, h.samePlaces.isDeclaration_eq, h.importName_eq]

/-- Links are told by frames, the headers of classes included. -/
theorem wellLinked (h : SameFrames t t') (hwl : WellLinked t) : WellLinked t' := by
  refine h.samePlaces.wellLinked hwl fun id e' he' => ?_
  obtain ⟨e, he, hframe⟩ := h.exists_get? he'
  exact Element.tokenFits_of_frame_eq hframe fun c hc =>
    hwl.token_eq_name id e c he hc

theorem wellFormed (h : SameFrames t t') (hwf : WellFormed t) : WellFormed t' where
  toWellLinked := h.wellLinked hwf.toWellLinked
  name?_root := by rw [h.root_eq, h.name?_eq]; exact hwf.name?_root
  name_ne_empty id e' he' ha := by
    obtain ⟨e, he, hframe⟩ := h.exists_get? he'
    rw [Element.name_eq_of_frame_eq hframe]
    rw [h.root_eq, h.samePlaces.ancestor_iff] at ha
    exact hwf.name_ne_empty id e he ha

end SameFrames

end Tree

end CodeModel
