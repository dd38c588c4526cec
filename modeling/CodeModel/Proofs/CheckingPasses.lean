import CodeModel.Proofs.Faces
import CodeModel.Proofs.PassSteps
import Mathlib.Data.List.Find

/-!
# Passes that look at the members

Two of the passes that give names put an element into a class afterwards, and so
have it compared with the members of the class. A property that bears the name
of its class is taken out, renamed and put back, and a constructor is new. What
such a pass puts in collides with nothing; whatever else collides still does.

Main statements: `apartAt_iff_of_disambiguateProperties` and
`apartAt_iff_of_addConstructors`, what the two passes make of the collisions of
a tree.
-/

namespace CodeModel

namespace Tree

variable {s s' t t' : Tree}

/-- The name is part of the face. -/
theorem name?_eq_face (t : Tree) (x : ElementId) :
    t.name? x = (t.face? x).map (·.name) := by
  rw [name?, face?, Option.map_map]
  rfl

/-- The faces of the elements that one holds, but for one of them. -/
def facesBut (t : Tree) (holder : ElementId) (left? : Option ElementId) :
    List Face :=
  ((t.children holder).filter fun x => some x ≠ left?).filterMap t.face?

theorem facesBut_none (t : Tree) (holder : ElementId) :
    t.facesBut holder none = t.faces holder := by
  have hall : (t.children holder).filter
      (fun x => some x ≠ (none : Option ElementId)) = t.children holder :=
    List.filter_eq_self.mpr fun x _ => rfl
  rw [facesBut, hall]
  rfl

/-- Only classes have properties. -/
theorem WellLinked.namesakeProperty?_eq_none (hwl : WellLinked t) {id : ElementId}
    (hkind : t.kind? id ≠ some .classDecl) : t.namesakeProperty? id = none := by
  refine List.find?_eq_none.mpr fun p hp => absurd ?_ hkind
  obtain ⟨hc, hp⟩ := List.mem_filter.mp hp
  obtain ⟨e, he, -⟩ := mem_children_iff_exists.mp hc
  have hid : t.kind? id = some e.kind := kind?_eq_some_iff.mpr ⟨e, he, rfl⟩
  have hmay :=
    hwl.mayHold_of_mem id p e.kind .property hc hid (of_decide_eq_true hp)
  rw [hid]
  cases hek : e.kind <;> simp_all [NodeKind.mayHold]

/-! ## A property put back -/

/-- The rename of a property shows nowhere else. -/
theorem rename_property {id : ElementId} {name : String}
    (hkind : t.kind? id = some .property) :
    t.rename id name = t.modify id (Element.withName name) := by
  rw [rename, hkind]

section reinsert

variable {holder property : ElementId} {name : String} {f : Element → Element}

/-- A property that is taken out, changed, renamed and put back leaves the other
    faces alone, and its holder is apart if the others are. -/
theorem face?_reinsert (hwl : WellLinked t) (hc : property ∈ t.children holder)
    (hkind : t.kind? property = some .property) (hf : ∀ e, (f e).place = e.place)
    (htype : ∀ e, (f e).parameterType? = e.parameterType?)
    (hs : s = ((t.detach holder property).2.modify property f).rename property name)
    (hi : Insertable s .properties holder [property]) :
    (∀ x, x ≠ property → (s.attach holder [property]).face? x = t.face? x)
      ∧ (∀ x, x ≠ holder → (s.attach holder [property]).children x = t.children x)
      ∧ ((s.attach holder [property]).ApartAt holder ↔
        Face.Apart (t.facesBut holder (some property))) := by
  have hplaces : SamePlaces (t.detach holder property).2
      ((t.detach holder property).2.modify property f) :=
    (changedBy_modify _ property f).samePlaces fun x e _ => by
      by_cases hx : x = property
      · rw [if_pos hx, hf]
      · rw [if_neg hx]
  have hkind' : ((t.detach holder property).2.modify property f).kind? property
      = some .property := by
    rw [hplaces.kind?_eq, (relinked_detach hc).kind?_eq, hkind]
  have hother : ∀ x, x ≠ property → s.face? x = t.face? x := by
    intro x hx
    rw [hs, rename_property hkind', face?_modify (Element.place_withName name)
      (Element.parameterType?_withName name) hx, face?_modify hf htype hx]
    exact (relinked_detach hc).face?_eq
      (childrenOfKind_detach hwl hc (by simp [hkind]) x)
  have hchildren : ∀ x, s.children x =
      if x = holder then (t.children holder).erase property else t.children x := by
    intro x
    rw [hs, (samePlaces_rename _ property name).children_eq, hplaces.children_eq,
      children_detach hc]
  refine ⟨fun x hx => ?_, fun x hx => ?_, ?_⟩
  · rw [hi.face?_attach (by decide), hother x hx]
  · rw [hi.children_attach, if_neg hx, hchildren, if_neg hx]
  · -- Putting it back was checked, so only the others can collide, and they are as
    -- they were.
    have hnodup := hwl.nodup_children holder
    have hrest : (t.children holder).filter (fun x => some x ≠ some property) =
        (t.children holder).erase property := by
      rw [hnodup.erase_eq_filter]
      refine List.filter_congr fun x _ => ?_
      by_cases hx : x = property <;> simp [hx]
    rw [hi.apartAt_attach_iff (by decide), apartAt_iff, faces, hchildren,
      if_pos rfl, facesBut, hrest]
    rw [List.filterMap_congr fun x hx => hother x (hnodup.mem_erase_iff.mp hx).1]

end reinsert

/-! ## Properties that bear the name of their class -/

/-- Tree `s` is what has become of `t` once the classes among `done` have been
    told from their properties. Only properties get names; a holder that is not
    done has what it had, and one that is done is apart if all are but the
    property of its name. -/
structure Disambiguated (t : Tree) (done : List ElementId) (s : Tree) : Prop where
  stable : Stable s
  carries : Carries t s
  name?_eq : ∀ x, t.kind? x ≠ some .property → s.name? x = t.name? x
  kept : ∀ x, x ∉ done → s.children x = t.children x
    ∧ ∀ c ∈ t.children x, s.face? c = t.face? c
  apartAt_iff : ∀ x, s.ApartAt x ↔
    Face.Apart (t.facesBut x (if x ∈ done then t.namesakeProperty? x else none))

/-- Before any class had its turn nothing has changed. -/
theorem disambiguated_nil (h : Stable t) : Disambiguated t [] t where
  stable := h
  carries := Carries.refl t
  name?_eq _ _ := rfl
  kept _ _ := ⟨rfl, fun _ _ => rfl⟩
  apartAt_iff x := by
    rw [t.apartAt_iff, if_neg List.not_mem_nil, facesBut_none]

namespace Disambiguated

variable {done : List ElementId} {id : ElementId}

/-- The property of its name that a class will be told from is the one it was
    when the pass began. -/
theorem namesakeProperty?_eq (h : Disambiguated t done s) (hid : id ∉ done)
    (hkind : t.kind? id = some .classDecl) :
    s.namesakeProperty? id = t.namesakeProperty? id := by
  obtain ⟨hchildren, hfaces⟩ := h.kept id hid
  have hproperties : s.childrenOfKind id .property
      = t.childrenOfKind id .property := by
    rw [childrenOfKind, childrenOfKind, hchildren]
    refine List.filter_congr fun c hc => ?_
    have hread : ∀ s : Tree, s.kind? c = (s.face? c).map (·.role.nodeKind) := by
      intro s
      rw [kind?, face?, Option.map_map]
      refine congrArg ((s.get? c).map ·) (funext fun e => ?_)
      obtain ⟨name, parent, children, description, content⟩ := e
      cases content <;> rfl
    rw [hread, hread, hfaces c hc]
  rw [namesakeProperty?, namesakeProperty?, hproperties,
    h.name?_eq id (by simp [hkind])]
  refine List.find?_congr fun c hc => ?_
  rw [name?_eq_face s, hfaces c (List.mem_filter.mp hc).1, ← name?_eq_face]

/-- An element without a property of its name is done at once. -/
theorem skip (h : Disambiguated t done s) (hnone : t.namesakeProperty? id = none) :
    Disambiguated t (done ++ [id]) s where
  stable := h.stable
  carries := h.carries
  name?_eq := h.name?_eq
  kept x hx := h.kept x fun hdone => hx (List.mem_append_left _ hdone)
  apartAt_iff x := by
    rw [h.apartAt_iff]
    -- The others are done when they were before.
    by_cases hx : x = id
    · rw [hx, hnone, ite_self, ite_self]
    · have hmem : x ∈ done ++ [id] ↔ x ∈ done := by simp [hx]
      rw [if_congr hmem rfl rfl]

/-- A class is done once the property of its name has been put back under
    another one. -/
theorem reinsert (h : Disambiguated t done s) (hid : id ∉ done)
    {property : ElementId} (hkind : t.kind? property = some .property)
    (hparent : t.parent? property = some id) (hwl : WellLinked t)
    (hnamesake : t.namesakeProperty? id = some property) (hstable : Stable s')
    (hcarries : Carries s s') (hfaces : ∀ x, x ≠ property → s'.face? x = s.face? x)
    (hchildren : ∀ x, x ≠ id → s'.children x = s.children x)
    (hapart : s'.ApartAt id ↔ Face.Apart (s.facesBut id (some property))) :
    Disambiguated t (done ++ [id]) s' where
  stable := hstable
  carries := h.carries.trans hcarries
  name?_eq x hx := by
    have hne : x ≠ property := fun heq => hx (heq ▸ hkind)
    rw [name?_eq_face, hfaces x hne, ← name?_eq_face]
    exact h.name?_eq x hx
  kept x hx := by
    rw [List.mem_append, List.mem_singleton, not_or] at hx
    obtain ⟨hchildren', hfaces'⟩ := h.kept x hx.1
    refine ⟨(hchildren x hx.2).trans hchildren', fun c hc => ?_⟩
    have hne : c ≠ property := by
      rintro rfl
      rw [(hwl.mem_children_iff x c).mp hc] at hparent
      exact hx.2 (Option.some.inj hparent)
    rw [hfaces c hne, hfaces' c hc]
  apartAt_iff x := by
    by_cases hx : x = id
    · obtain ⟨hchildren', hfaces'⟩ := h.kept id hid
      rw [hx, hapart, if_pos (List.mem_append_right _ (List.mem_singleton_self id)),
        hnamesake, facesBut, facesBut, hchildren']
      rw [List.filterMap_congr fun c hc => hfaces' c (List.mem_filter.mp hc).1]
    · -- Nothing that another holder has is touched.
      have hmem : x ∈ done ++ [id] ↔ x ∈ done := by simp [hx]
      rw [if_congr hmem rfl rfl, ← h.apartAt_iff, Tree.apartAt_iff,
        Tree.apartAt_iff, faces, faces, hchildren x hx]
      refine iff_of_eq
        (congrArg Face.Apart (List.filterMap_congr fun c hc => hfaces c ?_))
      rintro rfl
      have hheld : c ∈ s.children id := by
        rw [(h.kept id hid).1]
        exact (hwl.mem_children_iff id c).mpr hparent
      have h₁ := (h.stable.toWellLinked.mem_children_iff x c).mp hc
      have h₂ := (h.stable.toWellLinked.mem_children_iff id c).mp hheld
      exact hx (Option.some.inj (h₁.symm.trans h₂))

end Disambiguated

/-- What telling properties from their classes makes of collisions: a holder is
    apart afterwards when it was before, but for the property that was told from
    it. -/
theorem apartAt_iff_of_disambiguateProperties {suffix : String} (h : Stable t)
    {u : Unit} (hrun : (Edit.disambiguateProperties suffix).run t = .ok u t')
    (x : ElementId) :
    t'.ApartAt x ↔ Face.Apart
      (t.facesBut x
        (if x ∈ t.descendants t.root then t.namesakeProperty? x else none)) := by
  have hwl := h.toWellLinked
  refine (Edit.crawl_done_induction (I := Disambiguated t) ?_ ?_
    (disambiguated_nil h) hrun).apartAt_iff x
  · intro done s id hs hmem
    rw [hs.stable.toWellLinked.isAttached_iff]
    exact hs.carries.attached (Or.inr (hwl.mem_descendants_iff.mp hmem))
  · intro done id rest s s' hsplit hs hrun
    have hid : id ∉ done := by
      have hnodup := hwl.nodup_descendants t.root
      rw [hsplit] at hnodup
      exact fun hdone =>
        (List.nodup_append.mp hnodup).2.2 id hdone id List.mem_cons_self rfl
    have hattached : Attached t id := by
      refine Or.inr (hwl.mem_descendants_iff.mp ?_)
      rw [hsplit]
      exact List.mem_append_right _ List.mem_cons_self
    obtain ⟨e, he⟩ := Option.isSome_iff_exists.mp
      ((get?_isSome_iff t id).mpr (hwl.index_lt_of_attached hattached))
    have hkind : t.kind? id = some e.kind := kind?_eq_some_iff.mpr ⟨e, he, rfl⟩
    -- The classes done so far do not matter: the pass tells this one from its own
    -- property.
    rcases run_disambiguateProperty_eq_ok hs.stable.toWellLinked hrun with
      ⟨rfl, hnone⟩ | ⟨name, property, s₁, hclass, hp, -, hname, hs₁,
        hinsertable, rfl⟩
    · refine hs.skip ?_
      by_cases hclass : t.kind? id = some .classDecl
      · rw [← hs.namesakeProperty?_eq hid hclass]
        exact hnone (hs.carries.kind?_eq hclass)
      · exact hwl.namesakeProperty?_eq_none hclass
    · have hclass' : t.kind? id = some .classDecl := by
        rw [hkind, ← hclass, hs.carries.kind?_eq hkind]
      obtain ⟨hc, hproperty⟩ := List.mem_filter.mp (List.mem_of_find?_eq_some hp)
      have hproperty := of_decide_eq_true hproperty
      obtain ⟨hstable, hcarries⟩ :=
        hs.stable.reinsert hc (hs.carries.attached hattached) hname
        (Element.trimmed_keepWireName name) rfl rfl hs₁ rfl hinsertable
      obtain ⟨hfaces, hchildren, hapart⟩ :=
        face?_reinsert hs.stable.toWellLinked hc hproperty
        (fun e => Element.place_eq_of_frame_eq (Element.frame_keepWireName name e))
        (Element.parameterType?_keepWireName name) hs₁ hinsertable
      have hp' : t.namesakeProperty? id = some property := by
        rw [← hs.namesakeProperty?_eq hid hclass', hp]
      obtain ⟨hc', hproperty'⟩ := List.mem_filter.mp (List.mem_of_find?_eq_some hp')
      exact hs.reinsert hid (of_decide_eq_true hproperty')
        ((hwl.mem_children_iff id property).mp hc') hwl hp'
        hstable hcarries hfaces hchildren hapart

/-! ## Constructors -/

/-- A new element that holds nothing changes the members of no other. -/
theorem apartAt_push_iff (hwl : WellLinked t) {e : Element}
    (hchildren : e.children = []) (x : ElementId) :
    (t.push e).ApartAt x ↔ t.ApartAt x := by
  rw [apartAt_iff, apartAt_iff, faces, children_push hchildren, faces]
  refine iff_of_eq (congrArg Face.Apart
    (List.filterMap_congr fun c hc => face?_push hwl hchildren ?_))
  obtain ⟨e', he', -⟩ := hwl.exists_of_mem_children hc
  rw [he']
  rfl

/-- Adding constructors makes no collision and ends none. -/
theorem apartAt_iff_of_addConstructors {inheritingToo : Bool} (hwl : WellLinked t)
    {u : Unit} (hrun : (Edit.addConstructors inheritingToo).run t = .ok u t')
    (x : ElementId) : t'.ApartAt x ↔ t.ApartAt x := by
  refine (Edit.crawl_induction (I := fun s => WellLinked s
    ∧ (s.ApartAt x ↔ t.ApartAt x)) ?_ ⟨hwl, Iff.rfl⟩ hrun).2
  rintro s id s' ⟨hs, hiff⟩ _ hrun
  rw [Edit.run_get_bind] at hrun
  split at hrun
  · obtain ⟨_, hadd⟩ := Edit.run_discard_eq_ok_iff.mp hrun
    obtain ⟨-, -, hinsert⟩ := Edit.run_addNew_eq_ok hadd
    have htoken : (defaultConstructor ((s.name? id).getD "")).detached.TokenFits :=
      Element.tokenFits_of_kind_ne (fun hkind => NodeKind.noConfusion hkind)
    have hpushed := hs.push rfl rfl htoken
    obtain ⟨hinsertable, rfl⟩ := insertable_of_insert hpushed hinsert
    refine ⟨hpushed.attach hinsertable, ?_⟩
    rw [hinsertable.apartAt_attach_iff (by decide), apartAt_push_iff hs rfl, hiff]
  · exact (Edit.run_pure_eq_ok_iff.mp hrun).2 ▸ ⟨hs, hiff⟩

end Tree

end CodeModel
