import CodeModel.Proofs.CheckingPasses
import CodeModel.Proofs.RestingMembers
import CodeModel.Proofs.SiblingRuns

/-!
# A second run of a pass

A class that has been told from the property of its name has no such property
any more. Only without a suffix it still has one, which then comes last under
the name that it had, with its name on the wire written down. To take it out and
put it back once more is to leave it where it is, and no collision can prevent
that: it was put back before, and everything beside it shows what it showed
then.

* **`Returnable`**: a property that can be taken out and put back, and all is as
  it was.
* **`Reinserted`**: what putting a property back under a name changes, and what
  it does not.
* **`Told`**: the class needs no more to be told from a property.

Main statement: `Pass.run_apply_again`, of every pass that leaves nothing to
another run of it.
-/

namespace CodeModel

open CodeModel.Tree

namespace Element

/-- A property that has a name on the wire keeps it. -/
theorem keepWireName_eq_self {e : Element} {d : PropertyDecl}
    (h : e.property? = some d) (hd : d.serializationName.isSome) (name : String) :
    e.keepWireName name = e := by
  obtain ⟨oldName, parent, children, description, content⟩ := e
  cases content with
  | property p =>
      obtain rfl := Option.some.inj h
      obtain ⟨kind, type, serializationName, defaultValue⟩ := p
      obtain ⟨wire, rfl⟩ := Option.isSome_iff_exists.mp hd
      rfl
  | _ => cases h

/-- Giving a property the name that it has changes nothing. -/
theorem withName_name_of_property {e : Element} {d : PropertyDecl}
    (h : e.property? = some d) : e.withName e.name = e := by
  obtain ⟨name, parent, children, description, content⟩ := e
  cases content with
  | property p => rfl
  | _ => cases h

end Element

namespace Tree

variable {s t t' : Tree}

/-! ## Properties taken out and put back -/

/-- No two properties of `holder` have one name. -/
def DistinctAt (t : Tree) (holder : ElementId) : Prop :=
  ∀ p ∈ t.childrenOfKind holder .property, ∀ q ∈ t.childrenOfKind holder .property,
    t.name? p = t.name? q → p = q

instance (t : Tree) (holder : ElementId) : Decidable (t.DistinctAt holder) :=
  inferInstanceAs (Decidable (∀ p ∈ t.childrenOfKind holder .property,
    ∀ q ∈ t.childrenOfKind holder .property,
    t.name? p = t.name? q → p = q))

/-- No class below the root has two properties of one name. -/
def DistinctProperties (t : Tree) : Prop :=
  ∀ holder ∈ t.descendants t.root, t.DistinctAt holder

instance (t : Tree) : Decidable t.DistinctProperties :=
  inferInstanceAs (Decidable (∀ holder ∈ t.descendants t.root, t.DistinctAt holder))

/-- A property that can be taken out of its holder and put back, and all is as
    it was: it comes last, its name on the wire is written down, and it collides
    with nothing beside it. -/
structure Returnable (t : Tree) (holder property : ElementId) : Prop where
  last : ∃ before, t.children holder = before ++ [property]
  noted : ∃ d, t.property? property = some d ∧ d.serializationName.isSome
  apart : ∀ c ∈ t.children holder, c ≠ property → t.collides c property = false

/-- The last child of a holder that is taken out and put back is where it was. -/
theorem attach_detach {holder child : ElementId} {before : List ElementId}
    (hwl : WellLinked t) (hlast : t.children holder = before ++ [child]) :
    (t.detach holder child).2.attach holder [child] = t := by
  have hc : child ∈ t.children holder :=
    hlast ▸ List.mem_append_right _ (List.mem_singleton_self _)
  have hchanged := (changedBy_detach hc).trans
    (changedBy_attach (t.detach holder child).2 holder [child])
  have hnew : child ∉ before := by
    have hnodup := hwl.nodup_children holder
    rw [hlast] at hnodup
    exact fun hin => (List.nodup_append.mp hnodup).2.2 child hin child
      (List.mem_singleton_self _) rfl
  refine eq_of_get?_eq hchanged.root_eq fun x => ?_
  rw [hchanged.get?_eq]
  cases he : t.get? x with
  | none => rfl
  | some e =>
      have hparent : (if x ∈ [child] then some holder else if x = child
          then none else e.parent) = e.parent := by
        by_cases hx : x = child
        · have hp := (hwl.mem_children_iff holder child).mp hc
          rw [← hx, parent?, he, Option.bind_some] at hp
          rw [if_pos (List.mem_singleton.mpr hx), hp]
        · rw [if_neg fun hin => hx (List.mem_singleton.mp hin), if_neg hx]
      have hchildren :
          (if x = holder then
            (if x = holder then e.children.erase child else e.children) ++ [child]
          else if x = holder then e.children.erase child else e.children)
          = e.children := by
        by_cases hx : x = holder
        · rw [← hx, children, he, Option.map_some, Option.getD_some] at hlast
          rw [if_pos hx, if_pos hx, hlast, List.erase_append_right _ hnew,
            List.erase_cons_head, List.append_nil]
        · rw [if_neg hx, if_neg hx]
      dsimp only [Option.map_some, linkUp, unlink]
      rw [hparent, hchildren]

/-- A property that can be put back may be, once it is taken out. -/
theorem Returnable.insertable {holder property : ElementId}
    (h : Returnable t holder property) (hwl : WellLinked t)
    (hholder : t.kind? holder = some .classDecl) :
    Insertable (t.detach holder property).2 .properties holder [property] := by
  obtain ⟨before, hlast⟩ := h.last
  have hc : property ∈ t.children holder :=
    hlast ▸ List.mem_append_right _ (List.mem_singleton_self _)
  have hp := (hwl.mem_children_iff holder property).mp hc
  have hrelinked := relinked_detach hc
  have hkind : t.kind? property = some .property := by
    obtain ⟨d, hd, -⟩ := h.noted
    obtain ⟨e, he, hd⟩ := Option.bind_eq_some_iff.mp hd
    rw [kind?, he, Option.map_some, Element.kind_of_property? hd]
  have hface : ∀ x, (t.detach holder property).2.face? x = t.face? x := fun x =>
    hrelinked.face?_eq (childrenOfKind_detach hwl hc (by simp [hkind]) x)
  refine
    { holder_kind := by rw [hrelinked.kind?_eq, hholder]; rfl
      member_kind := fun c hcm => by
        rw [List.mem_singleton.mp hcm, hrelinked.kind?_eq, hkind]; rfl
      ne_root := fun c hcm heq => ?_
      free := fun c hcm => by
        rw [List.mem_singleton.mp hcm, parent?_detach hc, if_pos rfl]
      not_within := fun c hcm hin => ?_
      nodup := List.nodup_singleton property
      one_indexer := fun hslot => Slot.noConfusion hslot
      apart_children := fun c hcm x hx => ?_
      apart_members := List.pairwise_singleton _ _ }
  · rw [List.mem_singleton.mp hcm, hrelinked.root_eq] at heq
    rw [heq, hwl.kind?_root] at hkind
    cases hkind
  · rw [List.mem_singleton.mp hcm, within_child_detach_iff hwl hc] at hin
    exact hwl.acyclic property (ancestor_of_within_of_parent? hin hp)
  · rw [children_detach hc, if_pos rfl,
      (hwl.nodup_children holder).mem_erase_iff] at hx
    rw [List.mem_singleton.mp hcm, collides_congr (hface x) (hface property)]
    exact h.apart x hx.2 hx.1

/-! ## Classes told from their properties -/

/-- The property of the name of a class, if there is still one, can be put back
    without a suffix. -/
def Told (suffix : String) (holder : ElementId) (t : Tree) : Prop :=
  t.kind? holder = some .classDecl → ∀ p, t.namesakeProperty? holder = some p →
    suffix = "" ∧ Returnable t holder p

/-- Properties of one name collide. -/
theorem collides_of_properties {a b : ElementId} (ha : t.kind? a = some .property)
    (hb : t.kind? b = some .property) (hname : t.name? a = t.name? b) :
    t.collides a b = true := by
  obtain ⟨⟨name, parent, children, description, content⟩, hx, hxk⟩ :=
    kind?_eq_some_iff.mp ha
  obtain ⟨⟨name', parent', children', description', content'⟩, hy, hyk⟩ :=
    kind?_eq_some_iff.mp hb
  rw [name?, name?, hx, hy] at hname
  obtain rfl : name = name' := Option.some.inj hname
  rw [collides, hx, hy]
  cases content with
  | property p =>
      cases content' with
      | property q => simp [Content.coexist]
      | _ => cases hyk
  | _ => cases hxk

/-- The property `property` of `holder` has been taken out and put back under a
    name, with its name on the wire written down. It comes last then and
    collides with nothing beside it; all others hold and show what they did. -/
structure Reinserted (t t' : Tree) (holder property : ElementId) (name : String) :
    Prop where
  held : property ∈ t.children holder
  kind : t.kind? property = some .property
  content?_eq : ∀ x, x ≠ property → t'.content? x = t.content? x
  face?_eq : ∀ x, x ≠ property → t'.face? x = t.face? x
  kind?_eq : ∀ x, t'.kind? x = t.kind? x
  children_eq : ∀ x, t'.children x = if x = holder
    then (t.children holder).erase property ++ [property] else t.children x
  name?_eq : t'.name? property = some name
  noted : ∃ d, t'.property? property = some d ∧ d.serializationName.isSome
  apart : ∀ c ∈ t.children holder, c ≠ property → t'.collides c property = false

/-- A property that is given a name, after the name that it had on the wire has
    been written down. -/
theorem get?_rename_keepWireName {property : ElementId} {name wire : String}
    (hkind : t.kind? property = some .property) (x : ElementId) :
    ((t.modify property (Element.keepWireName wire)).rename property name).get? x =
      if x = property then (t.get? x).map fun e =>
        (e.keepWireName wire).withName name else t.get? x := by
  have hkind' : (t.modify property (Element.keepWireName wire)).kind? property
      = some .property := by
    rw [(sameFrames_modify t property
      (Element.frame_keepWireName wire)).samePlaces.kind?_eq, hkind]
  rw [rename_property hkind', get?_modify, get?_modify]
  by_cases hx : x = property
  · rw [if_pos hx, if_pos hx, if_pos hx, Option.map_map]
    rfl
  · rw [if_neg hx, if_neg hx, if_neg hx]

/-- After its name on the wire was noted, a property has one. -/
theorem exists_property_rename_keepWireName {property : ElementId}
    {name wire : String} (hkind : t.kind? property = some .property) :
    ∃ d, ((t.modify property (Element.keepWireName wire)).rename property
      name).property? property = some d
      ∧ d.serializationName.isSome := by
  obtain ⟨⟨oldName, parent, children, description, content⟩, he, hproperty⟩ :=
    kind?_eq_some_iff.mp hkind
  rw [property?, get?_rename_keepWireName hkind, if_pos rfl, he, Option.map_some,
    Option.bind_some]
  cases content with
  | property d => exact ⟨_, rfl, rfl⟩
  | _ => cases hproperty

/-- Taking a property out, noting its name on the wire, renaming it and putting
    it back. -/
theorem reinserted {holder property : ElementId} {name wire : String}
    (hwl : WellLinked t) (hc : property ∈ t.children holder)
    (hkind : t.kind? property = some .property)
    (hs : s = ((t.detach holder property).2.modify
      property (Element.keepWireName wire)).rename property name)
    (hi : Insertable s .properties holder [property]) :
    Reinserted t (s.attach holder [property]) holder property name := by
  have hrelinked := relinked_detach hc
  have hplaces : SamePlaces (t.detach holder property).2 s := by
    rw [hs]
    exact (sameFrames_modify _ property
      (Element.frame_keepWireName wire)).samePlaces.trans
      (samePlaces_rename _ property name)
  have hkind' : (t.detach holder property).2.kind? property = some .property := by
    rw [hrelinked.kind?_eq, hkind]
  have hget : ∀ x, s.get? x = _ := fun x => hs ▸ get?_rename_keepWireName hkind' x
  have hface : ∀ x, (s.attach holder [property]).face? x = s.face? x := fun x =>
    hi.face?_attach (by decide) x
  refine
    { held := hc
      kind := hkind
      content?_eq := fun x hx => ?_
      face?_eq := ?_
      kind?_eq := fun x => by
        rw [(relinked_attach _ _ _).kind?_eq, hplaces.kind?_eq, hrelinked.kind?_eq]
      children_eq := fun x => ?_
      name?_eq := ?_
      noted := ?_
      apart := fun c hcm hne => ?_ }
  · rw [(relinked_attach _ _ _).content?_eq, content?, hget, if_neg hx]
    exact hrelinked.content?_eq x
  · exact (face?_reinsert hwl hc hkind
      (fun e => Element.place_eq_of_frame_eq (Element.frame_keepWireName wire e))
      (Element.parameterType?_keepWireName wire) hs hi).1
  · rw [hi.children_attach, hplaces.children_eq, hplaces.children_eq,
      children_detach hc, children_detach hc, if_pos rfl]
    by_cases hx : x = holder
    · rw [if_pos hx, if_pos hx]
    · rw [if_neg hx, if_neg hx, if_neg hx]
  · obtain ⟨e, he, -⟩ := kind?_eq_some_iff.mp hkind'
    rw [(relinked_attach _ _ _).name?_eq, name?, hget, if_pos rfl, he]
    rfl
  · rw [property?_congr ((relinked_attach _ _ _).content?_eq property), hs]
    exact exists_property_rename_keepWireName hkind'
  · rw [collides_congr (hface c) (hface property)]
    refine hi.apart_children property (List.mem_singleton_self _) c ?_
    rw [hplaces.children_eq, children_detach hc, if_pos rfl]
    exact (hwl.nodup_children holder).mem_erase_iff.mpr ⟨hne, hcm⟩

namespace Reinserted

variable {holder property x : ElementId} {name suffix : String}

theorem size_eq (h : Reinserted t t' holder property name) : t'.size = t.size := by
  refine size_eq_of_isSome_get? fun y => ?_
  have hkind := congrArg Option.isSome (h.kind?_eq y)
  rwa [kind?, kind?, Option.isSome_map, Option.isSome_map] at hkind

/-- Other names stay. -/
theorem name?_of_ne (h : Reinserted t t' holder property name) (hx : x ≠ property) :
    t'.name? x = t.name? x := by
  rw [name?_eq_face, h.face?_eq x hx, ← name?_eq_face]

/-- By kind each element holds what it held, in some order. -/
theorem mem_childrenOfKind_iff (h : Reinserted t t' holder property name)
    (hwl : WellLinked t) {c : ElementId} {kind : NodeKind} :
    c ∈ t'.childrenOfKind x kind ↔ c ∈ t.childrenOfKind x kind := by
  have hmem : c ∈ t'.children x ↔ c ∈ t.children x := by
    rw [h.children_eq]
    by_cases hx : x = holder
    · rw [if_pos hx, hx, List.mem_append, (hwl.nodup_children holder).mem_erase_iff,
        List.mem_singleton]
      by_cases hc : c = property <;> simp [hc, h.held]
    · rw [if_neg hx]
  rw [childrenOfKind, childrenOfKind, List.mem_filter, List.mem_filter, hmem,
    h.kind?_eq]

/-- Members of other holders are other members. -/
theorem ne_of_mem (h : Reinserted t t' holder property name) (hwl : WellLinked t)
    (hx : x ≠ holder) {c : ElementId} (hc : c ∈ t.children x) : c ≠ property := by
  rintro rfl
  have hp := (hwl.mem_children_iff holder c).mp h.held
  rw [(hwl.mem_children_iff x c).mp hc] at hp
  exact hx (Option.some.inj hp)

/-- Properties of different names still have different names. -/
theorem distinctAt (h : Reinserted t t' holder property name) (hwl : WellLinked t)
    (hdistinct : t.DistinctAt x) : t'.DistinctAt x := by
  -- The property itself collides with no other, so it does not have the name of
  -- another one.
  have hother : ∀ c, c ∈ t.childrenOfKind x .property →
      property ∈ t.childrenOfKind x .property → c ≠ property →
      t'.name? c ≠ t'.name? property := by
    intro c hc hp hne hname
    obtain ⟨hcm, hck⟩ := List.mem_filter.mp hc
    have hx : x = holder := not_not.mp fun hx =>
      h.ne_of_mem hwl hx (List.mem_filter.mp hp).1 rfl
    have happart := h.apart c (hx ▸ hcm) hne
    have hcollides := collides_of_properties (h.kind?_eq c ▸ of_decide_eq_true hck)
      (h.kind?_eq property ▸ h.kind) hname
    rw [hcollides] at happart
    cases happart
  intro a ha b hb hname
  rw [h.mem_childrenOfKind_iff hwl] at ha hb
  by_cases hap : a = property
  · by_cases hbp : b = property
    · rw [hap, hbp]
    · exact absurd (hap ▸ hname.symm) (hother b hb (hap ▸ ha) hbp)
  · by_cases hbp : b = property
    · exact absurd (hbp ▸ hname) (hother a ha (hbp ▸ hb) hap)
    · rw [h.name?_of_ne hap, h.name?_of_ne hbp] at hname
      exact hdistinct a ha b hb hname

/-- Another class that has been told from its property still is. -/
theorem told_of_ne (h : Reinserted t t' holder property name) (hwl : WellLinked t)
    (hx : x ≠ holder) (htold : Told suffix x t) : Told suffix x t' := by
  intro hkind p hp
  rw [h.kind?_eq] at hkind
  have hxp : x ≠ property := by
    rintro rfl
    rw [h.kind] at hkind
    cases hkind
  have hchildren : t'.children x = t.children x := by rw [h.children_eq, if_neg hx]
  have hproperties : t'.childrenOfKind x .property = t.childrenOfKind x .property :=
      by
    rw [childrenOfKind, childrenOfKind, hchildren, funext h.kind?_eq]
  rw [namesakeProperty?, hproperties, h.name?_of_ne hxp,
      List.find?_congr fun c hc => by
    rw [h.name?_of_ne (h.ne_of_mem hwl hx (List.mem_filter.mp hc).1)]] at hp
  obtain ⟨hsuffix, hreturnable⟩ := htold hkind p hp
  have hmember := (List.mem_filter.mp (List.mem_of_find?_eq_some hp)).1
  have hpp := h.ne_of_mem hwl hx hmember
  refine ⟨hsuffix, hchildren ▸ hreturnable.last, ?_, fun c hc hne => ?_⟩
  · rw [property?_congr (h.content?_eq p hpp)]
    exact hreturnable.noted
  · rw [hchildren] at hc
    rw [collides_congr (h.face?_eq c (h.ne_of_mem hwl hx hc)) (h.face?_eq p hpp)]
    exact hreturnable.apart c hc hne

/-- Once the property of its name has been put back under another one, a class
    is told from its properties. -/
theorem told (h : Reinserted t t' holder property name) (hwl : WellLinked t)
    (hdistinct : t.DistinctAt holder) {n : String}
    (hholder : t.name? holder = some n) (hproperty : t.name? property = some n)
    (hname : name = n ++ suffix) : Told suffix holder t' := by
  intro hkind p hp
  have hne : holder ≠ property := by
    rintro rfl
    rw [h.kind?_eq, h.kind] at hkind
    cases hkind
  have hmember := (h.mem_childrenOfKind_iff hwl).mp (List.mem_of_find?_eq_some hp)
  have hsame : t'.name? p = some n := by
    rw [← hholder, ← h.name?_of_ne hne]
    simpa using List.find?_some hp
  by_cases hpp : p = property
  · subst hpp
    rw [h.name?_eq, hname] at hsame
    have hlist := congrArg String.toList (Option.some.inj hsame)
    rw [String.toList_append, List.append_right_eq_self] at hlist
    refine ⟨String.toList_eq_nil_iff.mp hlist,
      ⟨_, by rw [h.children_eq, if_pos rfl]⟩, h.noted, fun c hc hcp => ?_⟩
    rw [h.children_eq, if_pos rfl] at hc
    refine h.apart c ?_ hcp
    rcases List.mem_append.mp hc with hc | hc
    · exact List.mem_of_mem_erase hc
    · exact absurd (List.mem_singleton.mp hc) hcp
  · rw [h.name?_of_ne hpp, ← hproperty] at hsame
    exact absurd (hdistinct p hmember property
      (List.mem_filter.mpr ⟨h.held, decide_eq_true h.kind⟩) hsame) hpp

end Reinserted

end Tree

namespace Edit

variable {t t' : Tree}

/-- A property that is given the name that it has stays as it is. -/
theorem rests_setName_of_property {property : ElementId} {e : Element}
    {d : PropertyDecl} (he : t.get? property = some e) (hd : e.property? = some d)
    (hne : property ≠ t.root) (hfull : e.name ≠ "") :
    Rests (setName property e.name) t := by
  have hkind : t.kind? property = some .property := by
    rw [kind?, he, Option.map_some, Element.kind_of_property? hd]
  rw [Rests, setName, run_change_eq_ok_iff, Tree.setName, if_neg fun h =>
    hfull (String.isEmpty_iff.mp h), if_neg hne, he]
  refine congrArg Except.ok ?_
  rw [rename_property hkind]
  refine run_modifyElement_eq_ok_iff.mp (rests_modifyElement fun e' he' => ?_)
  obtain rfl := Option.some.inj (he.symm.trans he')
  exact Element.withName_name_of_property hd

/-- A class that has been told from its property is left alone. -/
theorem rests_disambiguateProperty {suffix : String} {id : ElementId} (h : Stable t)
    (hid : Attached t id) (htold : Told suffix id t) :
    Rests (disambiguateProperty suffix id) t := by
  have hwl := h.toWellLinked
  obtain ⟨e, he⟩ := Option.isSome_iff_exists.mp
    ((get?_isSome_iff t id).mpr (hwl.index_lt_of_attached hid))
  rw [Rests, disambiguateProperty, run_get_bind]
  refine run_bind_eq_ok_iff.mpr ⟨e, t, run_element_eq_ok_iff.mpr ⟨he, rfl⟩, ?_⟩
  split
  · rfl
  next hclass =>
    have hkind : t.kind? id = some .classDecl := by
      rw [kind?, he, Option.map_some, Decidable.not_not.mp hclass]
    cases hp : t.namesakeProperty? id with
    | none => rfl
    | some property =>
        obtain ⟨rfl, hreturnable⟩ := htold hkind property hp
        obtain ⟨before, hlast⟩ := hreturnable.last
        have hc : property ∈ t.children id :=
          hlast ▸ List.mem_append_right _ (List.mem_singleton_self _)
        have hrelinked := relinked_detach hc
        -- Nothing but the links is different while the property is taken out.
        obtain ⟨d, hd, hwire⟩ := hreturnable.noted
        rw [← property?_congr (hrelinked.content?_eq property)] at hd
        obtain ⟨ep, hep, hd⟩ := Option.bind_eq_some_iff.mp hd
        have hname : e.name = ep.name := by
          have hsame : t.name? property = t.name? id := by
            simpa using List.find?_some hp
          rw [← hrelinked.name?_eq, name?, hep, name?, he] at hsame
          exact (Option.some.inj hsame).symm
        have hne : property ≠ (t.detach id property).2.root := by
          rintro hroot
          rw [hrelinked.root_eq] at hroot
          have hparent := (hwl.mem_children_iff id property).mp hc
          rw [hroot, hwl.parent?_root] at hparent
          cases hparent
        have hbelow : Ancestor t t.root id :=
          hid.resolve_left (hwl.ne_root_of_class (isSome_class?_iff.mpr hkind))
        refine run_bind_eq_ok_iff.mpr ⟨(), (t.detach id property).2,
          run_discard_eq_ok_iff.mpr ⟨_, run_changeWith_eq_ok_iff.mpr rfl⟩, ?_⟩
        refine run_bind_eq_ok_iff.mpr ⟨(), (t.detach id property).2,
          rests_modifyElement fun e' he' => ?_, ?_⟩
        · obtain rfl := Option.some.inj (hep.symm.trans he')
          exact Element.keepWireName_eq_self hd hwire _
        refine run_bind_eq_ok_iff.mpr ⟨(), (t.detach id property).2, ?_, ?_⟩
        · rw [String.append_empty, hname]
          exact rests_setName_of_property hep hd hne
            (hname ▸ (h.fit id hbelow e he).1)
        obtain ⟨_, _, hadd, rfl⟩ :=
          succeeds_add (Q := fun _ s => s = t) (hwl.detach hc)
          (hreturnable.insertable hwl hkind) (List.cons_ne_nil _ _)
            (attach_detach hwl hlast)
        exact hadd

/-- After the pass a second run changes nothing, provided that no class had two
    properties of one name. -/
theorem rests_disambiguateProperties {suffix : String} (h : Stable t)
    (hdistinct : t.DistinctProperties) {u : Unit}
    (hrun : (disambiguateProperties suffix).run t = .ok u t') :
    Rests (disambiguateProperties suffix) t' := by
  obtain ⟨h', ⟨hsize, -⟩, hsettled⟩ := settled_of_steps
    (J := fun s => s.size = t.size ∧ ∀ x ∈ t.descendants t.root, s.DistinctAt x)
      (C := Told suffix)
    (fun s id s' hs hn hid hbelow hJ hone => by
      obtain ⟨hsize, hdistinct⟩ := hJ
      have hwl := hs.toWellLinked
      have hsteps := steps_disambiguateProperty (K := fun _ => True) (n := t.size)
        trivial hs hid hone
      refine ⟨hsteps, ?_⟩
      rcases run_disambiguateProperty_eq_ok hwl hone with
        ⟨rfl, hnone⟩ | ⟨name, property, s₁, hclass, hp, hname, -, hs₁,
          hinsertable, rfl⟩
      · refine ⟨⟨hsize, hdistinct⟩, fun hkind p hp => ?_, fun _ _ _ hx => hx⟩
        rw [hnone hkind] at hp
        cases hp
      · obtain ⟨hc, hproperty⟩ := List.mem_filter.mp (List.mem_of_find?_eq_some hp)
        have hreinserted :=
          reinserted hwl hc (of_decide_eq_true hproperty) hs₁ hinsertable
        have hsame : s.name? property = s.name? id := by
          simpa using List.find?_some hp
        exact ⟨⟨hreinserted.size_eq.trans hsize, fun x hx =>
          hreinserted.distinctAt hwl (hdistinct x hx)⟩,
          hreinserted.told hwl (hdistinct id hbelow) hname (hsame.trans hname) rfl,
          fun x _ hne hx => hreinserted.told_of_ne hwl hne hx⟩)
    h ⟨rfl, hdistinct⟩ hrun
  refine rests_crawl fun x hx =>
    rests_disambiguateProperty h' ?_ ((hsettled x hx).resolve_right fun hnew => ?_)
  · exact Or.inr (h'.toWellLinked.mem_descendants_iff.mp hx)
  · omega

end Edit

/-! ## Passes -/

namespace Pass

/-- Whether one run of a pass leaves nothing to another. A class that has moved
    can meet a namespace of its name again, a name that has been escaped can be
    reserved again, and a type that has been corrected can be corrected again.
    Of several properties with the name of their class only one is told from
    it. -/
def LeavesNothing (t : Tree) : Pass → Prop
  | moveIntoNamesakes | escapeReservedNames _ _ | correctTypes _ => False
  | disambiguateProperties _ => t.DistinctProperties
  | _ => True

variable {t t' : Tree}

/-- A pass that has settled a tree finds nothing to do in it: run once more, it
    is not refused and leaves the tree exactly as it is. -/
theorem run_apply_again {pass : Pass} (hpass : pass.LeavesNothing t)
    (hwf : WellFormed t) (hbound : t.validateReferences = .ok ()) {u : Unit}
    (hrun : pass.apply.run t = .ok u t') : pass.apply.run t' = .ok () t' := by
  have h : Stable t :=
    stable_iff.mpr ⟨hwf, hwf.toWellLinked.validateReferences_iff.mp hbound⟩
  have hwl := hwf.toWellLinked
  cases pass with
  | seedImports defaults => exact Edit.rests_seedImports hwl hrun
  | moveIntoNamesakes => exact hpass.elim
  | wrapUnions placement => exact Edit.rests_wrapUnions h hrun
  | flattenInheritance => exact Edit.rests_flattenInheritance h hrun
  | importReferenced ownNamespaceToo => exact Edit.rests_importReferenced hwl hrun
  | addAsyncSuffix suffix => exact Edit.rests_addAsyncSuffix hwl hrun
  | nestQueryClasses => exact Edit.rests_nestQueryClasses h hrun
  | implementInModels interface spec => exact Edit.rests_implementInModels hwl hrun
  | capitalizeNamespaces => exact Edit.rests_capitalizeNamespaces hwl hrun
  | replaceBinary typeName spec => exact Edit.rests_replaceBinary hwl hrun
  | makeEnumPropertiesNullable =>
      exact Edit.rests_makeEnumPropertiesNullable hwl hrun
  | escapeReservedNames reserved style => exact hpass.elim
  | disambiguateProperties suffix =>
      exact Edit.rests_disambiguateProperties h hpass hrun
  | addConstructors inheritingToo => exact Edit.rests_addConstructors h hrun
  | correctTypes corrections => exact hpass.elim
  | resolveImportPaths => exact Edit.rests_resolveImportPaths hwl hrun

/-- A class with a property of its name, and another after it. -/
def orderOfOrders : Tree :=
  Operation.runAll
    [.addNew .classes ⟨0⟩ (.classDecl "Order" .model),
      .addNew .properties ⟨1⟩ (.property "Order" .custom (.declared "Order" ⟨1⟩)),
      .addNew .properties ⟨1⟩ (.property "id" .custom (.external "string"))]
    initial

theorem wellFormed_orderOfOrders : WellFormed orderOfOrders :=
  (Operation.fullyNamed_runAll _ fullyNamed_initial).wellFormed

/-- Even an empty suffix puts the property behind the other, where it stays. -/
theorem run_apply_again_orderOfOrders :
    ∃ t', (disambiguateProperties "").apply.run orderOfOrders = .ok () t'
      ∧ t'.children ⟨1⟩ = [⟨3⟩, ⟨2⟩]
      ∧ (disambiguateProperties "").apply.run t' = .ok () t' := by
  obtain ⟨t', hrun, hchildren⟩ : ∃ t',
    (disambiguateProperties "").apply.run orderOfOrders = .ok () t'
      ∧ t'.children ⟨1⟩ = [⟨3⟩, ⟨2⟩] := ⟨_, rfl, rfl⟩
  have hdistinct : (disambiguateProperties "").LeavesNothing orderOfOrders := by
    show orderOfOrders.DistinctProperties
    decide +kernel
  exact ⟨t', hrun, hchildren,
    run_apply_again hdistinct wellFormed_orderOfOrders (by decide +kernel) hrun⟩

end Pass

end CodeModel
