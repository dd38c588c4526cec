import CodeModel.Proofs.Flattening
import CodeModel.Proofs.MakingSteps

/-!
# New members

An operation that makes an element and puts it into a slot leaves everything as
it was, but that the holder has one member more. Several such operations on one
holder add up, and so do operations on what they have made themselves: to what
was there before nothing happens.

* **`Extended`**: everything is as it was, but that one element holds more.
* **`extended_of_addNew`**: one new member.

Main statements: `Extended.trans`, `Extended.trans_new`, and `succeeds_addNew`,
an element whose name is free joins a slot of its kind.
-/

namespace CodeModel

open CodeModel.Tree

namespace Element

/-- The element with more members after what it holds. -/
def gain (members : List ElementId) (e : Element) : Element :=
  { e with children := e.children ++ members }

/-- The element with a holder. -/
def under (holder : ElementId) (e : Element) : Element :=
  { e with parent := some holder }

@[simp]
theorem gain_nil (e : Element) : e.gain [] = e := by
  rw [gain, List.append_nil]

@[simp]
theorem gain_gain (first second : List ElementId) (e : Element) :
    (e.gain first).gain second = e.gain (first ++ second) := by
  rw [gain, gain, gain, List.append_assoc]

end Element

namespace Tree

variable {t s t' : Tree} {x y holder id : ElementId} {e : Element}
  {new new' : List ElementId}

/-! ## More members -/

/-- What is not there is none of what is. -/
theorem ne_of_get?_eq_none (hy : t.get? y = none) (hx : (t.get? x).isSome) :
    y ≠ x := by
  rintro rfl
  rw [hy] at hx
  cases hx

/-- What is not there lies beyond the arena. -/
theorem size_le_of_get?_eq_none (hy : t.get? y = none) : t.size ≤ y.index := by
  refine Nat.le_of_not_lt fun hlt => ?_
  have hsome := (get?_isSome_iff t y).mpr hlt
  rw [hy] at hsome
  cases hsome

/-- Tree `t'` has everything that `t` has as it was, but that `x` holds `new`
    besides. -/
structure Extended (t t' : Tree) (x : ElementId) (new : List ElementId) : Prop where
  wellLinked : WellLinked t'
  root_eq : t'.root = t.root
  get?_self : ∀ e, t.get? x = some e → t'.get? x = some (e.gain new)
  get?_other : ∀ y e, t.get? y = some e → y ≠ x → t'.get? y = some e

/-- With no new members a tree is extended by itself. -/
theorem extended_refl (hwl : WellLinked t) (x : ElementId) : Extended t t x [] where
  wellLinked := hwl
  root_eq := rfl
  get?_self e he := by rw [Element.gain_nil, he]
  get?_other _ _ he _ := he

namespace Extended

/-- New members of two extensions come one after another. -/
theorem trans (h : Extended t s x new) (h' : Extended s t' x new') :
    Extended t t' x (new ++ new') where
  wellLinked := h'.wellLinked
  root_eq := h'.root_eq.trans h.root_eq
  get?_self e he := by rw [h'.get?_self _ (h.get?_self e he), Element.gain_gain]
  get?_other y e he hy := h'.get?_other y e (h.get?_other y e he hy) hy

/-- Members of something new do not matter to what was there. -/
theorem trans_new (h : Extended t s x new) (h' : Extended s t' y new')
    (hy : t.get? y = none) : Extended t t' x new where
  wellLinked := h'.wellLinked
  root_eq := h'.root_eq.trans h.root_eq
  get?_self e he := by
    exact h'.get?_other x _ (h.get?_self e he)
      (ne_of_get?_eq_none hy (Option.isSome_of_eq_some he)).symm
  get?_other z e he hz := by
    exact h'.get?_other z e (h.get?_other z e he hz)
      (ne_of_get?_eq_none hy (Option.isSome_of_eq_some he)).symm

variable (h : Extended t t' x new)

include h

/-- What was there keeps everything but its members. -/
theorem exists_gain (he : t.get? y = some e) :
    ∃ members, t'.get? y = some (e.gain members) := by
  by_cases hy : y = x
  · subst hy
    exact ⟨new, h.get?_self e he⟩
  · refine ⟨[], ?_⟩
    rw [Element.gain_nil, h.get?_other y e he hy]

/-- Every element that was there is there, with members gained at most. -/
theorem exists_get? (hy : (t.get? y).isSome) :
    ∃ e members, t.get? y = some e ∧ t'.get? y = some (e.gain members) := by
  obtain ⟨e, he⟩ := Option.isSome_iff_exists.mp hy
  obtain ⟨members, he'⟩ := h.exists_gain he
  exact ⟨e, members, he, he'⟩

theorem size_le : t.size ≤ t'.size := by
  refine Nat.le_of_not_lt fun hlt => ?_
  obtain ⟨e, members, -, he'⟩ :=
    h.exists_get? ((get?_isSome_iff t ⟨t'.size⟩).mpr hlt)
  exact Nat.lt_irrefl _ (index_lt_of_get? he')

theorem kind?_eq (hy : (t.get? y).isSome) : t'.kind? y = t.kind? y := by
  obtain ⟨e, members, he, he'⟩ := h.exists_get? hy
  rw [kind?, kind?, he, he']
  rfl

theorem name?_eq (hy : (t.get? y).isSome) : t'.name? y = t.name? y := by
  obtain ⟨e, members, he, he'⟩ := h.exists_get? hy
  rw [name?, name?, he, he']
  rfl

theorem parent?_eq (hy : (t.get? y).isSome) : t'.parent? y = t.parent? y := by
  obtain ⟨e, members, he, he'⟩ := h.exists_get? hy
  rw [parent?, parent?, he, he']
  rfl

theorem children_self (hx : (t.get? x).isSome) :
    t'.children x = t.children x ++ new := by
  obtain ⟨e, he⟩ := Option.isSome_iff_exists.mp hx
  rw [children, children, h.get?_self e he, he]
  rfl

/-- A name that is free stays free when none of the new members has it. -/
theorem hasMember_eq_false {name : String} (hwl : WellLinked t)
    (hx : (t.get? x).isSome) (hfree : t.hasMember x name = false)
    (hnew : ∀ c ∈ new, t'.name? c ≠ some name) : t'.hasMember x name = false := by
  refine hasMember_eq_false_iff.mpr fun c hc => ?_
  rw [h.children_self hx] at hc
  rcases List.mem_append.mp hc with hc | hc
  · rw [h.name?_eq ((get?_isSome_iff t c).mpr (hwl.index_lt_of_mem_children hc))]
    exact hasMember_eq_false_iff.mp hfree c hc
  · exact hnew c hc

/-- Nothing new comes to stand above what was there. -/
theorem ancestor_iff (hwl : WellLinked t) {a : ElementId} (hy : (t.get? y).isSome) :
    Ancestor t' a y ↔ Ancestor t a y := by
  constructor
  · intro ha
    induction ha with
    | parent hp => exact .parent ((h.parent?_eq hy).symm.trans hp)
    | @above b p hp _ ih =>
        rw [h.parent?_eq hy] at hp
        exact .above hp
          (ih ((get?_isSome_iff t p).mpr (hwl.index_lt_of_parent? hp)))
  · intro ha
    induction ha with
    | parent hp => exact .parent ((h.parent?_eq hy).trans hp)
    | @above b p hp _ ih =>
        have hsome : (t.get? p).isSome :=
          (get?_isSome_iff t p).mpr (hwl.index_lt_of_parent? hp)
        exact .above ((h.parent?_eq hy).trans hp) (ih hsome)

end Extended

/-- A detached element extends nothing yet. -/
theorem extended_push (hwl : WellLinked t) (htoken : e.TokenFits) (x : ElementId) :
    Extended t (t.push e.detached) x [] where
  wellLinked := hwl.push rfl rfl htoken
  root_eq := rfl
  get?_self e' he' := by rw [Element.gain_nil, get?_push_of_get? he']
  get?_other y e' he' _ := get?_push_of_get? he'

/-- A batch of elements that were not there joins something that was. -/
theorem Extended.attach {slot : Slot} {ids : List ElementId} (h : Extended t s x [])
    (hx : (t.get? x).isSome) (hnew : ∀ c ∈ ids, t.get? c = none)
    (hfit : Insertable s slot x ids) : Extended t (s.attach x ids) x ids where
  wellLinked := h.wellLinked.attach hfit
  root_eq := (relinked_attach s x ids).root_eq.trans h.root_eq
  get?_self e he := by
    have hout : x ∉ ids := fun hc => ne_of_get?_eq_none (hnew x hc) hx rfl
    rw [(changedBy_attach s x ids).get?_eq, h.get?_self e he, Element.gain_nil,
      Option.map_some, linkUp, if_neg hout, if_pos rfl]
    rfl
  get?_other y e he hy := by
    have hout : y ∉ ids := by
      intro hc
      rw [hnew y hc] at he
      cases he
    rw [(changedBy_attach s x ids).get?_eq, h.get?_other y e he hy, Option.map_some,
      linkUp, if_neg hout, if_neg hy]

/-! ## One new member -/

/-- Two elements of one name that do not collide may stand side by side. -/
theorem exists_coexist_of_collides {a b : ElementId} {ea eb : Element}
    (ha : t.get? a = some ea) (hb : t.get? b = some eb)
    (hfree : t.collides a b = false) (hname : ea.name = eb.name) :
    ∃ sameSignature, Content.coexist sameSignature ea.content eb.content = true :=
      by
  rw [collides, ha, hb] at hfree
  dsimp only at hfree
  rw [beq_iff_eq.mpr hname, Bool.true_and, Bool.not_eq_false'] at hfree
  exact ⟨_, hfree⟩

/-- A new element is the last member of its holder, and may stand beside the
    others that have its name. -/
theorem extended_of_addNew {slot : Slot} (hwl : WellLinked t) (htoken : e.TokenFits)
    (hrun : (Edit.addNew slot holder e).run t = .ok id t') :
    id = t.nextId ∧ Extended t t' holder [id]
      ∧ t'.get? id = some (e.detached.under holder)
      ∧ ∀ c ec, c ∈ t.children holder → t.get? c = some ec → ec.name = e.name →
          ∃ sameSignature,
            Content.coexist sameSignature ec.content e.content = true := by
  obtain ⟨-, rfl, hinsert⟩ := Edit.run_addNew_eq_ok hrun
  obtain ⟨hfit, rfl⟩ :=
    insertable_of_insert (extended_push hwl htoken holder).wellLinked hinsert
  have hne : holder ≠ t.nextId := fun heq =>
    hfit.not_within _ (List.mem_singleton_self _) (Or.inl heq)
  have hholder : (t.get? holder).isSome := by
    obtain ⟨eh, heh, -⟩ := kind?_eq_some_iff.mp hfit.holder_kind
    rw [get?_push, if_neg hne] at heh
    exact Option.isSome_of_eq_some heh
  refine ⟨rfl, (extended_push hwl htoken holder).attach hholder
    (fun c hc => ?_) hfit, ?_, fun c ec hc hec hname => ?_⟩
  · rw [List.mem_singleton.mp hc, get?_nextId]
  · rw [(changedBy_attach _ holder _).get?_eq, get?_push_nextId, Option.map_some,
      linkUp, if_pos (List.mem_singleton_self _), if_neg hne.symm]
    rfl
  · have hmember : c ∈ (t.push e.detached).children holder := by
      rwa [children_push rfl]
    have hnew : (t.push e.detached).get? t.nextId = some e.detached :=
      get?_push_nextId
    have hapart := hfit.apart_children _ (List.mem_singleton_self _) c hmember
    have hcoexist :=
      exists_coexist_of_collides (get?_push_of_get? hec) hnew hapart hname
    exact hcoexist

/-- Adding a new element makes one. -/
theorem size_of_addNew {slot : Slot} (hwl : WellLinked t) (htoken : e.TokenFits)
    (hrun : (Edit.addNew slot holder e).run t = .ok id t') :
    t'.size = t.size + 1 := by
  obtain ⟨-, -, hinsert⟩ := Edit.run_addNew_eq_ok hrun
  obtain ⟨-, rfl⟩ :=
    insertable_of_insert (extended_push hwl htoken holder).wellLinked hinsert
  rw [(relinked_attach _ holder _).size_eq, size_push]

/-- Something new is not above anything that was there. -/
theorem Extended.not_within (hwl : WellLinked t) (h : Extended t s x new)
    (hid : t.get? id = none) (hy : (t.get? y).isSome) : ¬ Within s id y := by
  rintro (rfl | ha)
  · rw [hid] at hy
    cases hy
  · have hlt := hwl.index_lt_of_ancestor ((h.ancestor_iff hwl hy).mp ha)
    have hsome := (get?_isSome_iff t id).mpr hlt
    rw [hid] at hsome
    cases hsome

/-- A new element that nobody holds is fit for a slot of its kind when it
    collides with nothing there. -/
theorem Extended.insertable_of_apart {slot : Slot} (hwl : WellLinked t)
    (h : Extended t s holder []) (hholder : t.kind? holder = some slot.holderKind)
    (hid : t.get? id = none) (hkind : s.kind? id = some slot.memberKind)
    (hslot : slot ≠ .indexer) (hparent : s.parent? id = none)
    (hapart : ∀ c ∈ t.children holder, s.collides c id = false) :
    Insertable s slot holder [id] := by
  have hsome : (t.get? holder).isSome := isSome_of_kind? hholder
  exact
    { holder_kind := (h.kind?_eq hsome).trans hholder
      member_kind := fun c hc => by rw [List.mem_singleton.mp hc, hkind]
      ne_root := fun c hc => by
        rw [List.mem_singleton.mp hc, h.root_eq]
        exact ne_of_get?_eq_none hid hwl.isSome_get?_root
      free := fun c hc => by rw [List.mem_singleton.mp hc, hparent]
      not_within := fun c hc => by
        rw [List.mem_singleton.mp hc]
        exact h.not_within hwl hid hsome
      nodup := List.nodup_singleton id
      one_indexer := fun heq => absurd heq hslot
      apart_children := fun c hc x hx => by
        rw [h.children_self hsome, List.append_nil] at hx
        rw [List.mem_singleton.mp hc]
        exact hapart x hx
      apart_members := List.pairwise_singleton _ id }

/-- A new element that nobody holds is fit for a slot of its kind when its name
    is free there. -/
theorem Extended.insertable {slot : Slot} {name : String} (hwl : WellLinked t)
    (h : Extended t s holder []) (hholder : t.kind? holder = some slot.holderKind)
    (hid : t.get? id = none) (hkind : s.kind? id = some slot.memberKind)
    (hslot : slot ≠ .indexer) (hparent : s.parent? id = none)
    (hname : s.name? id = some name) (hfree : t.hasMember holder name = false) :
    Insertable s slot holder [id] := by
  refine h.insertable_of_apart hwl hholder hid hkind hslot hparent fun c hc => ?_
  have hcsome : (t.get? c).isSome :=
    (get?_isSome_iff t c).mpr (hwl.index_lt_of_mem_children hc)
  refine collides_eq_false_of_name?_ne fun heq => ?_
  rw [hname, h.name?_eq hcsome] at heq
  exact hasMember_eq_false_iff.mp hfree c hc heq

/-- An element that is fit for a slot once it is made joins the slot. -/
theorem succeeds_addNew_of_insertable {slot : Slot} (hwl : WellLinked t)
    (hname : e.name ≠ "") (htoken : e.TokenFits)
    (hfit : Insertable (t.push e.detached) slot holder [t.nextId]) :
    Edit.Succeeds (Edit.addNew slot holder e) t fun id t' => id = t.nextId
      ∧ Extended t t' holder [t.nextId]
      ∧ t'.get? t.nextId = some (e.detached.under holder) := by
  have hpushed := extended_push hwl htoken holder
  have hadd : Edit.Succeeds (do Edit.add slot holder [t.nextId]; return t.nextId)
      (t.push e.detached) fun _ _ => True :=
    (Edit.succeeds_add (Q := fun _ _ => True) hpushed.wellLinked hfit
      (List.cons_ne_nil _ _) trivial).bind
      fun _ _ _ => Edit.succeeds_pure trivial
  have hsucceeds : Edit.Succeeds (Edit.addNew slot holder e) t fun _ _ => True := by
    refine (Edit.succeeds_create (Q := fun id s => id = t.nextId
      ∧ s = t.push e.detached) hname ⟨rfl, rfl⟩).bind ?_
    rintro id s ⟨rfl, rfl⟩
    exact hadd
  refine hsucceeds.mono fun id t' hrun _ => ?_
  obtain ⟨rfl, hextended, hget, -⟩ := extended_of_addNew hwl htoken hrun
  exact ⟨rfl, hextended, hget⟩

/-- An element whose name is free joins a slot of its kind. -/
theorem succeeds_addNew {slot : Slot} (hwl : WellLinked t)
    (hholder : t.kind? holder = some slot.holderKind)
    (hkind : e.kind = slot.memberKind) (hslot : slot ≠ .indexer)
    (hname : e.name ≠ "") (htoken : e.TokenFits)
    (hfree : t.hasMember holder e.name = false) :
    Edit.Succeeds (Edit.addNew slot holder e) t fun id t' => id = t.nextId
      ∧ Extended t t' holder [t.nextId]
      ∧ t'.get? t.nextId = some (e.detached.under holder) := by
  refine succeeds_addNew_of_insertable hwl hname htoken ?_
  exact (extended_push hwl htoken holder).insertable hwl hholder (get?_nextId t)
    (kind?_eq_some_iff.mpr ⟨_, get?_push_nextId, hkind⟩) hslot
      (by rw [parent?, get?_push_nextId]; rfl)
    (by rw [name?, get?_push_nextId]; rfl) hfree

end Tree

end CodeModel
