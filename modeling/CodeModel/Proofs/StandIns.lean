import CodeModel.Proofs.BoundReferences
import CodeModel.Proofs.WrapperClasses

/-!
# What stands in the place of a union

Lowering a union goes through its alternatives, and through those of the unions
among them. Wrappers are kept in a table under their scope and the alternatives.
What is in the table stays there, and what it leads to stays what it is.

* **`TypeRef.represented`**: the alternatives of a union that get a property.
* **`TypeRef.Lowers`**: the unions that are gone through.
* **`Standing`**: a table of wrappers, in which each key and each class occurs
  once.
* **`Added`**: what is different when a union has been lowered.

Main statements: `stands_of_standIn`, by induction on the type, a union is
lowered to a reference to the wrapper in the table, and `succeeds_standIn`, a
union can be lowered when everything in it has a name and no property gets that
of a method.
-/

namespace CodeModel

open CodeModel.Tree

/-! ## Alternatives -/

namespace TypeRef

variable {r m v : TypeRef} {taken : List String} {members : List TypeRef}

/-- The name of the property for an alternative. -/
def propertyName (m : TypeRef) : String :=
  Text.uncapitalize m.name

/-- The alternatives of a union that get a property: of those whose properties
    would have one name the first, unless that name is taken. -/
def represented (taken : List String) : List TypeRef → List TypeRef
  | [] => []
  | m :: rest =>
      if m.propertyName ∈ taken then represented taken rest
      else m :: represented (m.propertyName :: taken) rest

/-- Every alternative that gets a property is one of those listed. -/
theorem mem_of_mem_represented (h : m ∈ represented taken members) :
    m ∈ members := by
  induction members generalizing taken with
  | nil => exact h
  | cons first rest ih =>
      rw [represented] at h
      split at h
      · exact List.mem_cons_of_mem _ (ih h)
      · rcases List.mem_cons.mp h with rfl | h
        · exact List.mem_cons_self
        · exact List.mem_cons_of_mem _ (ih h)

/-- No two properties have one name, and none has a name that is taken. -/
theorem names_represented (taken : List String) (members : List TypeRef) :
    (∀ m ∈ represented taken members, m.propertyName ∉ taken)
      ∧ ((represented taken members).map propertyName).Nodup := by
  induction members generalizing taken with
  | nil => exact ⟨fun m hm => absurd hm List.not_mem_nil, List.nodup_nil⟩
  | cons first rest ih =>
      rw [represented]
      split
      · exact ih taken
      next hfree =>
        obtain ⟨hfresh, hnodup⟩ := ih (first.propertyName :: taken)
        refine ⟨fun m hm => ?_, List.nodup_cons.mpr ⟨fun hmem => ?_, hnodup⟩⟩
        · rcases List.mem_cons.mp hm with rfl | hm
          · exact hfree
          · exact fun htaken => hfresh m hm (List.mem_cons_of_mem _ htaken)
        · obtain ⟨m, hm, hname⟩ := List.mem_map.mp hmem
          exact hfresh m hm (hname ▸ List.mem_cons_self)

/-- There is a property of the name of every alternative, unless the name is
    taken. -/
theorem exists_represented (hm : m ∈ members) (hfree : m.propertyName ∉ taken) :
    ∃ f ∈ represented taken members, f.propertyName = m.propertyName := by
  induction members generalizing taken with
  | nil => exact absurd hm List.not_mem_nil
  | cons first rest ih =>
      rw [represented]
      by_cases htaken : first.propertyName ∈ taken
      · rw [if_pos htaken]
        refine ih ((List.mem_cons.mp hm).resolve_left ?_) hfree
        rintro rfl
        exact hfree htaken
      · rw [if_neg htaken]
        by_cases hname : m.propertyName = first.propertyName
        · exact ⟨first, List.mem_cons_self, hname.symm⟩
        · have hrest : m ∈ rest := (List.mem_cons.mp hm).resolve_left fun heq =>
            hname (congrArg propertyName heq)
          have hfresh : m.propertyName ∉ first.propertyName :: taken :=
            fun hmem => (List.mem_cons.mp hmem).elim hname hfree
          obtain ⟨f, hf, heq⟩ := ih hrest hfresh
          exact ⟨f, List.mem_cons_of_mem _ hf, heq⟩

/-- Lowering the type `r` goes through the union `v`: it is `r`, which comes
    first, or within an alternative that gets a property. -/
inductive Lowers : TypeRef → TypeRef → Prop where
  | self {r : TypeRef} (hr : r.isUnion = true) : Lowers r r
  | within {r m v : TypeRef} (hm : m ∈ represented [] r.members) (h : Lowers m v) :
      Lowers r v

/-- Lowering goes through parts of the type. -/
theorem Lowers.occurs (h : Lowers r v) : Occurs v r := by
  induction h with
  | self => exact .self
  | within hm _ ih => exact .member (mem_of_mem_represented hm) ih

/-- Everything that is gone through can be made a wrapper of: it has a name, and
    so does every property, which is not that of a method. -/
def Lowerable (r : TypeRef) : Prop :=
  ∀ v, Lowers r v →
    v.name ≠ "" ∧ ∀ m ∈ represented [] v.members, m.propertyName ≠ ""
      ∧ m.propertyName ∉ wrapperMethods

/-- An alternative that gets a property can be lowered along with its union. -/
theorem Lowerable.of_mem_represented (h : Lowerable r)
    (hm : m ∈ represented [] r.members) : Lowerable m :=
  fun v hv => h v (.within hm hv)

/-- Members are smaller than their union; the recursion of the proofs is on
    this. -/
theorem sizeOf_lt_of_mem_members (hm : m ∈ r.members) : sizeOf m < sizeOf r := by
  obtain ⟨name, target, isNullable, isCollection⟩ := r
  cases target with
  | external => exact absurd hm List.not_mem_nil
  | declared id => exact absurd hm List.not_mem_nil
  | union ms =>
      have hlt := List.sizeOf_lt_of_mem hm
      show sizeOf m < sizeOf (TypeRef.mk name (.union ms) isNullable isCollection)
      rw [TypeRef.mk.sizeOf_spec, TypeTarget.union.sizeOf_spec]
      change sizeOf m < sizeOf ms at hlt
      omega

/-- Nothing that occurs in a type is larger. -/
theorem Occurs.sizeOf_le (h : Occurs v r) : sizeOf v ≤ sizeOf r := by
  induction h with
  | self => exact Nat.le_refl _
  | member hm _ ih =>
      exact Nat.le_trans ih (Nat.le_of_lt (sizeOf_lt_of_mem_members hm))

/-- No union within a type has that type as an alternative. -/
theorem not_mem_members_of_occurs (h : Occurs v m) : m ∉ v.members := by
  intro hm
  have hlt := sizeOf_lt_of_mem_members hm
  have hle := h.sizeOf_le
  omega

/-- Only unions have members. -/
theorem isUnion_of_mem_members (hm : m ∈ r.members) : r.isUnion = true := by
  obtain ⟨name, target, isNullable, isCollection⟩ := r
  cases target with
  | external => exact absurd hm List.not_mem_nil
  | declared id => exact absurd hm List.not_mem_nil
  | union ms => rfl

end TypeRef

namespace Tree

variable {t t' : Tree} {n : Nat} {scope x : ElementId} {w w' made : Wrappers}
  {r r' m v : TypeRef}
variable {site : WrapperSite} {P : TypeRef → Prop}

/-! ## Tables of wrappers -/

/-- What stands for a type in a scope: for a union a reference to the class that
    the table has for it, under the name of the class, and else the type
    itself. -/
inductive StandsFor (t : Tree) (w : Wrappers) (scope : ElementId) : TypeRef →
    TypeRef → Prop where
  | itself {m : TypeRef} (hm : m.isUnion = false) : StandsFor t w scope m m
  | wrapper {m : TypeRef} {x : ElementId} {name : String} (hm : m.isUnion = true)
      (hx : ((⟨scope, m.members⟩ : WrapperKey), x) ∈ w)
      (hname : t.name? x = some name) :
      StandsFor t w scope m ⟨name, .declared x, m.isNullable, m.isCollection⟩

/-- The property of a wrapper for an alternative: it may be absent, and none of
    the methods has its name. -/
def Slotted (t : Tree) (w : Wrappers) (scope : ElementId) (m : TypeRef)
    (q : String × TypeRef) : Prop :=
  q.1 = m.propertyName ∧ ∃ r, StandsFor t w scope m r ∧ q.2 = r.nullable

/-- A table of wrappers that were made from the place `n` on: one wrapper for a
    key, one key for a wrapper. Each has properties for the alternatives of its
    key, which have not the names of its methods. -/
structure Standing (n : Nat) (t : Tree) (w : Wrappers) : Prop where
  nodup_keys : (w.map (·.1)).Nodup
  nodup_ids : (w.map (·.2)).Nodup
  exists_properties : ∀ p ∈ w, ∃ properties, WrapperAt t n p.1 p.2 properties
    ∧ List.Forall₂ (Slotted t w p.1.scope) (TypeRef.represented [] p.1.members)
    properties ∧ ∀ q ∈ properties, q.1 ∉ wrapperMethods

/-- The empty table stands. -/
theorem standing_nil (n : Nat) (t : Tree) : Standing n t [] where
  nodup_keys := List.nodup_nil
  nodup_ids := List.nodup_nil
  exists_properties _ hp := absurd hp List.not_mem_nil

/-- What stands for a type still does after more wrappers were made, while
    wrappers keep their names. -/
theorem StandsFor.mono (hw : ∀ p ∈ w, p ∈ w')
    (hname : ∀ p ∈ w, ∀ name, t.name? p.2 = some name → t'.name? p.2 = some name)
    (h : StandsFor t w scope m r) : StandsFor t' w' scope m r := by
  cases h with
  | itself hm => exact .itself hm
  | wrapper hm hx hnamed => exact .wrapper hm (hw _ hx) (hname _ hx _ hnamed)

theorem Slotted.mono (hw : ∀ p ∈ w, p ∈ w')
    (hname : ∀ p ∈ w, ∀ name, t.name? p.2 = some name → t'.name? p.2 = some name)
    {q : String × TypeRef} (h : Slotted t w scope m q) :
    Slotted t' w' scope m q := by
  obtain ⟨hfirst, r, hr, hsecond⟩ := h
  exact ⟨hfirst, r, hr.mono hw hname, hsecond⟩

namespace Standing

/-- Every wrapper of the table is there. -/
theorem isSome (h : Standing n t w) {p : WrapperKey × ElementId} (hp : p ∈ w) :
    (t.get? p.2).isSome := by
  obtain ⟨properties, hwrapper, -⟩ := h.exists_properties p hp
  exact hwrapper.isSome

theorem index_le (h : Standing n t w) {p : WrapperKey × ElementId} (hp : p ∈ w) :
    n ≤ p.2.index := by
  obtain ⟨properties, hwrapper, -⟩ := h.exists_properties p hp
  exact hwrapper.index_le

/-- What is frozen keeps its name. -/
theorem name?_eq (h : Standing n t w) (hfrozen : Frozen n t t') :
    ∀ p ∈ w, ∀ name, t.name? p.2 = some name → t'.name? p.2 = some name := by
  intro p hp name hname
  obtain ⟨e, he, hname⟩ := Option.map_eq_some_iff.mp hname
  rw [name?, hfrozen p.2 e (h.index_le hp) he, Option.map_some, hname]

/-- A table stands while everything new is left alone. -/
theorem frozen (h : Standing n t w) (hfrozen : Frozen n t t') :
    Standing n t' w where
  nodup_keys := h.nodup_keys
  nodup_ids := h.nodup_ids
  exists_properties p hp := by
    obtain ⟨properties, hwrapper, hslots, hnames⟩ := h.exists_properties p hp
    refine ⟨properties, hwrapper.frozen hfrozen,
      hslots.imp fun m q hq => ?_, hnames⟩
    exact hq.mono (fun _ hmem => hmem) (h.name?_eq hfrozen)

/-- A key leads to one wrapper, and a wrapper comes of one key. -/
theorem eq_iff (h : Standing n t w) {p q : WrapperKey × ElementId} (hp : p ∈ w)
    (hq : q ∈ w) : p.1 = q.1 ↔ p.2 = q.2 := by
  constructor
  · intro heq
    exact congrArg Prod.snd (List.inj_on_of_nodup_map h.nodup_keys hp hq heq)
  · intro heq
    exact congrArg Prod.fst (List.inj_on_of_nodup_map h.nodup_ids hp hq heq)

/-- A wrapper joins the table, under a key that is not there. -/
theorem cons (h : Standing n t w) (hfrozen : Frozen n t t') {key : WrapperKey}
    {properties : List (String × TypeRef)} (hkey : key ∉ w.map (·.1))
    (hx : t.get? x = none) (hwrapper : WrapperAt t' n key x properties)
    (hslots : List.Forall₂ (Slotted t w key.scope)
      (TypeRef.represented [] key.members) properties)
    (hnames : ∀ q ∈ properties, q.1 ∉ wrapperMethods) :
    Standing n t' ((key, x) :: w) where
  nodup_keys := List.nodup_cons.mpr ⟨hkey, h.nodup_keys⟩
  nodup_ids := by
    refine List.nodup_cons.mpr ⟨fun hmem => ?_, h.nodup_ids⟩
    obtain ⟨p, hp, heq⟩ := List.mem_map.mp hmem
    exact ne_of_get?_eq_none hx (h.isSome hp) heq.symm
  exists_properties p hp := by
    have hmono : ∀ {scope m q}, Slotted t w scope m q →
        Slotted t' ((key, x) :: w) scope m q :=
      fun hq =>
        hq.mono (fun _ hmem => List.mem_cons_of_mem _ hmem) (h.name?_eq hfrozen)
    rcases List.mem_cons.mp hp with rfl | hp
    · exact ⟨properties, hwrapper, hslots.imp fun m q hq => hmono hq, hnames⟩
    · obtain ⟨properties', hwrapper', hslots', hnames'⟩ := h.exists_properties p hp
      exact ⟨properties', hwrapper'.frozen hfrozen,
        hslots'.imp fun m q hq => hmono hq, hnames'⟩

/-- Whatever is gone through in a union of the table is in the table. -/
theorem exists_of_lowers (h : Standing n t w) (hv : TypeRef.Lowers r v) :
    ∀ {x}, ((⟨scope, r.members⟩ : WrapperKey), x) ∈ w →
      ∃ y, ((⟨scope, v.members⟩ : WrapperKey), y) ∈ w := by
  induction hv with
  | self => exact fun hx => ⟨_, hx⟩
  | @within r m v hm hmv ih =>
      intro x hx
      obtain ⟨properties, -, hslots, -⟩ := h.exists_properties _ hx
      obtain ⟨q, -, -, s, hs, -⟩ := exists_rel_of_mem hslots.flip hm
      cases hs with
      | itself hnot =>
          -- Nothing is gone through in what is no union.
          cases hmv with
          | self hunion => rw [hnot] at hunion; cases hunion
          | within hinner _ =>
              have hunion := TypeRef.isUnion_of_mem_members
                (TypeRef.mem_of_mem_represented hinner)
              rw [hnot] at hunion
              cases hunion
      | wrapper _ hy _ => exact ih hy

end Standing

/-! ## Lowering a union -/

/-- Wrappers have been made in a scope, for unions that `P` holds of: the scope
    holds them, in the order in which they were made, the table has them, and
    nothing else is different. -/
structure Added (scope : ElementId) (P : TypeRef → Prop) (t t' : Tree)
    (w w' made : Wrappers) : Prop where
  eq_append : w' = made ++ w
  extended : Extended t t' scope (made.map (·.2)).reverse
  of_made : ∀ p ∈ made, p.1.scope = scope ∧ ∃ v, P v ∧ p.1.members = v.members

/-- With no wrappers nothing has been added. -/
theorem added_refl (hwl : WellLinked t) (scope : ElementId) (P : TypeRef → Prop)
    (w : Wrappers) : Added scope P t t w w [] where
  eq_append := rfl
  extended := extended_refl hwl scope
  of_made _ hp := absurd hp List.not_mem_nil

/-- Wrappers for fewer unions are wrappers for more. -/
theorem Added.imp {Q : TypeRef → Prop} (hPQ : ∀ v, P v → Q v)
    (h : Added scope P t t' w w' made) : Added scope Q t t' w w' made where
  eq_append := h.eq_append
  extended := h.extended
  of_made p hp := by
    obtain ⟨hscope, v, hv, hmembers⟩ := h.of_made p hp
    exact ⟨hscope, v, hPQ v hv, hmembers⟩

/-- Wrappers of two turns come one after another, the later first in the
    table. -/
theorem Added.trans {s : Tree} {w₁ made₁ : Wrappers}
    (h : Added scope P t s w w₁ made) (h' : Added scope P s t' w₁ w' made₁) :
    Added scope P t t' w w' (made₁ ++ made) where
  eq_append := by rw [h'.eq_append, h.eq_append, List.append_assoc]
  extended := by
    rw [List.map_append, List.reverse_append]
    exact h.extended.trans h'.extended
  of_made p hp := (List.mem_append.mp hp).elim (h'.of_made p) (h.of_made p)

/-- One more wrapper. -/
theorem Added.cons {s : Tree} {w₁ : Wrappers} (h : Added scope P t s w w₁ made)
    (hx : Extended s t' scope [x]) (hv : P v) :
    Added scope P t t' w
      ((⟨scope, v.members⟩, x) :: w₁) ((⟨scope, v.members⟩, x) :: made) where
  eq_append := by rw [h.eq_append, List.cons_append]
  extended := by
    rw [List.map_cons, List.reverse_cons]
    exact h.extended.trans hx
  of_made p hp := by
    rcases List.mem_cons.mp hp with rfl | hp
    · exact ⟨rfl, v, hv, rfl⟩
    · exact h.of_made p hp

/-- The table only grows. -/
theorem Added.subset (h : Added scope P t t' w w' made) : ∀ p ∈ w, p ∈ w' := by
  intro p hp
  rw [h.eq_append]
  exact List.mem_append_right _ hp

theorem Added.size_le (h : Added scope P t t' w w' made) : t.size ≤ t'.size :=
  h.extended.size_le

/-- The alternatives of a union are lowered before it, and the union is none of
    what is gone through in them. -/
theorem Added.key_not_mem {members : List TypeRef} (h : Added scope (fun v =>
      ∃ m ∈ TypeRef.represented [] members, TypeRef.Lowers m v) t t' w w' made)
    (hkey : w.lookup ⟨scope, members⟩ = none) :
    (⟨scope, members⟩ : WrapperKey) ∉ w'.map (·.1) := by
  intro hmem
  obtain ⟨p, hp, heq⟩ := List.mem_map.mp hmem
  rw [h.eq_append] at hp
  rcases List.mem_append.mp hp with hp | hp
  · obtain ⟨-, v, ⟨m, hm, hv⟩, hmembers⟩ := h.of_made p hp
    rw [heq] at hmembers
    exact TypeRef.not_mem_members_of_occurs hv.occurs
      (hmembers ▸ TypeRef.mem_of_mem_represented hm)
  · have hne := List.lookup_eq_none_iff.mp hkey p hp
    rw [heq] at hne
    simp at hne

/-- What is looked up is in the table. -/
theorem mem_of_lookup {key : WrapperKey} (h : w.lookup key = some x) :
    (key, x) ∈ w := by
  obtain ⟨before, after, heq, -⟩ := List.lookup_eq_some_iff.mp h
  rw [heq]
  exact List.mem_append_right _ List.mem_cons_self

/-- A union is given a reference to its wrapper. -/
theorem standsFor_of_referTo {name : String} {members : List TypeRef}
    {isNullable isCollection : Bool} (hx : ((⟨scope, members⟩ : WrapperKey), x) ∈ w)
    (hrun : (Edit.referTo x isNullable isCollection w).run t = .ok (r', w') t') :
    t' = t ∧ w' = w ∧ StandsFor t w scope
      ⟨name, .union members, isNullable, isCollection⟩ r' := by
  obtain ⟨e, t₁, helement, hpure⟩ := Edit.run_bind_eq_ok_iff.mp hrun
  obtain ⟨he, rfl⟩ := Edit.run_element_eq_ok_iff.mp helement
  obtain ⟨heq, rfl⟩ := Edit.run_pure_eq_ok_iff.mp hpure
  obtain ⟨rfl, rfl⟩ := Prod.mk.inj heq
  refine ⟨rfl, rfl, .wrapper rfl hx ?_⟩
  rw [name?, he]
  rfl

mutual

/-- Lowering a type makes the wrappers that are missing, and what comes of it
    stands for the type. -/
theorem stands_of_standIn {site : WrapperSite} {n : Nat}
    (hscope : site.scope.index < n) :
    ∀ (r : TypeRef) (w : Wrappers) {t t' : Tree} {r' : TypeRef} {w' : Wrappers},
      WellLinked t → n ≤ t.size →
      Standing n t w → (Edit.standIn site w r).run t = .ok (r', w') t' →
      ∃ made, Added site.scope (TypeRef.Lowers r) t t' w w' made ∧ Standing n t' w'
        ∧ StandsFor t' w' site.scope r r'
  | ⟨name, .external, isNullable, isCollection⟩, w, t, t', r', w', hwl, _,
      hw, hrun =>
      by
      obtain ⟨heq, rfl⟩ := Edit.run_pure_eq_ok_iff.mp hrun
      obtain ⟨rfl, rfl⟩ := Prod.mk.inj heq
      exact ⟨[], added_refl hwl _ _ _, hw, .itself rfl⟩
  | ⟨name, .declared id, isNullable, isCollection⟩, w, t, t', r', w', hwl, _,
      hw, hrun =>
      by
      obtain ⟨heq, rfl⟩ := Edit.run_pure_eq_ok_iff.mp hrun
      obtain ⟨rfl, rfl⟩ := Prod.mk.inj heq
      exact ⟨[], added_refl hwl _ _ _, hw, .itself rfl⟩
  | ⟨name, .union members, isNullable, isCollection⟩, w, t, t', r', w', hwl, hn,
      hw, hrun =>
      by
      rw [Edit.standIn] at hrun
      dsimp only at hrun
      cases hl : List.lookup (⟨site.scope, members⟩ : WrapperKey) w with
      | some wrapper =>
          rw [hl] at hrun
          obtain ⟨_, t₁, hpure, hrefer⟩ := Edit.run_bind_eq_ok_iff.mp hrun
          obtain ⟨rfl, rfl⟩ := Edit.run_pure_eq_ok_iff.mp hpure
          obtain ⟨rfl, rfl, hstands⟩ :=
            standsFor_of_referTo (mem_of_lookup hl) hrefer
          exact ⟨[], added_refl hwl _ _ _, hw, hstands⟩
      | none =>
          rw [hl] at hrun
          obtain ⟨⟨properties, w₁⟩, t₁, halternatives, hrest⟩ :=
            Edit.run_bind_eq_ok_iff.mp hrun
          obtain ⟨wrapper, t₂, hcreate, hrest₂⟩ := Edit.run_bind_eq_ok_iff.mp hrest
          obtain ⟨_, t₃, hpure, hrefer⟩ := Edit.run_bind_eq_ok_iff.mp hrest₂
          obtain ⟨rfl, rfl⟩ := Edit.run_pure_eq_ok_iff.mp hpure
          obtain ⟨made, hadded, hw₁, hslots⟩ :=
            stands_of_alternatives hscope members w [] hwl hn hw halternatives
          have hn₁ : n ≤ t₁.size := Nat.le_trans hn hadded.size_le
          have hsome : (t₁.get? site.scope).isSome :=
            (get?_isSome_iff t₁ site.scope).mpr (Nat.lt_of_lt_of_le hscope hn₁)
          obtain ⟨rfl, hextended, hwrapper, hnames⟩ :=
            wrapper_of_createWrapper hadded.extended.wellLinked hsome hcreate
          have hw₂ := hw₁.cons (hextended.frozen hscope) (hadded.key_not_mem hl)
            (get?_nextId t₁) (hwrapper.mono hn₁)
            hslots hnames
          obtain ⟨rfl, rfl, hstands⟩ :=
            standsFor_of_referTo List.mem_cons_self hrefer
          have hall : ∀ v,
              (∃ m ∈ TypeRef.represented [] members, TypeRef.Lowers m v) →
              TypeRef.Lowers ⟨name, .union members, isNullable, isCollection⟩ v :=
                by
            rintro v ⟨m, hm, hmv⟩
            exact .within hm hmv
          exact ⟨_, (hadded.imp hall).cons hextended (.self rfl), hw₂, hstands⟩

/-- The alternatives of a union get their properties one after another. By
    recursion over the members, along with the theorem for one type, whose turn
    each of them is. -/
theorem stands_of_alternatives {site : WrapperSite} {n : Nat}
    (hscope : site.scope.index < n) :
    ∀ (members : List TypeRef) (w : Wrappers) (taken : List String) {t t' : Tree}
      {properties : List (String × TypeRef)} {w' : Wrappers}, WellLinked t →
        n ≤ t.size → Standing n t w →
      (Edit.alternatives site w taken members).run t = .ok (properties, w') t' →
      ∃ made, Added site.scope (fun v =>
        ∃ m ∈ TypeRef.represented taken members, TypeRef.Lowers m v) t t' w w' made
        ∧ Standing n t' w'
        ∧ List.Forall₂ (Slotted t' w' site.scope)
          (TypeRef.represented taken members) properties
  | [], w, taken, t, t', properties, w', hwl, _, hw, hrun => by
      obtain ⟨heq, rfl⟩ := Edit.run_pure_eq_ok_iff.mp hrun
      obtain ⟨rfl, rfl⟩ := Prod.mk.inj heq
      exact ⟨[], added_refl hwl _ _ _, hw, .nil⟩
  | member :: rest, w, taken, t, t', properties, w', hwl, hn, hw, hrun => by
      rw [Edit.alternatives] at hrun
      dsimp only at hrun
      rw [TypeRef.represented]
      split at hrun
      next htaken =>
        have htaken' : member.propertyName ∈ taken := htaken
        rw [if_pos htaken']
        exact stands_of_alternatives hscope rest w taken hwl hn hw hrun
      next hfree =>
        have hfree' : member.propertyName ∉ taken := hfree
        rw [if_neg hfree']
        obtain ⟨⟨type, w₁⟩, t₁, hfirst, hrun₂⟩ := Edit.run_bind_eq_ok_iff.mp hrun
        obtain ⟨⟨properties', w₂⟩, t₂, halternatives, hpure⟩ :=
          Edit.run_bind_eq_ok_iff.mp hrun₂
        obtain ⟨heq, rfl⟩ := Edit.run_pure_eq_ok_iff.mp hpure
        obtain ⟨rfl, rfl⟩ := Prod.mk.inj heq
        obtain ⟨made₁, hadded₁, hw₁, hstands⟩ :=
          stands_of_standIn hscope member w hwl hn hw hfirst
        obtain ⟨made₂, hadded₂, hw₂, hslots⟩ :=
          stands_of_alternatives hscope rest w₁ (member.propertyName :: taken)
          hadded₁.extended.wellLinked (Nat.le_trans hn hadded₁.size_le) hw₁
            halternatives
        refine ⟨made₂ ++ made₁, (hadded₁.imp fun v hv => ?_).trans
          (hadded₂.imp fun v hv => ?_), hw₂, .cons ?_ hslots⟩
        · exact ⟨member, List.mem_cons_self, hv⟩
        · obtain ⟨m, hm, hmv⟩ := hv
          exact ⟨m, List.mem_cons_of_mem _ hm, hmv⟩
        · refine ⟨rfl, type, ?_, rfl⟩
          exact hstands.mono hadded₂.subset
            (hw₁.name?_eq (hadded₂.extended.frozen hscope))

end

/-! ## Unions that can be lowered -/

/-- The properties are named by their alternatives. -/
theorem names_of_slotted {members : List TypeRef}
    {properties : List (String × TypeRef)}
    (h : List.Forall₂ (Slotted t w scope) members properties) :
    properties.map (·.1) = members.map TypeRef.propertyName := by
  induction h with
  | nil => rfl
  | cons hq _ ih => rw [List.map_cons, List.map_cons, hq.1, ih]

/-- To refer to what is there succeeds. -/
theorem succeeds_referTo {isNullable isCollection : Bool} (hx : (t.get? x).isSome) :
    Edit.Succeeds (Edit.referTo x isNullable isCollection w) t fun _ _ => True := by
  obtain ⟨e, he⟩ := Option.isSome_iff_exists.mp hx
  exact (Edit.succeeds_element (Q := fun _ _ => True) he trivial).bind fun _ _ _ =>
    Edit.succeeds_pure trivial

mutual

/-- A type can be lowered when everything that is gone through can be made a
    wrapper of. -/
theorem succeeds_standIn {site : WrapperSite} {n : Nat}
    (hscope : site.scope.index < n) (hslot : site.slot.memberKind = .classDecl) :
    ∀ (r : TypeRef) (w : Wrappers) {t : Tree}, WellLinked t → n ≤ t.size →
      Standing n t w →
      t.kind? site.scope = some site.slot.holderKind → r.Lowerable →
      Edit.Succeeds (Edit.standIn site w r) t fun _ _ => True
  | ⟨name, .external, isNullable, isCollection⟩, w, t, _, _, _, _, _ =>
      Edit.succeeds_pure trivial
  | ⟨name, .declared id, isNullable, isCollection⟩, w, t, _, _, _, _, _ =>
      Edit.succeeds_pure trivial
  | ⟨name, .union members, isNullable, isCollection⟩, w, t, hwl, hn, hw,
      hkind, hr =>
      by
      rw [Edit.standIn]
      dsimp only
      cases hl : List.lookup (⟨site.scope, members⟩ : WrapperKey) w with
      | some wrapper =>
          have hsome : (t.get? wrapper).isSome := hw.isSome (mem_of_lookup hl)
          refine (Edit.succeeds_pure (Q := fun p s => p = (wrapper, w) ∧ s = t)
            ⟨rfl, rfl⟩).bind ?_
          rintro _ _ ⟨rfl, rfl⟩
          exact succeeds_referTo hsome
      | none =>
          obtain ⟨hname, hmembers⟩ := hr _ (.self rfl)
          have halternatives :=
            succeeds_alternatives hscope hslot members w [] hwl hn hw hkind
            fun m hm => hr.of_mem_represented hm
          refine (halternatives.mono fun _ _ hrun _ => hrun).bind ?_
          rintro ⟨properties, w₁⟩ t₁ hrun
          obtain ⟨made, hadded, hw₁, hslots⟩ :=
            stands_of_alternatives hscope members w [] hwl hn hw hrun
          have hsome : (t.get? site.scope).isSome :=
            (get?_isSome_iff t site.scope).mpr (Nat.lt_of_lt_of_le hscope hn)
          have hnames := names_of_slotted hslots
          have hcreate :
              Edit.Succeeds (Edit.createWrapper site name members properties) t₁
              fun _ _ => True := by
            refine succeeds_createWrapper hadded.extended.wellLinked
              ((hadded.extended.kind?_eq hsome).trans hkind)
              hslot hname (fun q hq => ?_) ?_
            · obtain ⟨m, hm, hqname⟩ :=
                List.mem_map.mp (hnames ▸ List.mem_map_of_mem hq)
              rw [← hqname]
              exact hmembers m hm
            · rw [hnames]
              exact (TypeRef.names_represented [] members).2
          refine (hcreate.mono fun _ _ hrun _ => hrun).bind
            fun wrapper t₂ hrun₂ => ?_
          have hsome₁ : (t₁.get? site.scope).isSome :=
            (get?_isSome_iff t₁ site.scope).mpr
              (Nat.lt_of_lt_of_le hscope (Nat.le_trans hn hadded.size_le))
          obtain ⟨rfl, -, hwrapper, -⟩ :=
            wrapper_of_createWrapper hadded.extended.wellLinked hsome₁ hrun₂
          refine (Edit.succeeds_pure (Q := fun p s => p.1 = t₁.nextId ∧ s = t₂)
            ⟨rfl, rfl⟩).bind ?_
          rintro ⟨_, w₂⟩ _ ⟨rfl, rfl⟩
          exact succeeds_referTo hwrapper.isSome

/-- Alternatives can be lowered one after another if each of them can. The
    recursion is that of the theorem for one type. -/
theorem succeeds_alternatives {site : WrapperSite} {n : Nat}
    (hscope : site.scope.index < n) (hslot : site.slot.memberKind = .classDecl) :
    ∀ (members : List TypeRef) (w : Wrappers) (taken : List String) {t : Tree},
      WellLinked t → n ≤ t.size →
      Standing n t w → t.kind? site.scope = some site.slot.holderKind →
      (∀ m ∈ TypeRef.represented taken members, m.Lowerable) →
      Edit.Succeeds (Edit.alternatives site w taken members) t fun _ _ => True
  | [], w, taken, t, _, _, _, _, _ => Edit.succeeds_pure trivial
  | member :: rest, w, taken, t, hwl, hn, hw, hkind, hmembers => by
      rw [Edit.alternatives]
      dsimp only
      rw [TypeRef.represented] at hmembers
      split
      next htaken =>
        have htaken' : member.propertyName ∈ taken := htaken
        rw [if_pos htaken'] at hmembers
        exact succeeds_alternatives hscope hslot rest w taken hwl hn hw
          hkind hmembers
      next hfree =>
        have hfree' : member.propertyName ∉ taken := hfree
        rw [if_neg hfree'] at hmembers
        have hfirst := succeeds_standIn hscope hslot member w hwl hn hw hkind
          (hmembers member List.mem_cons_self)
        refine (hfirst.mono fun _ _ hrun _ => hrun).bind ?_
        rintro ⟨type, w₁⟩ t₁ hrun
        obtain ⟨made, hadded, hw₁, -⟩ :=
          stands_of_standIn hscope member w hwl hn hw hrun
        have hsome : (t.get? site.scope).isSome :=
          (get?_isSome_iff t site.scope).mpr (Nat.lt_of_lt_of_le hscope hn)
        have hrest :=
          succeeds_alternatives hscope hslot rest w₁ (member.propertyName :: taken)
          hadded.extended.wellLinked (Nat.le_trans hn hadded.size_le) hw₁
            ((hadded.extended.kind?_eq hsome).trans hkind)
          fun m hm => hmembers m (List.mem_cons_of_mem _ hm)
        exact hrest.bind fun _ _ _ => Edit.succeeds_pure trivial

end

end Tree

end CodeModel
