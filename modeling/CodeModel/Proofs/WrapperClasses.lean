import CodeModel.Proofs.NewMembers
import CodeModel.Proofs.WrapperNames

/-!
# Making a wrapper class

A wrapper is made beside the tree and joins its scope last. Until then nothing
of the tree is touched, and then the scope alone is: it holds one class more.

* **`WrapperAt`**: what a wrapper is made of.
* **`created_of_mapM`**, **`finished_of_run`**: the properties, and what comes
  after them.

Main statements: `wrapper_of_createWrapper`, what there is once a wrapper was
made, and `succeeds_createWrapper`, a wrapper can be made when its properties
have names, no two the same, and none the name of one of its methods.
-/

namespace CodeModel

open CodeModel.Tree

/-- The names of the methods of a wrapper. -/
def wrapperMethods : List String :=
  ["serialize", "getFieldDeserializers"]

namespace Tree

variable {t s t' : Tree} {x : ElementId} {site : WrapperSite}
  {name unionName : String} {members : List TypeRef}
variable {properties : List (String × TypeRef)} {ids : List ElementId} {n : Nat}

/-- Class `x` is the wrapper of a key: a model in the scope of the key, which
    holds one property for each entry of `properties` and then some methods. All
    of it was made from the place `n` on. -/
structure WrapperAt (t : Tree) (n : Nat) (key : WrapperKey) (x : ElementId)
    (properties : List (String × TypeRef)) : Prop where
  index_le : n ≤ x.index
  exists_class : ∃ name ids methods, t.get? x
    = some (((wrapperClass name key.members).under key.scope).gain (ids ++ methods))
    ∧ List.Forall₂ (fun p i => n ≤ i.index
    ∧ t.get? i = some ((wrapperProperty p.1 p.2).under x)) properties ids
    ∧ ∀ m ∈ methods, n ≤ m.index ∧ t.kind? m = some .method

/-- Everything from the place `n` on is as it was. -/
def Frozen (n : Nat) (t t' : Tree) : Prop :=
  ∀ x e, n ≤ x.index → t.get? x = some e → t'.get? x = some e

/-- What is frozen twice is frozen. -/
theorem Frozen.trans (h : Frozen n t s) (h' : Frozen n s t') : Frozen n t t' :=
  fun x e hx he => h' x e hx (h x e hx he)

/-- Members for what was there before leave the rest frozen. -/
theorem Extended.frozen {new : List ElementId} (h : Extended t t' x new)
    (hx : x.index < n) : Frozen n t t' := by
  intro y e hy he
  refine h.get?_other y e he ?_
  rintro rfl
  exact absurd hx (Nat.not_lt.mpr hy)

/-- What is frozen keeps its kind. -/
theorem Frozen.kind?_eq (h : Frozen n t t') {k : NodeKind} (hx : n ≤ x.index)
    (hk : t.kind? x = some k) : t'.kind? x = some k := by
  obtain ⟨e, he, hk⟩ := kind?_eq_some_iff.mp hk
  exact kind?_eq_some_iff.mpr ⟨e, h x e hx he, hk⟩

namespace WrapperAt

variable {key : WrapperKey}

/-- A wrapper is there. -/
theorem isSome (h : WrapperAt t n key x properties) : (t.get? x).isSome := by
  obtain ⟨name, ids, methods, hx, -⟩ := h.exists_class
  exact Option.isSome_of_eq_some hx

/-- Its scope holds it. -/
theorem parent?_eq (h : WrapperAt t n key x properties) :
    t.parent? x = some key.scope := by
  obtain ⟨name, ids, methods, hx, -⟩ := h.exists_class
  rw [parent?, hx]
  rfl

/-- What was made from a later place on was made from an earlier one on. -/
theorem mono {m : Nat} (hm : m ≤ n) (h : WrapperAt t n key x properties) :
    WrapperAt t m key x properties := by
  obtain ⟨name, ids, methods, hx, hproperties, hmethods⟩ := h.exists_class
  refine ⟨Nat.le_trans hm h.index_le, name, ids, methods, hx, ?_, ?_⟩
  · exact hproperties.imp fun p i hp => ⟨Nat.le_trans hm hp.1, hp.2⟩
  · exact fun method hmethod =>
      ⟨Nat.le_trans hm (hmethods method hmethod).1, (hmethods method hmethod).2⟩

/-- A wrapper stays what it is while everything new is left alone. -/
theorem frozen (hfrozen : Frozen n t t') (h : WrapperAt t n key x properties) :
    WrapperAt t' n key x properties := by
  obtain ⟨name, ids, methods, hx, hproperties, hmethods⟩ := h.exists_class
  refine ⟨h.index_le, name, ids, methods, hfrozen x _ h.index_le hx, ?_, ?_⟩
  · exact hproperties.imp fun p i hp => ⟨hp.1, hfrozen i _ hp.1 hp.2⟩
  · intro method hmethod
    obtain ⟨hle, hkind⟩ := hmethods method hmethod
    exact ⟨hle, hfrozen.kind?_eq hle hkind⟩

end WrapperAt

/-! ## The properties -/

/-- Whatever is in the second of two related lists is related to something in
    the first. -/
theorem exists_rel_of_mem {α β : Type} {R : α → β → Prop} {as : List α}
    {bs : List β} (h : List.Forall₂ R as bs) {b : β} (hb : b ∈ bs) :
    ∃ a ∈ as, R a b := by
  induction h with
  | nil => exact absurd hb List.not_mem_nil
  | @cons a b' as bs hab _ ih =>
      rcases List.mem_cons.mp hb with rfl | hb
      · exact ⟨a, List.mem_cons_self, hab⟩
      · obtain ⟨a', ha', hrel⟩ := ih hb
        exact ⟨a', List.mem_cons_of_mem _ ha', hrel⟩

/-- The properties of a wrapper are made one by one, and nobody holds them yet. -/
theorem created_of_mapM (hwl : WellLinked t) (y : ElementId)
    (hrun : (properties.mapM fun p => Edit.create (wrapperProperty p.1 p.2)).run
      t = .ok ids s) :
    Extended t s y [] ∧ List.Forall₂
      (fun p i => t.get? i = none ∧ s.get? i = some (wrapperProperty p.1 p.2))
      properties ids := by
  obtain ⟨hlength, hextended, hnew⟩ := Edit.mapM_zip_induction
    (I := fun done s => Extended t s y []
      ∧ ∀ q ∈ done, t.get? q.2 = none
        ∧ s.get? q.2 = some (wrapperProperty q.1.1 q.1.2))
    (fun done s p i s' _ => by
      rintro ⟨hs, hdone⟩ hcreate
      obtain ⟨-, rfl, rfl⟩ := Edit.run_create_eq_ok hcreate
      have htoken : (wrapperProperty p.1 p.2).TokenFits :=
        Element.tokenFits_of_kind_ne fun hkind => NodeKind.noConfusion hkind
      refine ⟨hs.trans (extended_push hs.wellLinked htoken y), fun q hq => ?_⟩
      rcases List.mem_append.mp hq with hq | hq
      · exact ⟨(hdone q hq).1, get?_push_of_get? (hdone q hq).2⟩
      · rw [List.mem_singleton.mp hq]
        exact ⟨get?_eq_none_of_size_le hs.size_le, get?_push_nextId⟩)
    ⟨extended_refl hwl y, fun q hq => absurd hq List.not_mem_nil⟩ hrun
  exact ⟨hextended, List.forall₂_iff_zip.mpr ⟨hlength.symm, fun hq => hnew _ hq⟩⟩

/-- The properties of a wrapper join it. -/
theorem filled_of_attach (hx : (t.get? x).isSome) (h : Extended t s x [])
    (hids : List.Forall₂ (fun p i =>
      t.get? i = none ∧ s.get? i = some (wrapperProperty p.1 p.2)) properties ids)
    (hfit : Insertable s .properties x ids) :
    Extended t (s.attach x ids) x ids ∧ List.Forall₂ (fun p i => t.get? i = none
      ∧ (s.attach x ids).get? i = some ((wrapperProperty p.1 p.2).under x))
        properties ids := by
  have hnew : ∀ i ∈ ids, t.get? i = none := by
    intro i hi
    obtain ⟨p, -, hp⟩ := exists_rel_of_mem hids hi
    exact hp.1
  refine ⟨h.attach hx hnew hfit,
    List.forall₂_iff_zip.mpr ⟨hids.length_eq, fun {p i} hq => ?_⟩⟩
  obtain ⟨hnone, hsome⟩ := (List.forall₂_iff_zip.mp hids).2 hq
  refine ⟨hnone, ?_⟩
  rw [(changedBy_attach s x ids).get?_eq, hsome, Option.map_some, linkUp,
    if_pos (List.of_mem_zip hq).2, if_neg (ne_of_get?_eq_none hnone hx)]
  rfl

/-! ## What comes after the properties -/

/-- A property shares its name with a method only when the method is what became
    of an indexer. -/
theorem kind_of_coexist {sameSignature : Bool} {p : PropertyDecl} {m : MethodDecl}
    (h : Content.coexist sameSignature (.property p) (.method m) = true) :
    m.kind = .indexerBackwardCompatibility :=
  (of_decide_eq_true h).2

/-- A class gets its two methods, whose names are not those of its properties,
    and joins its scope. -/
theorem finished_of_run {wrapper : ElementId} (hwl : WellLinked t)
    (hx : (t.get? x).isSome)
    (hrun : (Edit.finishWrapper site name x).run t = .ok wrapper t') :
    wrapper = x ∧ ∃ s methods, Extended t s x methods
      ∧ Insertable s site.slot site.scope [x]
      ∧ t' = s.attach site.scope [x]
      ∧ (∀ m ∈ methods, t.get? m = none ∧ s.kind? m = some .method)
      ∧ ∀ c ec p, c ∈ t.children x → t.get? c = some ec → ec.content = .property p →
        ec.name ∉ wrapperMethods := by
  obtain ⟨serializer, t₁, hserializer, hrest⟩ := Edit.run_bind_eq_ok_iff.mp hrun
  obtain ⟨_, t₂, hwriter, hrest₂⟩ := Edit.run_bind_eq_ok_iff.mp hrest
  obtain ⟨_, t₃, hdeserializer, hrest₃⟩ := Edit.run_bind_eq_ok_iff.mp hrest₂
  obtain ⟨_, t₄, hadd, hpure⟩ := Edit.run_bind_eq_ok_iff.mp hrest₃
  obtain ⟨_, hwriter⟩ := Edit.run_discard_eq_ok_iff.mp hwriter
  obtain ⟨deserializer, hdeserializer⟩ :=
    Edit.run_discard_eq_ok_iff.mp hdeserializer
  obtain ⟨rfl, rfl⟩ := Edit.run_pure_eq_ok_iff.mp hpure
  have hmethod : NodeKind.method ≠ .classDecl := by decide
  have hparameter : NodeKind.parameter ≠ .classDecl := by decide
  obtain ⟨rfl, hext₁, hget₁, hnames₁⟩ :=
    extended_of_addNew hwl
      (Element.tokenFits_of_kind_ne (e := wrapperSerializer) hmethod) hserializer
  obtain ⟨-, hext₂, -, -⟩ :=
    extended_of_addNew hext₁.wellLinked
      (Element.tokenFits_of_kind_ne (e := wrapperWriter) hparameter) hwriter
  -- The parameter of the first method is none of the members of the class.
  have hext : Extended t t₂ x [t.nextId] := hext₁.trans_new hext₂ (get?_nextId t)
  obtain ⟨rfl, hext₃, hget₃, hnames₃⟩ :=
    extended_of_addNew hext.wellLinked
      (Element.tokenFits_of_kind_ne (e := wrapperDeserializer name) hmethod)
      hdeserializer
  obtain ⟨hfit, rfl⟩ :=
    insertable_of_insert hext₃.wellLinked (Edit.run_add_eq_ok_iff.mp hadd)
  refine ⟨rfl, t₃, [t.nextId] ++ [t₂.nextId], hext.trans hext₃, hfit, rfl,
    fun m hm => ?_, ?_⟩
  · rcases List.mem_append.mp hm with hm | hm
    · rw [List.mem_singleton.mp hm]
      have hsome₁ : (t₁.get? t.nextId).isSome := Option.isSome_of_eq_some hget₁
      have hkind₁ : t₁.kind? t.nextId = some .method :=
        kind?_eq_some_iff.mpr ⟨_, hget₁, rfl⟩
      have hkind₂ : t₂.kind? t.nextId = some .method :=
        (hext₂.kind?_eq hsome₁).trans hkind₁
      exact ⟨get?_nextId t, (hext₃.kind?_eq (isSome_of_kind? hkind₂)).trans hkind₂⟩
    · rw [List.mem_singleton.mp hm]
      exact ⟨get?_eq_none_of_size_le hext.size_le,
        kind?_eq_some_iff.mpr ⟨_, hget₃, rfl⟩⟩
  · intro c ec p hc hec hcontent htaken
    rcases List.mem_cons.mp htaken with hname | htaken
    · obtain ⟨sameSignature, hcoexist⟩ := hnames₁ c ec hc hec hname
      rw [hcontent] at hcoexist
      exact MethodKind.noConfusion (kind_of_coexist hcoexist)
    · obtain ⟨more, hec₂⟩ := hext.exists_gain hec
      have hc₂ : c ∈ t₂.children x := by
        rw [hext.children_self hx]
        exact List.mem_append_left _ hc
      obtain ⟨sameSignature, hcoexist⟩ :=
        hnames₃ c _ hc₂ hec₂ (List.mem_singleton.mp htaken)
      have hcontent₂ : (ec.gain more).content = .property p := hcontent
      rw [hcontent₂] at hcoexist
      exact MethodKind.noConfusion (kind_of_coexist hcoexist)

/-! ## The whole wrapper -/

/-- The header of a wrapper shows its name. -/
theorem tokenFits_wrapperClass (name : String) (members : List TypeRef) :
    (wrapperClass name members).TokenFits :=
  fun _ hc => Option.some.inj hc ▸ rfl

/-- A class that holds its properties is finished and joins its scope: it is a
    wrapper. -/
theorem wrapper_of_finishWrapper {t₁ t₂ : Tree} {wrapper : ElementId}
    (hscope : (t.get? site.scope).isSome) (h₁ : Extended t t₁ site.scope [])
    (hx : t.get? x = none) (hclass : t₁.get? x = some (wrapperClass name members))
    (h₂ : Extended t₁ t₂ x ids) (hids : List.Forall₂ (fun p i => t₁.get? i = none
      ∧ t₂.get? i = some ((wrapperProperty p.1 p.2).under x)) properties ids)
    (hrun : (Edit.finishWrapper site name x).run t₂ = .ok wrapper t') :
    wrapper = x ∧ Extended t t' site.scope [x]
      ∧ WrapperAt t' t.size ⟨site.scope, members⟩ x properties
      ∧ ∀ p ∈ properties, p.1 ∉ wrapperMethods := by
  have hx₁ : (t₁.get? x).isSome := Option.isSome_of_eq_some hclass
  have hget₂ : t₂.get? x = some ((wrapperClass name members).gain ids) :=
    h₂.get?_self _ hclass
  obtain ⟨rfl, s, methods, h₃, hfit, rfl, hmethods, hnames⟩ :=
    finished_of_run h₂.wellLinked (Option.isSome_of_eq_some hget₂) hrun
  -- What joined the class before is nothing to the tree that was there.
  have hold : Extended t s site.scope [] := h₁.trans_new (h₂.trans h₃) hx
  have hnone : ∀ c ∈ [wrapper], t.get? c = none := fun c hc =>
    List.mem_singleton.mp hc ▸ hx
  have hne : wrapper ≠ site.scope := ne_of_get?_eq_none hx hscope
  have hlinked : ∀ y, y ≠ wrapper → y ≠ site.scope →
      (s.attach site.scope [wrapper]).get? y = s.get? y := by
    intro y hy hys
    rw [(changedBy_attach s site.scope [wrapper]).get?_eq]
    cases s.get? y with
    | none => rfl
    | some e =>
        rw [Option.map_some, linkUp,
          if_neg (fun hmem => hy (List.mem_singleton.mp hmem)), if_neg hys]
  have hclass' : (s.attach site.scope [wrapper]).get? wrapper
      = some (((wrapperClass name members).under site.scope).gain
        (ids ++ methods)) := by
    rw [(changedBy_attach s site.scope [wrapper]).get?_eq, h₃.get?_self _ hget₂,
      Element.gain_gain, Option.map_some, linkUp,
      if_pos (List.mem_singleton_self _), if_neg hne]
    rfl
  refine ⟨rfl, hold.attach hscope hnone hfit,
    ⟨size_le_of_get?_eq_none hx, name, ids, methods, hclass', ?_, ?_⟩, ?_⟩
  · refine hids.imp fun p i hp =>
      ⟨Nat.le_trans h₁.size_le (size_le_of_get?_eq_none hp.1), ?_⟩
    obtain ⟨es, more, -, hes⟩ := h₁.exists_get? hscope
    have hne₁ : i ≠ wrapper := ne_of_get?_eq_none hp.1 hx₁
    rw [hlinked i hne₁ (ne_of_get?_eq_none hp.1 (Option.isSome_of_eq_some hes))]
    exact h₃.get?_other i _ hp.2 hne₁
  · intro m hm
    obtain ⟨hm₂, hkind⟩ := hmethods m hm
    refine ⟨Nat.le_trans (h₁.trans_new h₂ hx).size_le (size_le_of_get?_eq_none hm₂),
      ?_⟩
    rw [(relinked_attach s site.scope [wrapper]).kind?_eq, hkind]
  · intro p hp
    obtain ⟨i, hi, -, hget⟩ := exists_rel_of_mem hids.flip hp
    have hmember : i ∈ t₂.children wrapper := by
      rw [h₂.children_self hx₁]
      exact List.mem_append_right _ hi
    exact hnames i _ _ hmember hget rfl

/-- A wrapper has been made: its scope holds it last, and nothing else is
    different. -/
theorem wrapper_of_createWrapper {wrapper : ElementId}
    (hwl : WellLinked t) (hscope : (t.get? site.scope).isSome)
    (hrun : (Edit.createWrapper site unionName members properties).run t
      = .ok wrapper t') :
    wrapper = t.nextId ∧ Extended t t' site.scope [t.nextId]
      ∧ WrapperAt t' t.size ⟨site.scope, members⟩ t.nextId properties
      ∧ ∀ p ∈ properties, p.1 ∉ wrapperMethods := by
  rw [Edit.createWrapper, Edit.run_get_bind] at hrun
  dsimp only at hrun
  obtain ⟨x, t₁, hcreate, hrest⟩ := Edit.run_bind_eq_ok_iff.mp hrun
  obtain ⟨ids, t₂, hmade, hrest₂⟩ := Edit.run_bind_eq_ok_iff.mp hrest
  obtain ⟨-, rfl, rfl⟩ := Edit.run_create_eq_ok hcreate
  have h₁ := extended_push hwl (tokenFits_wrapperClass
    (t.availableName site.scope (Text.capitalize unionName)) members)
    site.scope
  obtain ⟨h₂, hids⟩ := created_of_mapM h₁.wellLinked t.nextId hmade
  split at hrest₂
  · obtain ⟨_, t₃, hadd, hrest₃⟩ := Edit.run_bind_eq_ok_iff.mp hrest₂
    obtain ⟨hfit, rfl⟩ :=
      insertable_of_insert h₂.wellLinked (Edit.run_add_eq_ok_iff.mp hadd)
    obtain ⟨h₃, hids₃⟩ :=
      filled_of_attach (Option.isSome_of_eq_some get?_push_nextId) h₂ hids hfit
    exact wrapper_of_finishWrapper hscope h₁ (get?_nextId t) get?_push_nextId h₃
      hids₃ hrest₃
  next hempty =>
    obtain rfl : ids = [] := by simpa using hempty
    obtain rfl : properties = [] := List.forall₂_nil_right_iff.mp hids
    exact wrapper_of_finishWrapper hscope h₁ (get?_nextId t) get?_push_nextId h₂
      .nil hrest₂

/-! ## Wrappers that can be made -/

/-- Properties with names can be made one after another. -/
theorem succeeds_createProperties (hproperties : ∀ p ∈ properties, p.1 ≠ "") :
    Edit.Succeeds (properties.mapM fun p => Edit.create (wrapperProperty p.1 p.2)) t
      fun _ _ => True := by
  refine (Edit.succeeds_mapM (I := fun _ _ => True)
    (fun _ s p hp _ => ?_) trivial).mono fun _ _ _ _ => trivial
  exact Edit.succeeds_create (hproperties p hp) trivial

/-- What is related to things that are different in pairs is different in
    pairs. -/
theorem pairwise_of_forall₂ {α β : Type} {R : α → β → Prop} {P : α → α → Prop}
    {Q : β → β → Prop} (hPQ : ∀ {a a' b b'}, R a b → R a' b' → P a a' → Q b b')
    {as : List α} {bs : List β} (h : List.Forall₂ R as bs) (hP : as.Pairwise P) :
    bs.Pairwise Q := by
  induction h with
  | nil => exact .nil
  | cons hab hrest ih =>
      obtain ⟨hhead, htail⟩ := List.pairwise_cons.mp hP
      refine .cons (fun b' hb' => ?_) (ih htail)
      obtain ⟨a', ha', hab'⟩ := exists_rel_of_mem hrest hb'
      exact hPQ hab hab' (hhead a' ha')

/-- Properties of different names are fit for a class that holds nothing. -/
theorem insertable_properties (hwl : WellLinked t)
    (hclass : t.kind? x = some .classDecl) (hnil : t.children x = [])
    (h : Extended t s x []) (hids : List.Forall₂ (fun p i =>
      t.get? i = none ∧ s.get? i = some (wrapperProperty p.1 p.2)) properties ids)
    (hnodup : (properties.map (·.1)).Nodup) : Insertable s .properties x ids := by
  have hmem : ∀ i ∈ ids, ∃ p : String × TypeRef, t.get? i = none
      ∧ s.get? i = some (wrapperProperty p.1 p.2) := by
    intro i hi
    obtain ⟨p, -, hp⟩ := exists_rel_of_mem hids hi
    exact ⟨p, hp⟩
  have hsome : (t.get? x).isSome := isSome_of_kind? hclass
  have hapart : ids.Pairwise fun i j => s.name? i ≠ s.name? j := by
    refine pairwise_of_forall₂ (P := fun p q : String × TypeRef => p.1 ≠ q.1) ?_
      hids (List.pairwise_map.mp hnodup)
    rintro p q i j ⟨-, hi⟩ ⟨-, hj⟩ hne heq
    rw [name?, name?, hi, hj] at heq
    exact hne (Option.some.inj heq)
  have hchildren : s.children x = [] := by
    rw [h.children_self hsome, hnil, List.append_nil]
  exact
    { holder_kind := (h.kind?_eq hsome).trans hclass
      member_kind := fun i hi => by
        obtain ⟨p, -, hget⟩ := hmem i hi
        exact kind?_eq_some_iff.mpr ⟨_, hget, rfl⟩
      ne_root := fun i hi => by
        obtain ⟨p, hnone, -⟩ := hmem i hi
        rw [h.root_eq]
        exact ne_of_get?_eq_none hnone hwl.isSome_get?_root
      free := fun i hi => by
        obtain ⟨p, -, hget⟩ := hmem i hi
        rw [parent?, hget]
        rfl
      not_within := fun i hi => by
        obtain ⟨p, hnone, -⟩ := hmem i hi
        exact h.not_within hwl hnone hsome
      nodup := hapart.imp fun hne heq => hne (congrArg s.name? heq)
      one_indexer := fun hslot => Slot.noConfusion hslot
      apart_children := fun i _ c hc => by
        rw [hchildren] at hc
        exact absurd hc List.not_mem_nil
      apart_members := hapart.imp collides_eq_false_of_name?_ne }

/-- A new class joins its scope when its name is free there and those of its
    methods are free in it. -/
theorem succeeds_finishWrapper (hwl : WellLinked t)
    (hscope : t.kind? site.scope = some site.slot.holderKind)
    (hslot : site.slot.memberKind = .classDecl)
    (h : Extended t s site.scope []) (hx : t.get? x = none)
    (hclass : s.kind? x = some .classDecl) (hparent : s.parent? x = none)
    (hname : s.name? x = some name) (hfree : t.hasMember site.scope name = false)
    (hmethods : ∀ m ∈ wrapperMethods, s.hasMember x m = false) :
    Edit.Succeeds (Edit.finishWrapper site name x) s fun _ _ => True := by
  have hmethod : NodeKind.method ≠ .classDecl := by decide
  have hparameter : NodeKind.parameter ≠ .classDecl := by decide
  have hsome : (s.get? x).isSome := isSome_of_kind? hclass
  have hserializerFits : wrapperSerializer.TokenFits :=
    Element.tokenFits_of_kind_ne hmethod
  have hwriterFits : wrapperWriter.TokenFits :=
    Element.tokenFits_of_kind_ne hparameter
  have hdeserializerFits : (wrapperDeserializer name).TokenFits :=
    Element.tokenFits_of_kind_ne hmethod
  have hnamed : (wrapperDeserializer name).name ≠ "" := by
    show "getFieldDeserializers" ≠ ""
    decide
  have hdifferent : wrapperSerializer.name ≠ (wrapperDeserializer name).name := by
    show "serialize" ≠ "getFieldDeserializers"
    decide
  refine (succeeds_addNew h.wellLinked hclass rfl
    (by decide) (by decide) hserializerFits (hmethods _ List.mem_cons_self)).bind ?_
  rintro _ s₁ ⟨rfl, h₁, hget₁⟩
  have hserializer : (s₁.get? s.nextId).isSome := Option.isSome_of_eq_some hget₁
  have hempty : s₁.hasMember s.nextId wrapperWriter.name = false := by
    rw [hasMember, children, hget₁]
    rfl
  have hwriter :
      Edit.Succeeds (Edit.addNew .parameters s.nextId wrapperWriter) s₁ _ :=
    succeeds_addNew h₁.wellLinked (kind?_eq_some_iff.mpr ⟨_, hget₁, rfl⟩) rfl
      (by decide) (by decide) hwriterFits hempty
  refine (hwriter.mono (R := fun _ s₂ => Extended s₁ s₂ s.nextId [s₁.nextId])
    fun _ _ _ hQ => hQ.2.1).discard.bind ?_
  intro _ s₂ hparameters
  -- The class holds one method now, and what that holds is no matter.
  have h₂ : Extended s s₂ x [s.nextId] := h₁.trans_new hparameters (get?_nextId s)
  have hother : s₂.hasMember x (wrapperDeserializer name).name = false := by
    refine h₂.hasMember_eq_false h.wellLinked hsome
      (hmethods _ (List.mem_cons_of_mem _ (List.mem_singleton_self _))) ?_
    intro c hc hcname
    rw [List.mem_singleton.mp hc, hparameters.name?_eq hserializer, name?,
      hget₁] at hcname
    exact hdifferent (Option.some.inj hcname)
  have hdeserializer :
      Edit.Succeeds (Edit.addNew .methods x (wrapperDeserializer name)) s₂ _ :=
    succeeds_addNew h₂.wellLinked ((h₂.kind?_eq hsome).trans hclass) rfl
      (by decide) hnamed hdeserializerFits hother
  refine (hdeserializer.mono (R := fun _ s₃ => Extended s₂ s₃ x [s₂.nextId])
    fun _ _ _ hQ => hQ.2.1).discard.bind ?_
  intro _ s₃ hmethods₃
  have h₃ : Extended s s₃ x ([s.nextId] ++ [s₂.nextId]) := h₂.trans hmethods₃
  have hfit : Insertable s₃ site.slot site.scope [x] := by
    refine (h.trans_new h₃ hx).insertable hwl hscope hx ?_ ?_
      ((h₃.parent?_eq hsome).trans hparent)
      ((h₃.name?_eq hsome).trans hname) hfree
    · rw [h₃.kind?_eq hsome, hclass, hslot]
    · intro hindexer
      rw [hindexer] at hslot
      cases hslot
  exact (Edit.succeeds_add (Q := fun _ _ => True) h₃.wellLinked hfit
    (List.cons_ne_nil _ _) trivial).bind
    fun _ _ _ => Edit.succeeds_pure trivial

/-- A wrapper can be made when its properties have names, no two the same, and
    none the name of one of its methods. -/
theorem succeeds_createWrapper (hwl : WellLinked t)
    (hscope : t.kind? site.scope = some site.slot.holderKind)
    (hslot : site.slot.memberKind = .classDecl) (hname : unionName ≠ "")
    (hproperties : ∀ p ∈ properties, p.1 ≠ "" ∧ p.1 ∉ wrapperMethods)
    (hnodup : (properties.map (·.1)).Nodup) :
    Edit.Succeeds (Edit.createWrapper site unionName members properties) t
      fun _ _ => True := by
  have hfree := hasMember_availableName t site.scope (Text.capitalize unionName)
  have hwrapper : t.availableName site.scope (Text.capitalize unionName) ≠ "" :=
    availableName_ne_empty (Text.capitalize_ne_empty hname)
  refine Edit.succeeds_get_bind ?_
  dsimp only
  generalize t.availableName site.scope (Text.capitalize unionName)
    = name at hfree hwrapper
  have h₁ := extended_push hwl (tokenFits_wrapperClass name members) site.scope
  refine (Edit.succeeds_create (e := wrapperClass name members)
    (Q := fun x s => x = t.nextId ∧ s = t.push (wrapperClass name members)) hwrapper
    ⟨rfl, rfl⟩).bind ?_
  rintro _ s₁ ⟨rfl, rfl⟩
  refine ((succeeds_createProperties fun p hp => (hproperties p hp).1).mono
    fun _ _ hrun _ => hrun).bind ?_
  intro ids s₂ hrun
  obtain ⟨h₂, hids⟩ := created_of_mapM h₁.wellLinked t.nextId hrun
  have hget : (t.push (wrapperClass name members)).get? t.nextId
    = some (wrapperClass name members) := get?_push_nextId
  have hsome : ((t.push (wrapperClass name members)).get? t.nextId).isSome :=
    Option.isSome_of_eq_some hget
  have hkind : (t.push (wrapperClass name members)).kind? t.nextId
      = some .classDecl :=
    kind?_eq_some_iff.mpr ⟨_, hget, rfl⟩
  have hnil : (t.push (wrapperClass name members)).children t.nextId = [] := by
    rw [children, hget]
    rfl
  -- With or without properties, the rest is the same.
  have hfinish : ∀ s₃,
      Extended (t.push (wrapperClass name members)) s₃ t.nextId ids →
      List.Forall₂
        (fun p i => (t.push (wrapperClass name members)).get? i = none
          ∧ s₃.get? i = some ((wrapperProperty p.1 p.2).under t.nextId))
        properties ids →
      Edit.Succeeds (Edit.finishWrapper site name t.nextId) s₃ fun _ _ => True := by
    intro s₃ h₃ hids₃
    refine succeeds_finishWrapper hwl hscope hslot (h₁.trans_new h₃ (get?_nextId t))
      (get?_nextId t)
      ((h₃.kind?_eq hsome).trans hkind) ?_ ?_ hfree fun m hm =>
        Bool.eq_false_iff.mpr fun htaken => ?_
    · rw [h₃.parent?_eq hsome, parent?, hget]
      rfl
    · rw [h₃.name?_eq hsome, name?, hget]
      rfl
    · obtain ⟨c, hc, hcname⟩ := hasMember_eq_true_iff.mp htaken
      rw [h₃.children_self hsome, hnil, List.nil_append] at hc
      obtain ⟨p, hp, -, hproperty⟩ := exists_rel_of_mem hids₃ hc
      rw [name?, hproperty] at hcname
      obtain rfl : p.1 = m := Option.some.inj hcname
      exact (hproperties p hp).2 hm
  split
  · have hfit := insertable_properties h₁.wellLinked hkind hnil h₂ hids hnodup
    obtain ⟨h₃, hids₃⟩ := filled_of_attach hsome h₂ hids hfit
    next hnonempty =>
      have hne : ids ≠ [] := by
        rintro rfl
        exact Bool.false_ne_true hnonempty
      exact (Edit.succeeds_add (Q := fun _ s₃ => s₃ = s₂.attach t.nextId ids)
        h₂.wellLinked hfit hne rfl).bind
        fun _ s₃ heq => heq ▸ hfinish _ h₃ hids₃
  next hempty =>
    obtain rfl : ids = [] := by simpa using hempty
    obtain rfl : properties = [] := List.forall₂_nil_right_iff.mp hids
    exact hfinish s₂ h₂ .nil

end Tree

end CodeModel
