import CodeModel.Proofs.ImportNames
import CodeModel.Proofs.NewMembers
import CodeModel.Proofs.RestingMembers

/-!
# Constructors for default values

A class with a property that starts with a value gets a constructor, unless it
has one. The constructor is always called `constructor` and has no parameters,
and a class has one member of a name, overloads with other parameters apart.
What is made for one class bears on no other, so the classes that lack a
constructor when the traversal begins are those that get one, and a class can
refuse it only for a member of that name that it had all along.

* **`LacksConstructor`**: the classes that are to get a constructor.
* **`AdmitsConstructor`**: those that can.
* **`Constructed`**: what giving some classes a constructor each makes of a
  tree.

Main statements: `constructed_of_addConstructors`, the traversal goes through
exactly when all that lack a constructor admit one, and then each of them has
gained it and nothing else has changed, and
`addConstructors_refuses_propertyConstructor`, a tree without collisions in
which one class admits none.
-/

namespace CodeModel

open CodeModel.Tree

namespace Tree

variable {t s s' t' : Tree} {x y id : ElementId} {e : Element}
  {owners done : List ElementId} {inheritingToo : Bool}

/-! ## Classes that lack a constructor -/

/-- A class that is to get a constructor: it is not one of query parameters, and
    inherits only if that does not matter; some property of it starts with a
    value, and none of its methods is a constructor. -/
structure LacksConstructor (t : Tree) (inheritingToo : Bool) (id : ElementId) :
    Prop where
  exists_class? : ∃ c, t.class? id = some c ∧ c.kind ≠ .queryParameters
    ∧ (inheritingToo = true ∨ c.inherits = none)
  exists_default : ∃ q ∈ t.children id, ∃ p v, t.property? q = some p
    ∧ p.defaultValue = some v ∧ v ≠ ""
  no_constructor : ∀ q ∈ t.children id, ∀ m, t.method? q = some m →
    m.kind ≠ .constructor ∧ m.kind ≠ .clientConstructor

/-- Members of one kind, read as what they are. -/
theorem mem_filterMap_childrenOfKind {α : Type} {kind : NodeKind}
    {read : ElementId → Option α}
    (hkind : ∀ q a, read q = some a → t.kind? q = some kind) {a : α} :
    a ∈ (t.childrenOfKind id kind).filterMap read ↔
      ∃ q ∈ t.children id, read q = some a := by
  rw [List.mem_filterMap]
  constructor
  · rintro ⟨q, hq, hread⟩
    exact ⟨q, (List.mem_filter.mp hq).1, hread⟩
  · rintro ⟨q, hq, hread⟩
    exact ⟨q, List.mem_filter.mpr ⟨hq, decide_eq_true (hkind q a hread)⟩, hread⟩

/-- Some property starts with a value that is not blank. -/
theorem hasDefaults_iff :
    t.hasDefaults id = true
      ↔ ∃ q ∈ t.children id, ∃ p v, t.property? q = some p ∧ p.defaultValue = some v
        ∧ v ≠ "" := by
  have hkind : ∀ q p, t.property? q = some p → t.kind? q = some .property :=
      fun q p hp => by
    obtain ⟨e, he, hp⟩ := Option.bind_eq_some_iff.mp hp
    exact kind?_eq_some_iff.mpr ⟨e, he, Element.kind_of_property? hp⟩
  have hstarts : ∀ p : PropertyDecl,
      (p.defaultValue.any fun v => !v.isEmpty) = true ↔ ∃ v, p.defaultValue = some v
        ∧ v ≠ "" := by
    intro p
    cases p.defaultValue <;> simp
  rw [hasDefaults, List.any_eq_true]
  simp only [mem_filterMap_childrenOfKind hkind, hstarts]
  constructor
  · rintro ⟨p, ⟨q, hq, hp⟩, v, hv⟩
    exact ⟨q, hq, p, v, hp, hv⟩
  · rintro ⟨q, hq, p, v, hp, hv⟩
    exact ⟨p, ⟨q, hq, hp⟩, v, hv⟩

/-- No method is a constructor, of the class or of a client. -/
theorem hasConstructor_eq_false_iff :
    t.hasConstructor id = false
      ↔ ∀ q ∈ t.children id, ∀ m, t.method? q = some m → m.kind ≠ .constructor
        ∧ m.kind ≠ .clientConstructor := by
  have hkind : ∀ q m, t.method? q = some m → t.kind? q = some .method :=
      fun q m hm => by
    obtain ⟨e, he, hm⟩ := Option.bind_eq_some_iff.mp hm
    exact kind?_eq_some_iff.mpr ⟨e, he, Element.kind_of_method? hm⟩
  have hconstructs : ∀ kind : MethodKind,
      ¬ kind.isConstructor = true ↔
        kind ≠ .constructor ∧ kind ≠ .clientConstructor := by
    intro kind
    cases kind <;> decide
  rw [hasConstructor, List.any_eq_false]
  simp only [mem_filterMap_childrenOfKind hkind, hconstructs]
  constructor
  · exact fun h q hq m hm => h m ⟨q, hq, hm⟩
  · rintro h m ⟨q, hq, hm⟩
    exact h q hq m hm

/-- The check and its meaning agree. -/
theorem lacksConstructor_iff :
    t.lacksConstructor inheritingToo id = true ↔
      LacksConstructor t inheritingToo id := by
  have hclass : t.lacksConstructor inheritingToo id = true
      ↔ (∃ c, t.class? id = some c ∧ c.kind ≠ .queryParameters
        ∧ (inheritingToo = true ∨ c.inherits = none))
        ∧ t.hasDefaults id = true ∧ t.hasConstructor id = false := by
    rw [lacksConstructor]
    cases t.class? id <;> simp [and_assoc]
  rw [hclass, hasDefaults_iff, hasConstructor_eq_false_iff]
  constructor
  · rintro ⟨hc, hd, hm⟩
    exact ⟨hc, hd, hm⟩
  · rintro ⟨hc, hd, hm⟩
    exact ⟨hc, hd, hm⟩

/-- The classes that lack a constructor, in the order of a traversal. -/
def constructorless (t : Tree) (inheritingToo : Bool) : List ElementId :=
  (t.descendants t.root).filter (t.lacksConstructor inheritingToo)

/-- The list of classes to be given constructors has exactly the attached ones
    that lack one. -/
theorem mem_constructorless_iff (hwl : WellLinked t) :
    x ∈ t.constructorless inheritingToo ↔
      Attached t x ∧ LacksConstructor t inheritingToo x := by
  rw [constructorless, List.mem_filter, hwl.mem_descendants_iff,
    lacksConstructor_iff]
  refine and_congr_left fun hlacks => ⟨Or.inr, fun hx => hx.resolve_left ?_⟩
  obtain ⟨c, hc, -⟩ := hlacks.exists_class?
  exact hwl.ne_root_of_class (Option.isSome_of_eq_some hc)

/-! ## Classes that admit one -/

/-- What is called `constructor` in a class are overloads, each with
    parameters. -/
def AdmitsConstructor (t : Tree) (id : ElementId) : Prop :=
  ∀ c ∈ t.children id, t.name? c = some "constructor" →
    ∃ m, t.method? c = some m ∧ m.kind.isOverloadable = true
      ∧ t.childrenOfKind c .parameter ≠ []

/-- What of the constructor bears on collisions. -/
def constructorFace : Face :=
  ⟨.method .constructor false, "constructor", []⟩

/-- A method has a signature when it has parameters. -/
theorem signature_eq_nil_iff :
    t.signature x = [] ↔ t.childrenOfKind x .parameter = [] := by
  rw [signature, List.map_eq_nil_iff]
  refine ⟨fun h => List.eq_nil_iff_forall_not_mem.mpr fun p hp => ?_, fun h =>
    by rw [h, List.filterMap_nil]⟩
  obtain ⟨⟨name, parent, children, description, content⟩, he, hkind⟩ :=
    kind?_eq_some_iff.mp (of_decide_eq_true (List.mem_filter.mp hp).2)
  cases content with
  | parameter d =>
      have hmem : d ∈ (t.childrenOfKind x .parameter).filterMap t.parameter? :=
        List.mem_filterMap.mpr ⟨p, hp, by rw [parameter?, he]; rfl⟩
      rw [h] at hmem
      cases hmem
  | _ => cases hkind

/-- Beside a constructor any other name may stand, and under its name methods
    that may be overloaded and take something. -/
theorem collide_constructorFace_iff (f : Face) :
    f.collide constructorFace = false
      ↔ (f.name = "constructor" → ∃ kind isAsync, f.role = .method kind isAsync
        ∧ kind.isOverloadable = true
          ∧ f.signature ≠ []) := by
  obtain ⟨role, name, signature⟩ := f
  cases role <;> simp [Face.collide, constructorFace, Role.coexist,
    MethodKind.isOverloadable]

/-- A class admits a constructor when nothing in it collides with one. -/
theorem admitsConstructor_iff (hwl : WellLinked t) :
    AdmitsConstructor t id ↔
      ∀ f ∈ t.faces id, f.collide constructorFace = false := by
  have hmember : ∀ c e, t.get? c = some e →
      ((t.name? c = some "constructor" →
          ∃ m, t.method? c = some m ∧ m.kind.isOverloadable = true
            ∧ t.childrenOfKind c .parameter ≠ [])
        ↔ Face.collide ⟨e.role, e.name, t.signature c⟩ constructorFace = false) :=
          by
    intro c e he
    rw [collide_constructorFace_iff, name?, method?, he, Ne, ← signature_eq_nil_iff]
    obtain ⟨name, parent, children, description, content⟩ := e
    cases content <;> simp [Element.role, Content.role, Element.method?]
  constructor
  · intro h f hf
    obtain ⟨c, hc, hface⟩ := List.mem_filterMap.mp hf
    obtain ⟨e, he, rfl⟩ := Option.map_eq_some_iff.mp hface
    exact (hmember c e he).mp (h c hc)
  · intro h c hc
    obtain ⟨e, he, -⟩ := hwl.exists_of_mem_children hc
    refine (hmember c e he).mpr (h _ (List.mem_filterMap.mpr ⟨c, hc, ?_⟩))
    rw [face?, he, Option.map_some]

/-- The face of a constructor does not depend on its owner. -/
theorem face?_push_defaultConstructor (owner : String) :
    (t.push (defaultConstructor owner).detached).face? t.nextId
      = some constructorFace := by
  have hchildren : (t.push (defaultConstructor owner).detached).children
      t.nextId = [] := by
    rw [children, get?_push_nextId]
    rfl
  rw [face?, get?_push_nextId, Option.map_some, signature, childrenOfKind,
    hchildren]
  rfl

/-- What a class admits collides with nothing in it once it is made. -/
theorem collides_defaultConstructor_iff (hwl : WellLinked t) (owner : String) :
    (∀ c ∈ t.children id, (t.push (defaultConstructor owner).detached).collides c
      t.nextId = false)
      ↔ AdmitsConstructor t id := by
  have hcollides : ∀ c ∈ t.children id,
      ((t.push (defaultConstructor owner).detached).collides c t.nextId = false ↔
        ∀ f, t.face? c = some f → f.collide constructorFace = false) := by
    intro c hc
    obtain ⟨e, he, -⟩ := hwl.exists_of_mem_children hc
    rw [collides_eq_face, face?_push_defaultConstructor,
      face?_push hwl rfl (Option.isSome_of_eq_some he)]
    cases t.face? c <;> simp
  rw [admitsConstructor_iff hwl]
  constructor
  · intro h f hf
    obtain ⟨c, hc, hface⟩ := List.mem_filterMap.mp hf
    exact (hcollides c hc).mp (h c hc) f hface
  · intro h c hc
    exact (hcollides c hc).mpr fun f hface =>
      h f (List.mem_filterMap.mpr ⟨c, hc, hface⟩)

theorem tokenFits_defaultConstructor (owner : String) :
    (defaultConstructor owner).TokenFits :=
  Element.tokenFits_of_kind_ne (fun hkind => NodeKind.noConfusion hkind)

/-- A constructor joins a class exactly when the class admits one. -/
theorem addNew_defaultConstructor_succeeds_iff (hwl : WellLinked t)
    (hclass : t.kind? id = some .classDecl) (owner : String) :
    (∃ y t', (Edit.addNew .methods id (defaultConstructor owner)).run t = .ok y
      t') ↔ AdmitsConstructor t id := by
  have hpushed := extended_push hwl (tokenFits_defaultConstructor owner) id
  rw [← collides_defaultConstructor_iff hwl owner]
  constructor
  · rintro ⟨y, t', hrun⟩ c hc
    obtain ⟨-, -, hinsert⟩ := Edit.run_addNew_eq_ok hrun
    obtain ⟨hfit, -⟩ := insertable_of_insert hpushed.wellLinked hinsert
    refine hfit.apart_children _ (List.mem_singleton_self _) c ?_
    rwa [children_push rfl]
  · intro hapart
    have hfit : Insertable (t.push (defaultConstructor owner).detached) .methods id
        [t.nextId] :=
      hpushed.insertable_of_apart hwl hclass (get?_nextId t)
        (kind?_eq_some_iff.mpr ⟨_, get?_push_nextId, rfl⟩)
        (by decide) (by rw [parent?, get?_push_nextId]; rfl) hapart
    have hname : (defaultConstructor owner).name ≠ "" := by
      show "constructor" ≠ ""
      decide
    obtain ⟨y, t', hrun, -⟩ :=
      succeeds_addNew_of_insertable hwl hname
        (tokenFits_defaultConstructor owner) hfit
    exact ⟨y, t', hrun⟩

/-! ## Constructors, one after another -/

/-- What a tree becomes when some classes are given a constructor each, one
    after another: every class has one member more, which was not there, and
    everything else is as it was. -/
structure Constructed (t : Tree) (owners : List ElementId) (s : Tree) : Prop where
  wellLinked : WellLinked s
  root_eq : s.root = t.root
  size_eq : s.size = t.size + owners.length
  get?_owner : ∀ k x e, owners[k]? = some x → t.get? x = some e →
    s.get? x = some (e.gain [⟨t.size + k⟩])
      ∧ s.get? ⟨t.size + k⟩ = some ((defaultConstructor e.name).detached.under x)
  get?_other : ∀ x e, x ∉ owners → t.get? x = some e → s.get? x = some e

/-- Before any class was given a constructor nothing has changed. -/
theorem constructed_nil (hwl : WellLinked t) : Constructed t [] t where
  wellLinked := hwl
  root_eq := rfl
  size_eq := rfl
  get?_owner k x e hk := by cases hk
  get?_other x e _ he := he

namespace Constructed

variable (h : Constructed t owners s)

include h

/-- What was there keeps everything but its members, which only classes gain,
    and those are methods. -/
theorem exists_gain (he : t.get? x = some e) :
    ∃ members, s.get? x = some (e.gain members)
      ∧ ∀ c ∈ members, s.kind? c = some .method := by
  by_cases hx : x ∈ owners
  · obtain ⟨k, hk⟩ := List.mem_iff_getElem?.mp hx
    obtain ⟨hself, hnew⟩ := h.get?_owner k x e hk he
    refine ⟨_, hself, fun c hc => ?_⟩
    rw [List.mem_singleton.mp hc, kind?, hnew]
    rfl
  · refine ⟨[], ?_, fun c hc => absurd hc List.not_mem_nil⟩
    rw [Element.gain_nil, h.get?_other x e hx he]

/-- What an element is besides its links stays. -/
theorem content?_eq (hx : (t.get? x).isSome) : s.content? x = t.content? x := by
  obtain ⟨e, he⟩ := Option.isSome_iff_exists.mp hx
  obtain ⟨members, hs, -⟩ := h.exists_gain he
  rw [content?, content?, hs, he]
  rfl

theorem children_other (hx : x ∉ owners) (hsome : (t.get? x).isSome) :
    s.children x = t.children x := by
  obtain ⟨e, he⟩ := Option.isSome_iff_exists.mp hsome
  rw [children, children, h.get?_other x e hx he, he]

/-- The parameters of what was there are what they were. -/
theorem parameters_eq (hwl : WellLinked t) (hx : (t.get? x).isSome) :
    s.childrenOfKind x .parameter = t.childrenOfKind x .parameter := by
  obtain ⟨e, he⟩ := Option.isSome_iff_exists.mp hx
  obtain ⟨members, hs, hmethods⟩ := h.exists_gain he
  have hchildren : s.children x = t.children x ++ members := by
    rw [children, children, hs, he]
    rfl
  have hnone : (members.filter fun c => s.kind? c = some .parameter) = [] :=
    List.filter_eq_nil_iff.mpr fun c hc => by simp [hmethods c hc]
  rw [childrenOfKind, childrenOfKind, hchildren, List.filter_append, hnone,
    List.append_nil]
  refine List.filter_congr fun c hc => ?_
  rw [kind?_congr
    (h.content?_eq ((get?_isSome_iff t c).mpr (hwl.index_lt_of_mem_children hc)))]

/-- Giving constructors to others admits no constructor that was not admitted
    and refuses none that was. -/
theorem admitsConstructor_iff (hwl : WellLinked t) (hx : x ∉ owners)
    (hsome : (t.get? x).isSome) :
    AdmitsConstructor s x ↔ AdmitsConstructor t x := by
  rw [AdmitsConstructor, AdmitsConstructor, h.children_other hx hsome]
  refine forall₂_congr fun c hc => ?_
  have hc' := (get?_isSome_iff t c).mpr (hwl.index_lt_of_mem_children hc)
  obtain ⟨e, he⟩ := Option.isSome_iff_exists.mp hc'
  obtain ⟨members, hs, -⟩ := h.exists_gain he
  have hname : s.name? c = t.name? c := by
    rw [name?, name?, hs, he]
    rfl
  rw [hname, method?_congr (h.content?_eq hc'), h.parameters_eq hwl hc']

/-- The turn of one class has no bearing on what another lacks. -/
theorem lacksConstructor_eq (hwl : WellLinked t) (hx : x ∉ owners)
    (hsome : (t.get? x).isSome) :
    s.lacksConstructor inheritingToo x = t.lacksConstructor inheritingToo x :=
  lacksConstructor_congr inheritingToo (h.content?_eq hsome)
    (h.children_other hx hsome)
    fun c hc =>
      h.content?_eq ((get?_isSome_iff t c).mpr (hwl.index_lt_of_mem_children hc))

/-- What was attached stays attached. -/
theorem attached (hwl : WellLinked t) (hx : Attached t x) : Attached s x := by
  have hsame : SameHolders t s x := by
    intro a ha
    have hlt : a.index < t.size := by
      rcases ha with rfl | ha
      · exact hwl.index_lt_of_attached hx
      · exact hwl.index_lt_of_ancestor ha
    obtain ⟨e, he⟩ := Option.isSome_iff_exists.mp ((get?_isSome_iff t a).mpr hlt)
    obtain ⟨members, hs, -⟩ := h.exists_gain he
    rw [parent?, parent?, kind?, kind?, hs, he]
    exact ⟨rfl, rfl⟩
  rw [Attached, h.root_eq]
  exact hsame.within hx

theorem isAttached (hwl : WellLinked t) (hx : x ∈ t.descendants t.root) :
    s.isAttached x = true :=
  h.wellLinked.isAttached_iff.mpr
    (h.attached hwl (Or.inr (hwl.mem_descendants_iff.mp hx)))

/-- One more class is given a constructor. -/
theorem addNew (he : t.get? id = some e) (hnot : id ∉ owners) (hrun :
      (Edit.addNew .methods id (defaultConstructor e.name)).run s = .ok y s') :
    Constructed t (owners ++ [id]) s' := by
  have htoken := tokenFits_defaultConstructor e.name
  obtain ⟨rfl, hextended, hnew, -⟩ := extended_of_addNew h.wellLinked htoken hrun
  have hid : s.get? id = some e := h.get?_other id e hnot he
  have hnext : s.nextId = ⟨t.size + owners.length⟩ :=
    congrArg ElementId.mk h.size_eq
  rw [hnext] at hextended hnew
  refine
    { wellLinked := hextended.wellLinked
      root_eq := hextended.root_eq.trans h.root_eq
      size_eq := by
        rw [size_of_addNew h.wellLinked htoken hrun, h.size_eq, List.length_append,
          List.length_singleton, Nat.add_assoc]
      get?_owner := fun k x ex hk hex => ?_
      get?_other := fun x ex hx hex => ?_ }
  · rcases Nat.lt_trichotomy k owners.length with hlt | rfl | hgt
    · -- A class that had its turn: the new constructor is none of its members.
      rw [List.getElem?_append_left hlt] at hk
      obtain ⟨hself, hconstructor⟩ := h.get?_owner k x ex hk hex
      have hne : x ≠ id := fun heq => hnot (heq ▸ List.mem_of_getElem? hk)
      refine ⟨hextended.get?_other x _ hself hne,
        hextended.get?_other _ _ hconstructor fun heq => ?_⟩
      have hindex := index_lt_of_get? he
      rw [← heq] at hindex
      exact absurd hindex (Nat.not_lt.mpr (Nat.le_add_right _ _))
    · rw [List.getElem?_append_right (Nat.le_refl _), Nat.sub_self] at hk
      obtain rfl := Option.some.inj hk
      obtain rfl := Option.some.inj (he.symm.trans hex)
      exact ⟨hextended.get?_self e hid, hnew⟩
    · rw [List.getElem?_eq_none
        (by rw [List.length_append, List.length_singleton]; omega)] at hk
      cases hk
  · have hout : x ∉ owners ∧ x ≠ id := by
      rw [List.mem_append, List.mem_singleton, not_or] at hx
      exact hx
    exact hextended.get?_other x ex (h.get?_other x ex hout.1 hex) hout.2

end Constructed

end Tree

/-! ## The traversal -/

namespace Edit

/-- Gives one class a constructor if it lacks one. -/
def addConstructor (inheritingToo : Bool) (id : ElementId) : Edit Unit := do
  let t ← get
  if t.lacksConstructor inheritingToo id then
    discard <| addNew .methods id (defaultConstructor ((t.name? id).getD ""))

/-- The pass is a crawl with one turn for each element. -/
theorem addConstructors_eq (inheritingToo : Bool) :
    addConstructors inheritingToo = crawl (addConstructor inheritingToo) :=
  rfl

end Edit

namespace Tree

variable {t s s' t' : Tree} {x y id : ElementId} {e : Element}
  {owners done : List ElementId} {inheritingToo : Bool}

/-- When the turn of a class comes, it lacks a constructor if it did at the
    beginning. -/
theorem Constructed.run_addConstructor (h : Constructed t owners s)
    (hwl : WellLinked t) (he : t.get? id = some e) (hnot : id ∉ owners) :
    (Edit.addConstructor inheritingToo id).run s
      = if t.lacksConstructor inheritingToo id then
          (discard (Edit.addNew .methods id (defaultConstructor e.name)) :
            Edit Unit).run s
        else .ok () s := by
  have hsome := Option.isSome_of_eq_some he
  rw [Edit.addConstructor, Edit.run_get_bind, h.lacksConstructor_eq hwl hnot hsome]
  split
  · rw [name?, h.get?_other id e hnot he]
    rfl
  · rfl

/-- The constructor of a class goes in exactly when no member of the class
    collides with it, whatever others were given. -/
theorem Constructed.addNew_succeeds_iff (h : Constructed t owners s)
    (hwl : WellLinked t) (he : t.get? id = some e) (hnot : id ∉ owners)
    (hlacks : t.lacksConstructor inheritingToo id = true) (owner : String) :
    (∃ y s', (Edit.addNew .methods id (defaultConstructor owner)).run s = .ok y
      s') ↔ AdmitsConstructor t id := by
  have hsome := Option.isSome_of_eq_some he
  obtain ⟨c, hc, -⟩ := (lacksConstructor_iff.mp hlacks).exists_class?
  have hclass : s.kind? id = some .classDecl := by
    rw [kind?_congr (h.content?_eq hsome)]
    exact isSome_class?_iff.mp (Option.isSome_of_eq_some hc)
  rw [addNew_defaultConstructor_succeeds_iff h.wellLinked hclass,
    h.admitsConstructor_iff hwl hnot hsome]

/-- The turn of one element. -/
theorem Constructed.step (h : Constructed t owners s)
    (hwl : WellLinked t) (he : t.get? id = some e) (hnot : id ∉ owners)
    (hrun : (Edit.addConstructor inheritingToo id).run s = .ok () s') :
    Constructed t (owners ++ [id].filter (t.lacksConstructor inheritingToo)) s'
      ∧ (t.lacksConstructor inheritingToo id = true → AdmitsConstructor t id) := by
  rw [h.run_addConstructor hwl he hnot] at hrun
  cases hlacks : t.lacksConstructor inheritingToo id with
  | true =>
      rw [hlacks] at hrun
      obtain ⟨y, hadd⟩ := Edit.run_discard_eq_ok_iff.mp hrun
      rw [List.filter_cons_of_pos hlacks, List.filter_nil]
      exact ⟨h.addNew he hnot hadd, fun _ =>
        (h.addNew_succeeds_iff hwl he hnot hlacks e.name).mp ⟨y, s', hadd⟩⟩
  | false =>
      rw [hlacks] at hrun
      obtain ⟨-, rfl⟩ := Edit.run_pure_eq_ok_iff.mp hrun
      rw [List.filter_cons_of_neg (by rw [hlacks]; decide), List.filter_nil,
        List.append_nil]
      exact ⟨h, fun hfalse => absurd hfalse (by decide)⟩

/-- The turn of an element goes through when it admits what it lacks. -/
theorem Constructed.succeeds (h : Constructed t owners s) (hwl : WellLinked t)
    (he : t.get? id = some e) (hnot : id ∉ owners)
    (hadmits : t.lacksConstructor inheritingToo id = true →
      AdmitsConstructor t id) :
    Edit.Succeeds (Edit.addConstructor inheritingToo id) s fun _ s' =>
      Constructed t (owners ++ [id].filter (t.lacksConstructor inheritingToo)) s' :=
        by
  have hgoes : Edit.Succeeds (Edit.addConstructor inheritingToo id) s
      fun _ _ => True := by
    rw [Edit.Succeeds, h.run_addConstructor hwl he hnot]
    cases hlacks : t.lacksConstructor inheritingToo id with
    | true =>
        obtain ⟨y, s', hadd⟩ :=
          (h.addNew_succeeds_iff hwl he hnot hlacks e.name).mpr (hadmits hlacks)
        exact ⟨(), s', Edit.run_discard_eq_ok_iff.mpr ⟨y, hadd⟩, trivial⟩
    | false => exact ⟨(), s, rfl, trivial⟩
  exact hgoes.mono fun _ s' hrun _ => (h.step hwl he hnot hrun).1

/-- The whole traversal. -/
theorem constructed_of_run (hwl : WellLinked t)
    (hrun : (Edit.addConstructors inheritingToo).run t = .ok () t') :
    Constructed t (t.constructorless inheritingToo) t'
      ∧ ∀ x ∈ t.descendants t.root, t.lacksConstructor inheritingToo x = true →
        AdmitsConstructor t x := by
  refine Edit.crawl_done_induction
    (I := fun done s =>
      Constructed t (done.filter (t.lacksConstructor inheritingToo)) s
      ∧ ∀ x ∈ done, t.lacksConstructor inheritingToo x = true →
        AdmitsConstructor t x)
    (fun _ _ _ h hid => h.1.isAttached hwl hid) ?_
    ⟨constructed_nil hwl, fun x hx => absurd hx List.not_mem_nil⟩ hrun
  rintro done id rest s s' hitems ⟨h, hadmits⟩ hvisit
  obtain ⟨hnot, hbelow⟩ := hwl.turn_of_descendants_eq hitems
  obtain ⟨e, he⟩ := Option.isSome_iff_exists.mp hbelow.isSome_get?
  obtain ⟨h', hadmits'⟩ :=
    h.step hwl he (fun hmem => hnot (List.mem_filter.mp hmem).1) hvisit
  rw [List.filter_append]
  refine ⟨h', fun x hx => ?_⟩
  rcases List.mem_append.mp hx with hx | hx
  · exact hadmits x hx
  · rw [List.mem_singleton.mp hx]
    exact hadmits'

/-- The traversal goes through when every class that lacks a constructor admits
    one. -/
theorem succeeds_addConstructors (inheritingToo : Bool) (hwl : WellLinked t)
    (hadmits : ∀ x ∈ t.descendants t.root, t.lacksConstructor inheritingToo
      x = true → AdmitsConstructor t x) :
    Edit.Succeeds (Edit.addConstructors inheritingToo) t fun _ =>
      Constructed t (t.constructorless inheritingToo) := by
  rw [Edit.addConstructors_eq, Edit.crawl]
  refine Edit.succeeds_crawlWith_done
    (I := fun done _ =>
      Constructed t (done.filter (t.lacksConstructor inheritingToo)))
    (fun _ _ _ _ h hid => h.isAttached hwl hid)
      (fun done id rest _ s hitems h => ?_) (constructed_nil hwl)
  obtain ⟨hnot, hbelow⟩ := hwl.turn_of_descendants_eq hitems
  obtain ⟨e, he⟩ := Option.isSome_iff_exists.mp hbelow.isSome_get?
  rw [List.filter_append]
  exact h.succeeds hwl he (fun hmem => hnot (List.mem_filter.mp hmem).1)
    (hadmits id (hwl.mem_descendants_iff.mpr hbelow))

/-- A class has one member more than it had, which is new and a constructor. -/
def GainsConstructor (t t' : Tree) (x : ElementId) : Prop :=
  ∃ c m, t.get? c = none ∧ t'.children x = t.children x ++ [c]
    ∧ t'.method? c = some m ∧ m.kind = .constructor

/-- A class has gained a constructor exactly when it was one of those that were
    given one. -/
theorem Constructed.gainsConstructor_iff (h : Constructed t owners s)
    (hsome : (t.get? x).isSome) : GainsConstructor t s x ↔ x ∈ owners := by
  constructor
  · rintro ⟨c, m, -, hchildren, -⟩
    by_contra hx
    rw [h.children_other hx hsome] at hchildren
    exact List.cons_ne_nil _ _ (List.self_eq_append_right.mp hchildren)
  · intro hx
    obtain ⟨e, he⟩ := Option.isSome_iff_exists.mp hsome
    obtain ⟨k, hk⟩ := List.mem_iff_getElem?.mp hx
    obtain ⟨hself, hnew⟩ := h.get?_owner k x e hk he
    refine ⟨⟨t.size + k⟩, ⟨.constructor, .external "void", false⟩, ?_, ?_, ?_, rfl⟩
    · exact get?_eq_none_of_size_le (Nat.le_add_right _ _)
    · rw [children, children, hself, he]
      rfl
    · rw [method?, hnew]
      rfl

/-- Adding constructors goes through exactly when every attached class that
    lacks one admits one, that is, when all that is called `constructor` in the
    class are overloads with parameters. The attached classes that lack one are
    then those that have gained one, as their last member and the only new one,
    and all else is as it was. -/
theorem constructed_of_addConstructors (hwf : WellFormed t) (inheritingToo : Bool) :
    ((∃ t', (Edit.addConstructors inheritingToo).run t = .ok () t')
        ↔ ∀ x, Attached t x → LacksConstructor t inheritingToo x →
          AdmitsConstructor t x)
      ∧ ∀ t', (Edit.addConstructors inheritingToo).run t = .ok () t' →
          Constructed t (t.constructorless inheritingToo) t'
            ∧ ∀ x, Attached t x →
              (GainsConstructor t t' x ↔ LacksConstructor t inheritingToo x) := by
  have hwl := hwf.toWellLinked
  have hmember : ∀ x, x ∈ t.constructorless inheritingToo ↔
      Attached t x ∧ LacksConstructor t inheritingToo x :=
    fun x => mem_constructorless_iff hwl
  refine ⟨⟨?_, fun hadmits => ?_⟩, fun t' hrun => ?_⟩
  · rintro ⟨t', hrun⟩ x hx hlacks
    obtain ⟨hbelow, hlacks⟩ := List.mem_filter.mp ((hmember x).mpr ⟨hx, hlacks⟩)
    exact (constructed_of_run hwl hrun).2 x hbelow hlacks
  · obtain ⟨_, t', hrun, -⟩ :=
      succeeds_addConstructors inheritingToo hwl fun x hx hlacks =>
        hadmits x (Or.inr (hwl.mem_descendants_iff.mp hx))
          (lacksConstructor_iff.mp hlacks)
    exact ⟨t', hrun⟩
  · have h := (constructed_of_run hwl hrun).1
    refine ⟨h, fun x hx => ?_⟩
    have hsome : (t.get? x).isSome :=
      (get?_isSome_iff t x).mpr (hwl.index_lt_of_attached hx)
    rw [h.gainsConstructor_iff hsome, hmember, and_iff_right hx]

/-- A tree of a class with a property that starts with a value and a method
    called `constructor` that has a parameter, a class of query parameters and a
    class that inherits. -/
def userAmongOthers : Tree :=
  Operation.runAll
    [.addNew .classes ⟨0⟩ (.classDecl "User" .model),
      .addNew .properties ⟨1⟩
        (.defaulted (.property "odataType" .custom (.external "string")) "user"),
      .addNew .methods ⟨1⟩
        (.method "constructor" .requestGenerator (.external "void")),
      .addNew .parameters ⟨3⟩ (.parameter "body" .requestBody (.external "Stream")),
      .addNew .classes ⟨0⟩ (.classDecl "UserQuery" .queryParameters),
      .addNew .properties ⟨5⟩
        (.defaulted (.property "top" .custom (.external "int")) "10"),
      .addNew .classes ⟨0⟩
        (.inheriting (.classDecl "Admin" .model) (.declared "User" ⟨1⟩)),
      .addNew .properties ⟨7⟩
        (.defaulted (.property "level" .custom (.external "int")) "1")]
    initial

/-- Only the first of the classes gains a constructor. -/
theorem constructed_of_addConstructors_userAmongOthers :
    ∃ t', (Edit.addConstructors false).run userAmongOthers = .ok () t'
      ∧ Constructed userAmongOthers [⟨1⟩] t'
      ∧ ∀ x, Attached userAmongOthers x →
        (GainsConstructor userAmongOthers t' x ↔ x = ⟨1⟩) := by
  have hwf : WellFormed userAmongOthers :=
    (Operation.fullyNamed_runAll _ fullyNamed_initial).wellFormed
  have howners : userAmongOthers.constructorless false = [⟨1⟩] := by decide +kernel
  obtain ⟨_, t', hrun, -⟩ :=
    Edit.exists_eq_ok (r := (Edit.addConstructors false).run userAmongOthers)
    (P := fun _ _ => True) (by decide +kernel)
  obtain ⟨hconstructed, hgains⟩ :=
    (constructed_of_addConstructors hwf false).2 t' hrun
  rw [howners] at hconstructed
  refine ⟨t', hrun, hconstructed, fun x hx => ?_⟩
  have hlacks : Attached userAmongOthers x
      ∧ LacksConstructor userAmongOthers false x ↔ x = ⟨1⟩ := by
    rw [← mem_constructorless_iff hwf.toWellLinked, howners, List.mem_singleton]
  rw [hgains x hx, ← hlacks, and_iff_right hx]

/-- A tree of one class, with a property called `constructor` that starts with a
    value. -/
def robotOfConstructor : Tree :=
  Operation.runAll
    [.addNew .classes ⟨0⟩ (.classDecl "Robot" .model),
      .addNew .properties ⟨1⟩
        (.defaulted (.property "constructor" .custom (.external "string")) "acme")]
    initial

/-- No two members of it collide, and it is refused whether or not classes that
    inherit count. -/
theorem addConstructors_refuses_propertyConstructor :
    WellFormed robotOfConstructor ∧ SiblingsApart robotOfConstructor
      ∧ ∀ inheritingToo, ∃ e t',
        (Edit.addConstructors inheritingToo).run robotOfConstructor = .error e t'
        ∧ e = .nameTaken "constructor" "Robot" := by
  refine ⟨(Operation.fullyNamed_runAll _ fullyNamed_initial).wellFormed,
    by decide +kernel, fun inheritingToo => ?_⟩
  refine Edit.exists_eq_error ?_
  cases inheritingToo <;> decide +kernel

end Tree

end CodeModel
