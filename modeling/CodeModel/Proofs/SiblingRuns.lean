import CodeModel.Proofs.NamingPasses
import CodeModel.Proofs.Operations
import Mathlib.Data.List.Induction
import Mathlib.Data.List.Pairwise

/-!
# Siblings over whole runs

What joins a holder is compared with all that the holder has. Later calls are
not: a rename gives a member, and every method with a parameter of its type,
another face where it stands, and so does a parameter that joins or leaves a
method. These are the members that a call relabels (`Operation.relabelled`), and
they are the only ones that can come to collide with a sibling.

* **`apartBut_step`**: after one call no two siblings collide, those that it
  relabels aside, by the calls.
* **`siblingsApart_runAll_iff`**: over a run from the tree of the root alone,
  siblings never collide exactly when every call leaves each member that it
  relabels without a rival beside it.
* **`exists_collision_of_runAll`**: for each way to relabel there is a run that
  ends with a collision.
-/

namespace CodeModel

/-! ## Collisions go both ways -/

/-- Sharing a name is mutual. -/
theorem Role.coexist_comm (sameSignature : Bool) (x y : Role) :
    Role.coexist sameSignature x y = Role.coexist sameSignature y x := by
  cases x with
  | method k a =>
      cases y with
      | method l b => simp only [Role.coexist, Bool.and_comm]
      | _ => rfl
  | _ => cases y <;> rfl

theorem Face.collide_comm (x y : Face) : x.collide y = y.collide x := by
  rw [collide, collide, Role.coexist_comm, BEq.comm (a := x.name),
    BEq.comm (a := x.signature)]

namespace Tree

variable {t t' : Tree} {loose : List ElementId}

theorem collides_comm (t : Tree) (a b : ElementId) :
    t.collides a b = t.collides b a := by
  rw [collides_eq_face, collides_eq_face]
  cases t.face? a with
  | none => cases t.face? b <;> rfl
  | some x =>
      cases t.face? b with
      | none => rfl
      | some y =>
          exact congrArg (fun found => (some found).getD false) (x.collide_comm y)

instance (t : Tree) : Std.Symm fun a b => t.collides a b = false where
  symm a b h := (t.collides_comm b a).trans h

/-! ## Members with a rival -/

/-- The elements beside one in its holder. -/
def siblings (t : Tree) (id : ElementId) : List ElementId :=
  match t.parent? id with
  | some holder => (t.children holder).filter (· ≠ id)
  | none => []

/-- Nothing beside an element collides with it, as the check of a newcomer would
    have it. -/
def Unrivalled (t : Tree) (id : ElementId) : Prop :=
  ∀ c ∈ t.siblings id, t.collides c id = false

instance (t : Tree) (id : ElementId) : Decidable (t.Unrivalled id) :=
  inferInstanceAs (Decidable (∀ c ∈ t.siblings id, t.collides c id = false))

/-- No two siblings collide, unless one of them is loose. -/
def ApartBut (t : Tree) (loose : List ElementId) : Prop :=
  ∀ holder a b, a ∈ t.children holder → b ∈ t.children holder → a ≠ b → a ∉ loose →
    b ∉ loose →
    t.collides a b = false

/-- Siblings are the other children of the holder. -/
theorem WellLinked.mem_siblings_iff (hwl : WellLinked t) {holder a b : ElementId}
    (hb : b ∈ t.children holder) :
    a ∈ t.siblings b ↔ a ∈ t.children holder ∧ a ≠ b := by
  rw [siblings, (hwl.mem_children_iff holder b).mp hb]
  simp

/-- Siblings are apart when they are but for some, and those have no rivals. -/
theorem WellLinked.siblingsApart_iff_apartBut (hwl : WellLinked t)
    (loose : List ElementId) :
    t.SiblingsApart ↔ t.ApartBut loose ∧ ∀ m ∈ loose, t.Unrivalled m := by
  constructor
  · intro h
    have hall : ∀ holder a b, a ∈ t.children holder →
      b ∈ t.children holder → a ≠ b →
        t.collides a b = false := fun holder a b ha hb hne =>
          (h holder).forall ha hb hne
    refine ⟨fun holder a b ha hb hne _ _ => hall holder a b ha hb hne,
      fun m _ c hc => ?_⟩
    cases hp : t.parent? m with
    | none =>
        rw [siblings, hp] at hc
        cases hc
    | some holder =>
        have hm := (hwl.mem_children_iff holder m).mpr hp
        obtain ⟨hc, hne⟩ := (hwl.mem_siblings_iff hm).mp hc
        exact hall holder c m hc hm hne
  · rintro ⟨hbut, hloose⟩ holder
    refine (List.Nodup.pairwise_of_forall_ne (hwl.nodup_children holder)
      fun a ha b hb hne => ?_)
    by_cases hma : a ∈ loose
    · rw [collides_comm]
      exact hloose a hma b ((hwl.mem_siblings_iff ha).mpr ⟨hb, hne.symm⟩)
    · by_cases hmb : b ∈ loose
      · exact hloose b hmb a ((hwl.mem_siblings_iff hb).mpr ⟨ha, hne⟩)
      · exact hbut holder a b ha hb hne hma hmb

/-- Siblings whose faces are as they were collide as they did. -/
theorem collides_congr {a b a' b' : ElementId} (ha : t'.face? a' = t.face? a)
    (hb : t'.face? b' = t.face? b) : t'.collides a' b' = t.collides a b := by
  rw [collides_eq_face, collides_eq_face, ha, hb]

/-- A change by which no one gets a sibling, and only loose members another
    face. -/
theorem ApartBut.of_faces (h : t.ApartBut loose)
    (hchildren : ∀ holder, ∀ x ∈ t'.children holder, x ∈ t.children holder)
    (hface : ∀ holder, ∀ x ∈ t.children holder, x ∉ loose →
      t'.face? x = t.face? x) : t'.ApartBut loose := by
  intro holder a b ha hb hne hma hmb
  have ha' := hchildren holder a ha
  have hb' := hchildren holder b hb
  rw [collides_congr (hface holder a ha' hma) (hface holder b hb' hmb)]
  exact h holder a b ha' hb' hne hma hmb

/-! ## Making, joining and leaving -/

/-- A new element stands beside nothing yet. -/
theorem ApartBut.push (h : t.ApartBut loose) (hwl : WellLinked t) {e : Element}
    (hchildren : e.children = []) : (t.push e).ApartBut loose := by
  refine h.of_faces (fun holder x hx => ?_) fun holder x hx _ => ?_
  · rwa [children_push hchildren] at hx
  · obtain ⟨ex, hex, -⟩ := hwl.exists_of_mem_children hx
    exact face?_push hwl hchildren (by rw [hex]; rfl)

/-- What joins a holder has been compared with its siblings. A method gets
    another face from parameters. -/
theorem ApartBut.attach {slot : Slot} {holder : ElementId} {ids : List ElementId}
    (h : t.ApartBut loose) (hinsert : Insertable t slot holder ids)
    (hloose : slot = .parameters → holder ∈ loose) :
    (t.attach holder ids).ApartBut loose := by
  have hface : ∀ x, x ∉ loose → (t.attach holder ids).face? x = t.face? x := by
    intro x hx
    by_cases hslot : slot = .parameters
    · have hne : x ≠ holder := fun heq => hx (heq ▸ hloose hslot)
      refine (relinked_attach t holder ids).face?_eq ?_
      rw [hinsert.childrenOfKind_attach, if_neg hne]
    · exact hinsert.face?_attach hslot x
  have hmembers : ∀ a b, a ∈ ids → b ∈ ids → a ≠ b → t.collides a b = false :=
    fun a b ha hb hne =>
      hinsert.apart_members.forall ha hb hne
  intro x a b ha hb hne hma hmb
  rw [collides_congr (hface a hma) (hface b hmb)]
  rw [hinsert.children_attach] at ha hb
  by_cases hx : x = holder
  · rw [if_pos hx, List.mem_append] at ha hb
    rcases ha with ha | ha <;> rcases hb with hb | hb
    · exact h holder a b ha hb hne hma hmb
    · exact hinsert.apart_children b hb a ha
    · rw [collides_comm]
      exact hinsert.apart_children a ha b hb
    · exact hmembers a b ha hb hne
  · rw [if_neg hx] at ha hb
    exact h x a b ha hb hne hma hmb

/-- What leaves a holder leaves the faces of the others alone, unless it is a
    parameter. -/
theorem ApartBut.detach {holder child : ElementId} (h : t.ApartBut loose)
    (hwl : WellLinked t) (hc : child ∈ t.children holder)
    (hloose : t.kind? child = some .parameter → holder ∈ loose) :
    (t.detach holder child).2.ApartBut loose := by
  refine h.of_faces (fun x a ha => ?_) fun _ x _ hx =>
    (relinked_detach hc).face?_eq ?_
  · rw [children_detach hc] at ha
    by_cases hx : x = holder
    · rw [if_pos hx] at ha
      exact hx ▸ List.mem_of_mem_erase ha
    · rwa [if_neg hx] at ha
  · by_cases hkind : t.kind? child = some .parameter
    · have hne : x ≠ holder := fun heq => hx (heq ▸ hloose hkind)
      rw [childrenOfKind, childrenOfKind, children_detach hc, if_neg hne]
      exact List.filter_congr fun c _ => by rw [(relinked_detach hc).kind?_eq]
    · exact childrenOfKind_detach hwl hc hkind x

/-! ## Renaming -/

/-- The methods with a parameter whose type is bound to a declaration. -/
def methodsTaking (t : Tree) (declaration : ElementId) : List ElementId :=
  t.ids.filter fun m => (t.childrenOfKind m .parameter).any fun p =>
    (t.parameterType? p).any fun r => r.definition? = some declaration

/-- A reference that is bound elsewhere shows what it showed. -/
theorem name_rename_shownName (t : Tree) (name : String) {id : ElementId}
    {r : TypeRef} (h : r.definition? ≠ some id) :
    (r.rename (t.shownName id name)).name = r.name
      ∧ (r.rename (t.shownName id name)).isCollection = r.isCollection := by
  obtain ⟨shown, target, isNullable, isCollection⟩ := r
  rw [TypeRef.rename]
  exact ⟨if_neg fun hbound => h hbound.2, rfl⟩

/-- A rename leaves the face of an element alone that is not renamed and takes
    nothing that is. -/
theorem face?_rename (hwl : WellLinked t) {id x : ElementId} (name : String)
    (hx : x ≠ id) (htakes : x ∉ t.methodsTaking id) :
    (t.rename id name).face? x = t.face? x := by
  have hchanged := changedBy_rename hwl id name
  have hsignature : (t.rename id name).signature x = t.signature x := by
    rw [signature_eq_filterMap, signature_eq_filterMap,
      (samePlaces_rename t id name).childrenOfKind_eq]
    refine List.filterMap_congr fun p hp => ?_
    rw [parameterType?, parameterType?, hchanged.get?_eq]
    cases hg : t.get? p with
    | none => rfl
    | some e =>
        rw [Option.map_some, Option.bind_some, Option.bind_some,
          parameterType?_renamedElement]
        cases hr : e.parameterType? with
        | none => rfl
        | some r =>
            have hfree : r.definition? ≠ some id := by
              intro hbound
              have hmem : x ∈ t.ids := by
                obtain ⟨ex, hex⟩ : ∃ ex, t.get? x = some ex := by
                  cases hgx : t.get? x with
                  | some ex => exact ⟨ex, rfl⟩
                  | none => simp [childrenOfKind, children, hgx] at hp
                exact List.mem_map.mpr ⟨x.index,
                  List.mem_range.mpr (index_lt_of_get? hex), rfl⟩
              refine htakes
                (List.mem_filter.mpr ⟨hmem, List.any_eq_true.mpr ⟨p, hp, ?_⟩⟩)
              simp [parameterType?, hg, hr, hbound]
            obtain ⟨hname, hcollection⟩ := t.name_rename_shownName name hfree
            simp only [Option.map_some, hname, hcollection]
  rw [face?, face?, hsignature, hchanged.get?_eq]
  cases t.get? x with
  | none => rfl
  | some e =>
      have hrole := congrArg Prod.fst (sketch_renamedElement t id name x e)
      have hname := congrArg (·.2.1) (renamedElement_frame t id name x e)
      rw [if_neg hx] at hname
      show some (Face.mk (t.renamedElement id name x e).role
        (t.renamedElement id name x e).name _) = _
      rw [show (t.renamedElement id name x e).role = e.role from hrole,
        show (t.renamedElement id name x e).name = e.name from hname]
      rfl

/-- After a renaming the renamed element, and methods that take it, may collide;
    all others stand apart as before. -/
theorem ApartBut.rename {id : ElementId} (h : t.ApartBut loose) (hwl : WellLinked t)
    (name : String) (hloose : ∀ m ∈ id :: t.methodsTaking id, m ∈ loose) :
    (t.rename id name).ApartBut loose := by
  refine h.of_faces (fun holder x hx => ?_) fun _ x _ hx =>
    face?_rename hwl name ?_ ?_
  · rwa [(samePlaces_rename t id name).children_eq] at hx
  · rintro rfl
    exact hx (hloose x List.mem_cons_self)
  · exact fun htakes => hx (hloose x (List.mem_cons_of_mem _ htakes))

/-! ## Copying -/

section copied

variable {source : ElementId} {copy : ElementId → ElementId}

/-- What was there shows the face that it showed. -/
theorem Copied.face?_old (h : Copied t t' source copy) (hwl : WellLinked t)
    {x : ElementId} (hx : x.index < t.size) : t'.face? x = t.face? x := by
  refine face?_congr (by rw [h.get?_old x hx])
    (h.childrenOfKind_old hwl hx .parameter) fun p hp => ?_
  rw [parameterType?, parameterType?,
    h.get?_old p (hwl.index_lt_of_mem_children (List.mem_filter.mp hp).1)]

/-- A copy shows what its source shows: names stay when references are pointed
    at copies. -/
theorem Copied.face?_copy (h : Copied t t' source copy) (hwl : WellLinked t)
    {s : ElementId} {e : Element} (hs : Within t source s)
    (he : t.get? s = some e) : t'.face? (copy s) = t.face? s := by
  have hsignature : t'.signature (copy s) = t.signature s := by
    rw [signature_eq_filterMap, signature_eq_filterMap,
      h.childrenOfKind_copy hwl hs he, List.filterMap_map]
    refine List.filterMap_congr fun p hp => ?_
    obtain ⟨ep, hep, hparent⟩ :=
      hwl.exists_of_mem_children (List.mem_filter.mp hp).1
    have hwithin : Within t source p :=
      hs.of_parent? (parent?_eq_some_iff.mpr ⟨ep, hep, hparent⟩)
    show (t'.parameterType? (copy p)).map _ = (t.parameterType? p).map _
    rw [parameterType?, parameterType?, h.get?_copy p ep hwithin hep, hep,
      Option.bind_some, Option.bind_some, copiedElement,
      Element.parameterType?_mapTypes, Option.map_map]
    show Option.map _ ep.parameterType? = _
    exact congrArg (Option.map · _) (funext fun r => by cases r; rfl)
  have hrole : (copiedElement source copy s e).role = e.role :=
    Element.role_mapTypes _ _
  have hname : (copiedElement source copy s e).name = e.name :=
    congrArg (·.2.1) (Copied.frame_copiedElement source copy s e)
  rw [face?, face?, h.get?_copy s e hs he, he, hsignature, Option.map_some,
    Option.map_some, hrole, hname]

/-- A copy of a subtree is apart where the subtree is. -/
theorem ApartBut.copied (h : t.ApartBut []) (hwl : WellLinked t)
    (hcopied : Copied t t' source copy) : t'.ApartBut [] := by
  intro holder a b ha hb hne _ _
  rcases hcopied.trichotomy holder with hold | ⟨s, e, hs, he, rfl⟩ | hnone
  · rw [hcopied.children_old hold] at ha hb
    have hold : ∀ x ∈ t.children holder, x.index < t.size := fun x hx =>
      hwl.index_lt_of_mem_children hx
    rw [collides_congr (hcopied.face?_old hwl (hold a ha))
      (hcopied.face?_old hwl (hold b hb))]
    exact h holder a b ha hb hne List.not_mem_nil List.not_mem_nil
  · rw [hcopied.children_copy hs he] at ha hb
    obtain ⟨x, hx, rfl⟩ := List.mem_map.mp ha
    obtain ⟨y, hy, rfl⟩ := List.mem_map.mp hb
    have hface : ∀ x ∈ t.children s, t'.face? (copy x) = t.face? x := by
      intro x hx
      obtain ⟨ex, hex, hparent⟩ := hwl.exists_of_mem_children hx
      exact hcopied.face?_copy hwl
        (hs.of_parent? (parent?_eq_some_iff.mpr ⟨ex, hex, hparent⟩)) hex
    rw [collides_congr (hface x hx) (hface y hy)]
    exact h s x y hx hy (fun heq => hne (congrArg copy heq)) List.not_mem_nil
      List.not_mem_nil
  · rw [children, hnone] at ha
    cases ha

end copied

end Tree

/-! ## Calls -/

namespace Edit

open CodeModel.Tree

/-- A well-linked tree whose siblings are apart, some of them aside. -/
def LinkedApart (loose : List ElementId) (t : Tree) : Prop :=
  WellLinked t ∧ t.ApartBut loose

variable {loose : List ElementId}

/-- Making an element makes no collision. -/
theorem apart_create {e : Element} (htoken : e.TokenFits) :
    Keeps (LinkedApart loose) (create e) := by
  refine Keeps.changeWith fun t id t' h hok => ?_
  split at hok
  · cases hok
  · obtain ⟨-, rfl⟩ := Prod.mk.inj (Except.ok.inj hok)
    exact ⟨h.1.push rfl rfl (Element.tokenFits_detached htoken), h.2.push h.1 rfl⟩

/-- A slot takes nothing that collides. A parameter, though, changes the
    signature of its method. -/
theorem apart_add {slot : Slot} {holder : ElementId} {ids : List ElementId}
    (hloose : slot = .parameters → holder ∈ loose) :
    Keeps (LinkedApart loose) (add slot holder ids) := by
  refine Keeps.change fun t t' h hok => ?_
  obtain ⟨hinsertable, rfl⟩ := insertable_of_insert h.1 hok
  exact ⟨h.1.attach hinsertable, h.2.attach hinsertable hloose⟩

/-- Making and putting in do not either, with the same exception. -/
theorem apart_addNew {slot : Slot} {holder : ElementId} {e : Element}
    (htoken : e.TokenFits) (hloose : slot = .parameters → holder ∈ loose) :
    Keeps (LinkedApart loose) (addNew slot holder e) :=
  keeps_addNew_of (apart_create htoken) fun _ => apart_add hloose

theorem apart_addNamespace (start : ElementId) (path : String) :
    Keeps (LinkedApart loose) (addNamespace start path) :=
  keeps_addNamespace_of
    (fun _ segment => apart_addNew (tokenFits_ofNamespace segment) nofun) start path

/-- A change that leaves frames, roles and the types of parameters alone keeps
    siblings apart. -/
theorem LinkedApart.quiet {t t' : Tree} (h : LinkedApart loose t)
    {F : ElementId → Element → Element} (hchanged : ChangedBy F t t')
    (hquiet : ∀ x e, Element.Quiet e (F x e)) : LinkedApart loose t' := by
  have hframes : SameFrames t t' :=
    hchanged.sameFrames fun x e _ => (hquiet x e).frame_eq
  refine ⟨hframes.wellLinked h.1, h.2.of_faces (fun x a ha => ?_) fun _ x _ _ => ?_⟩
  · rwa [hframes.samePlaces.children_eq] at ha
  · refine face?_congr ?_ (hframes.samePlaces.childrenOfKind_eq x .parameter)
      fun p _ => ?_
    · rw [hchanged.get?_eq, Option.map_map]
      refine congrArg (Option.map · _) (funext fun e =>
        Prod.ext (hquiet x e).role_eq ?_)
      exact congrArg (·.2.1) (hquiet x e).frame_eq
    · rw [parameterType?, parameterType?, hchanged.get?_eq, Option.bind_map]
      exact congrArg (Option.bind _)
        (funext fun e => (hquiet p e).parameterType?_eq)

/-- Imports do not bear on collisions. -/
theorem apart_addImports (target : ElementId) (new : List Import) :
    Keeps (LinkedApart loose) (addImports target new) := by
  refine Keeps.changeWith fun t n t' h hok => ?_
  obtain ⟨e, -, -, rfl⟩ := run_addImports_eq_ok (run_changeWith_eq_ok_iff.mpr hok)
  refine h.quiet (changedBy_modify t target _) fun x e => ?_
  by_cases hx : x = target
  · rw [if_pos hx]
    exact Element.quiet_mapImports _ e
  · rw [if_neg hx]
    exact Element.quiet_refl e

theorem apart_rebindImports (scope : ElementId) :
    Keeps (LinkedApart loose) (rebindImports scope) := by
  refine Keeps.changeWith fun t n t' h hok => ?_
  obtain ⟨-, rfl⟩ := Prod.mk.inj (Except.ok.inj hok)
  exact h.quiet (changedBy_rebindImports t scope) fun _ e =>
    Element.quiet_mapImports _ e

/-- A copy stands apart within as its source does. -/
theorem apart_cloneSubtree (source : ElementId) :
    Keeps (LinkedApart []) (cloneSubtree source) := by
  refine Keeps.changeWith fun t id t' h hok => ?_
  obtain ⟨-, -, copy, hcopied⟩ := copied_of_cloneSubtree h.1 hok
  exact ⟨h.1.copied hcopied, h.2.copied h.1 hcopied⟩

/-- Taking out makes no collision, except by a parameter, which changes the
    signature of its method. -/
theorem apart_remove {t : Tree} {holder child : ElementId} (h : LinkedApart loose t)
    (hloose : t.kind? child = some .parameter → holder ∈ loose) :
    LinkedApart loose (treeOf ((remove holder child).run t)) := by
  show LinkedApart loose (t.detach holder child).2
  by_cases hc : child ∈ t.children holder
  · exact ⟨h.1.detach hc, h.2.detach h.1 hc hloose⟩
  · rw [detach, if_neg hc]
    exact h

/-- A renaming leaves loose what it renames and the methods that take it. -/
theorem apart_setName {t : Tree} {id : ElementId} {name : String}
    (h : LinkedApart loose t) (hloose : ∀ m ∈ id :: t.methodsTaking id, m ∈ loose) :
    LinkedApart loose (treeOf ((setName id name).run t)) := by
  rcases run_change (fun t => t.setName id name) t with ⟨t', -, hrun⟩ | ⟨e, -, hrun⟩
  · obtain ⟨-, -, -, rfl⟩ := run_setName_eq_ok hrun
    rw [setName, hrun]
    exact ⟨h.1.rename id name, h.2.rename h.1 name hloose⟩
  · rw [setName, hrun]
    exact h

end Edit

namespace Operation

open CodeModel.Tree

/-- The members that a call gives another name or signature where they stand, if
    it is not refused. -/
def relabelled (t : Tree) : Operation → List ElementId
  | add .parameters method _ => [method]
  | addNew .parameters method _ => [method]
  | remove method (some child) =>
      if t.kind? child = some .parameter then [method] else []
  | setName id _ => id :: t.methodsTaking id
  | _ => []

/-- One call, refused or not, lets no siblings collide but those that it
    relabels. -/
theorem apartBut_step {t : Tree} (op : Operation) (hwl : WellLinked t)
    (h : t.SiblingsApart) : (step t op).ApartBut (op.relabelled t) := by
  -- What is apart is apart whatever is loose.
  have hapart : ∀ loose, Edit.LinkedApart loose t := fun loose =>
    ⟨hwl, fun holder a b ha hb hne _ _ => (h holder).forall ha hb hne⟩
  cases op with
  | create c => exact ((Edit.apart_create c.tokenFits).discard t (hapart _)).2
  | addNamespace start path =>
      exact ((Edit.apart_addNamespace start path).discard t (hapart _)).2
  | add slot holder ids =>
      refine (Edit.apart_add (fun hs => ?_) t (hapart _)).2
      subst hs
      exact List.mem_singleton_self holder
  | addNew slot holder c =>
      refine ((Edit.apart_addNew c.tokenFits fun hs => ?_).discard t (hapart _)).2
      subst hs
      exact List.mem_singleton_self holder
  | addImports target new =>
      exact ((Edit.apart_addImports target new).discard t (hapart _)).2
  | remove holder child? =>
      cases child? with
      | none => exact (hapart _).2
      | some child =>
          rw [step, apply, Edit.treeOf_run_discard]
          refine (Edit.apart_remove (hapart _) fun hkind => ?_).2
          rw [relabelled, if_pos hkind]
          exact List.mem_singleton_self holder
  | cloneSubtree source =>
      exact ((Edit.apart_cloneSubtree source).discard t (hapart _)).2
  | setName id name => exact (Edit.apart_setName (hapart _) fun m hm => hm).2
  | rebindImports scope =>
      exact ((Edit.apart_rebindImports scope).discard t (hapart _)).2

/-- After a call siblings are apart exactly when none of the members that it
    relabels has a rival. -/
theorem siblingsApart_step_iff {t : Tree} (op : Operation) (hwl : WellLinked t)
    (hstep : WellLinked (step t op)) (h : t.SiblingsApart) :
    (step t op).SiblingsApart ↔
      ∀ m ∈ op.relabelled t, (step t op).Unrivalled m := by
  rw [hstep.siblingsApart_iff_apartBut (op.relabelled t)]
  exact and_iff_right (apartBut_step op hwl h)

theorem siblingsApart_initial : initial.SiblingsApart := by decide

/-- Over a run from the tree of the root alone, siblings are apart after every
    call exactly when every call leaves each member that it relabels
    unrivalled. -/
theorem siblingsApart_runAll_iff (ops : List Operation) :
    (∀ done, done <+: ops → (runAll done initial).SiblingsApart) ↔
      ∀ done op, done ++ [op] <+: ops →
        ∀ m ∈ op.relabelled (runAll done initial),
          (runAll (done ++ [op]) initial).Unrivalled m := by
  have hlinked : ∀ done, WellLinked (runAll done initial) := fun done =>
    (fullyNamed_runAll done fullyNamed_initial).toWellLinked
  have hlast : ∀ done op, runAll (done ++ [op]) initial
      = step (runAll done initial) op := fun done op =>
    List.foldl_append
  constructor
  · intro h done op hprefix m hm
    exact (((hlinked _).siblingsApart_iff_apartBut _).mp (h _ hprefix)).2 m hm
  · intro h done
    induction done using List.reverseRecOn with
    | nil => exact fun _ => siblingsApart_initial
    | append_singleton done op ih =>
        intro hprefix
        have hbefore := ih ((List.prefix_append done [op]).trans hprefix)
        rw [hlast]
        refine (siblingsApart_step_iff op (hlinked done) ?_ hbefore).mpr ?_
        · exact hlast done op ▸ hlinked (done ++ [op])
        · exact hlast done op ▸ h done op hprefix

/-- Calls that put two classes into a namespace, then call the second as the
    first. -/
def renamingBesideTwin : List Operation :=
  [.addNamespace ⟨0⟩ "shop",
    .addNew .classes ⟨1⟩ (.classDecl "A" .custom),
    .addNew .classes ⟨1⟩ (.classDecl "B" .custom),
    .setName ⟨3⟩ "A"]

/-- A class in a namespace that has a method, and an overload of it with one
    more parameter. -/
def overloading : List Operation :=
  [.addNamespace ⟨0⟩ "shop",
    .addNew .classes ⟨1⟩ (.classDecl "Client" .custom),
    .addNew .methods ⟨2⟩ (.method "get" .requestExecutor (.external "void")),
    .create (.method "get" .requestExecutor (.external "void")),
    .addNew .parameters ⟨4⟩ (.parameter "id" .custom (.external "string")),
    .add .methods ⟨2⟩ [⟨4⟩]]

/-- Calls that give the shorter of two overloads the parameter that the other
    has. -/
def growingOverload : List Operation :=
  overloading
    ++ [.addNew .parameters ⟨3⟩ (.parameter "id" .custom (.external "string"))]

/-- Calls that take the one parameter out by which two overloads differ. -/
def shrinkingOverload : List Operation :=
  overloading ++ [.remove ⟨4⟩ (some ⟨5⟩)]

/-- Calls that rename a class to the name of another far off, while overloads
    are told apart by the two. -/
def renamingOverloadedClass : List Operation :=
  [.addNamespace ⟨0⟩ "a.b",
    .addNew .classes ⟨1⟩ (.classDecl "X" .model),
    .addNew .classes ⟨2⟩ (.classDecl "Y" .model),
    .addNew .classes ⟨1⟩ (.classDecl "Client" .custom),
    .create (.method "put" .requestExecutor (.external "void")),
    .addNew .parameters ⟨6⟩ (.parameter "item" .custom (.declared "X" ⟨3⟩)),
    .create (.method "put" .requestExecutor (.external "void")),
    .addNew .parameters ⟨8⟩ (.parameter "item" .custom (.declared "Y" ⟨4⟩)),
    .add .methods ⟨5⟩ [⟨6⟩, ⟨8⟩],
    .setName ⟨4⟩ "X"]

/-- The last of these calls is the first after which siblings collide. -/
def EndsInCollision (ops : List Operation) : Prop :=
  (∀ done ∈ ops.dropLast.inits, (runAll done initial).SiblingsApart)
    ∧ ¬ (runAll ops initial).SiblingsApart

instance : DecidablePred EndsInCollision := fun ops =>
  inferInstanceAs (Decidable
    ((∀ done ∈ ops.dropLast.inits, _) ∧ ¬ (runAll ops initial).SiblingsApart))

/-- Each way to relabel a member can end in a collision. -/
theorem exists_collision_of_runAll :
    EndsInCollision renamingBesideTwin ∧ EndsInCollision growingOverload
      ∧ EndsInCollision shrinkingOverload
      ∧ EndsInCollision renamingOverloadedClass := by
  decide +kernel

end Operation

end CodeModel
