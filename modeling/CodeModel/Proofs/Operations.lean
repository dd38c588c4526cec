import CodeModel.Proofs.Copies
import CodeModel.Proofs.EditRuns
import CodeModel.Proofs.Renames
import CodeModel.Tree.Operation

/-!
# What every client keeps

Whatever a client calls in whatever order, and however many of the calls are
refused, the tree stays well linked and every element but the root has a name,
detached elements included.

* **`fullyNamed_step`**: one call, by the calls.
* **`wellFormed_runAll`**: any sequence of calls that starts from the tree of
  the root alone.
-/

namespace CodeModel

/-! ## Elements as they are built -/

namespace Element

/-- The header of a class shows its name, held or not. -/
theorem tokenFits_detached {e : Element} (h : e.TokenFits) : e.detached.TokenFits :=
  h

theorem frame_mapMethod (f : MethodDecl → MethodDecl) (e : Element) :
    (e.mapMethod f).frame = e.frame :=
  frame_mapContent (by rintro (_ | _ | _ | _ | _ | _ | _) <;> rfl)
    (by rintro (_ | _ | _ | _ | _ | _ | _) <;> rfl) e

theorem frame_setDefault (value : Option String) (e : Element) :
    (e.setDefault value).frame = e.frame :=
  frame_mapContent (by rintro (_ | _ | _ | _ | _ | _ | _) <;> rfl)
    (by rintro (_ | _ | _ | _ | _ | _ | _) <;> rfl) e

theorem frame_setSerializationName (name : Option String) (e : Element) :
    (e.setSerializationName name).frame = e.frame :=
  frame_mapContent (by rintro (_ | _ | _ | _ | _ | _ | _) <;> rfl)
    (by rintro (_ | _ | _ | _ | _ | _ | _) <;> rfl) e

end Element

/-- However an element is built, its header shows its name. -/
theorem Construction.tokenFits (c : Construction) : c.element.TokenFits := by
  induction c with
  | classDecl name kind => exact fun d hd => Option.some.inj hd ▸ rfl
  | described c text ih => exact ih
  | asynchronous c ih =>
      exact Element.tokenFits_of_frame_eq (Element.frame_mapMethod _ _) ih
  | defaulted c value ih =>
      exact Element.tokenFits_of_frame_eq (Element.frame_setDefault _ _) ih
  | serialized c name ih =>
      exact Element.tokenFits_of_frame_eq (Element.frame_setSerializationName _ _)
        ih
  | inheriting c type ih =>
      refine Element.tokenFits_of_frame_eq (Element.frame_mapClass ?_ _) ih
      exact fun _ => rfl
  | _ =>
      intro d hd
      cases hd

namespace Tree

variable {t t' : Tree}

/-- A well-linked tree whose root has no name and all of whose other elements
    have one, attached or not. -/
structure FullyNamed (t : Tree) : Prop extends WellLinked t where
  name?_root : t.name? t.root = some ""
  name_ne_empty : ∀ id e, t.get? id = some e → id ≠ t.root → e.name ≠ ""

/-- A fully named tree is well-formed, attached elements being some of all. -/
theorem FullyNamed.wellFormed (h : FullyNamed t) : WellFormed t where
  toWellLinked := h.toWellLinked
  name?_root := h.name?_root
  name_ne_empty id e he ha := by
    refine h.name_ne_empty id e he ?_
    rintro rfl
    exact h.acyclic _ ha

/-- The tree at the beginning is a root without a name. -/
theorem fullyNamed_initial : FullyNamed initial where
  toWellLinked := wellFormed_initial.toWellLinked
  name?_root := rfl
  name_ne_empty := by
    rintro ⟨i⟩ e he hne
    cases i with
    | zero => exact absurd rfl hne
    | succ i => simp [initial, get?] at he

/-- The links that an element names lead to elements of the arena. -/
theorem WellLinked.index_lt_of_link (hwl : WellLinked t) {id : ElementId}
    {e : Element} (he : t.get? id = some e) :
    (∀ c ∈ e.children, c.index < t.size) ∧ ∀ p, e.parent = some p →
      p.index < t.size := by
  constructor
  · intro c hc
    have hp :=
      (hwl.mem_children_iff id c).mp (mem_children_iff_exists.mpr ⟨e, he, hc⟩)
    obtain ⟨ec, hec, -⟩ := parent?_eq_some_iff.mp hp
    exact index_lt_of_get? hec
  · intro p hp
    exact hwl.index_lt_of_parent? (parent?_eq_some_iff.mpr ⟨e, he, hp⟩)

/-! ## Changes of a tree -/

/-- A change that keeps links well and names as they are keeps a tree fully
    named. -/
theorem FullyNamed.of_names (h : FullyNamed t) (hwl : WellLinked t')
    (hroot : t'.root = t.root) (hname : ∀ id, t'.name? id = t.name? id) :
    FullyNamed t' where
  toWellLinked := hwl
  name?_root := by rw [hroot, hname]; exact h.name?_root
  name_ne_empty id e' he' hne := by
    have hn := hname id
    rw [name?, he'] at hn
    obtain ⟨e, he, heq⟩ := Option.map_eq_some_iff.mp hn.symm
    have hkept := h.name_ne_empty id e he (hroot ▸ hne)
    rwa [heq] at hkept

/-- Names are told by frames. -/
theorem FullyNamed.sameFrames (h : FullyNamed t) (hsame : SameFrames t t') :
    FullyNamed t' :=
  h.of_names (hsame.wellLinked h.toWellLinked) hsame.root_eq hsame.name?_eq

/-- Other links leave names alone. -/
theorem FullyNamed.relinked (h : FullyNamed t) (hsame : Relinked t t')
    (hwl : WellLinked t') : FullyNamed t' :=
  h.of_names hwl hsame.root_eq hsame.name?_eq

/-- A new element has to have a name. -/
theorem FullyNamed.push (h : FullyNamed t) {e : Element} (hparent : e.parent = none)
    (hchildren : e.children = []) (htoken : e.TokenFits) (hname : e.name ≠ "") :
    FullyNamed (t.push e) := by
  obtain ⟨er, her, hempty⟩ := Option.map_eq_some_iff.mp h.name?_root
  exact
    { toWellLinked := h.toWellLinked.push hparent hchildren htoken
      name?_root := by
        show (t.push e).name? t.root = some ""
        rw [name?, get?_push_of_get? her, Option.map_some, hempty]
      name_ne_empty := fun id e' he' hne => by
        rw [get?_push] at he'
        by_cases hid : id = t.nextId
        · rw [if_pos hid] at he'
          exact Option.some.inj he' ▸ hname
        · rw [if_neg hid] at he'
          exact h.name_ne_empty id e' he' hne }

/-- A renamed element has the name that it is given, and that is not empty. -/
theorem FullyNamed.rename (h : FullyNamed t) {id : ElementId} {name : String}
    (hname : name ≠ "") (hroot : id ≠ t.root) : FullyNamed (t.rename id name) where
  toWellLinked := h.toWellLinked.rename id name
  name?_root := by
    rw [(samePlaces_rename t id name).root_eq, name?_rename h.toWellLinked,
      if_neg fun heq => hroot heq.symm]
    exact h.name?_root
  name_ne_empty x e' he' hne := by
    have hn := name?_rename h.toWellLinked id name x
    rw [name?, he', Option.map_some] at hn
    by_cases hx : x = id
    · rw [if_pos hx] at hn
      obtain ⟨_, -, heq⟩ := Option.map_eq_some_iff.mp hn.symm
      exact heq ▸ hname
    · rw [if_neg hx] at hn
      obtain ⟨e, he, heq⟩ := Option.map_eq_some_iff.mp hn.symm
      rw [← heq]
      exact h.name_ne_empty x e he ((samePlaces_rename t id name).root_eq ▸ hne)

/-- A copy is named like its source, which is not the root. -/
theorem FullyNamed.copied (h : FullyNamed t) {source : ElementId}
    {copy : ElementId → ElementId} (hne : source ≠ t.root)
    (hc : Copied t t' source copy) : FullyNamed t' := by
  obtain ⟨er, her, hempty⟩ := Option.map_eq_some_iff.mp h.name?_root
  exact
    { toWellLinked := h.toWellLinked.copied hc
      name?_root := by
        rw [hc.root_eq, name?, hc.get?_old _ (index_lt_of_get? her), her,
          Option.map_some, hempty]
      name_ne_empty := fun id e' he' hid => by
        rcases hc.trichotomy id with hlt | ⟨s, e, hs, he, rfl⟩ | hnone
        · rw [hc.get?_old id hlt] at he'
          exact h.name_ne_empty id e' he' (hc.root_eq ▸ hid)
        · rw [hc.get?_copy s e hs he] at he'
          have hname :=
            congrArg (·.2.1) (Copied.frame_copiedElement source copy s e)
          dsimp only [Element.frame] at hname
          rw [← Option.some.inj he', hname]
          refine h.name_ne_empty s e he ?_
          rintro rfl
          exact hs.elim (fun heq => hne heq.symm) h.toWellLinked.not_ancestor_root
        · rw [hnone] at he'
          cases he' }

end Tree

/-! ## Calls -/

namespace Edit

open CodeModel.Tree

/-- Forgetting the result changes nothing of the tree. -/
theorem treeOf_run_discard {α : Type} (m : Edit α) (t : Tree) :
    treeOf ((discard m : Edit Unit).run t) = treeOf (m.run t) := by
  show treeOf (EStateM.map (fun _ => PUnit.unit) m t) = treeOf (m t)
  rw [EStateM.map]
  cases m t <;> rfl

theorem Keeps.discard {α : Type} {P : Tree → Prop} {m : Edit α} (h : Keeps P m) :
    Keeps P (discard m) :=
  fun t ht => (treeOf_run_discard m t).symm ▸ h t ht

/-- Making an element keeps a tree fully named, since nothing without a name is
    made. -/
theorem keeps_create {e : Element} (htoken : e.TokenFits) :
    Keeps FullyNamed (create e) := by
  refine Keeps.changeWith fun t id t' h hok => ?_
  split at hok
  · cases hok
  next hname =>
    obtain ⟨-, rfl⟩ := Prod.mk.inj (Except.ok.inj hok)
    refine h.push rfl rfl (Element.tokenFits_detached htoken) fun hempty => hname ?_
    show e.name.isEmpty = true
    rw [show e.name = "" from hempty]
    rfl

/-- Putting elements into a slot gives no names. -/
theorem keeps_add (slot : Slot) (holder : ElementId) (ids : List ElementId) :
    Keeps FullyNamed (add slot holder ids) := by
  refine Keeps.change fun t t' h hok => ?_
  obtain ⟨hinsertable, rfl⟩ := insertable_of_insert h.toWellLinked hok
  exact h.relinked (relinked_attach t holder ids)
    (h.toWellLinked.attach hinsertable)

/-- What making an element and putting it into a slot keep, doing both keeps. -/
theorem keeps_addNew_of {P : Tree → Prop}
    {slot : Slot} {holder : ElementId} {e : Element} (hcreate : Keeps P (create e))
    (hadd : ∀ id, Keeps P (add slot holder [id])) :
    Keeps P (addNew slot holder e) :=
  hcreate.bind fun id => (hadd id).bind fun _ => Keeps.pure id

/-- What making a namespace in another keeps, entering a path keeps. -/
theorem keeps_addNamespace_of {P : Tree → Prop} (hnew : ∀ holder segment, Keeps P
      (addNew .namespaces holder (Element.ofNamespace segment))) (start : ElementId)
    (path : String) : Keeps P (addNamespace start path) := by
  have henter : ∀ holder segment, Keeps P (enterNamespace holder segment) := by
    intro holder segment
    rw [enterNamespace]
    dsimp only
    split
    · exact Keeps.throw _
    · refine Keeps.get.bind fun t => ?_
      split
      · exact Keeps.pure _
      · exact hnew holder segment
  rw [addNamespace]
  dsimp only
  split
  · exact Keeps.throw _
  · exact (Keeps.inspect _).bind fun _ => Keeps.get.bind fun t =>
      Keeps.foldlM henter _ start

/-- Making and putting in keep names, one after another. -/
theorem keeps_addNew (slot : Slot) (holder : ElementId) {e : Element}
    (htoken : e.TokenFits) : Keeps FullyNamed (addNew slot holder e) :=
  keeps_addNew_of (keeps_create htoken) fun id => keeps_add slot holder [id]

theorem tokenFits_ofNamespace (name : String) :
    (Element.ofNamespace name).TokenFits := by
  intro d hd
  cases hd

/-- Every segment of a path is made with its name. -/
theorem keeps_addNamespace (start : ElementId) (path : String) :
    Keeps FullyNamed (addNamespace start path) :=
  keeps_addNamespace_of (fun holder segment =>
    keeps_addNew _ holder (tokenFits_ofNamespace segment)) start path

/-- Imports are not names of elements. -/
theorem keeps_addImports (target : ElementId) (new : List Import) :
    Keeps FullyNamed (addImports target new) := by
  refine Keeps.changeWith fun t n t' h hok => ?_
  split_ifs at hok
  cases he : t.get? target with
  | none => simp [he] at hok
  | some e =>
      cases hi : e.imports? with
      | none => simp [he, hi] at hok
      | some block =>
          simp only [he, hi, Except.ok.injEq, Prod.mk.injEq] at hok
          obtain ⟨-, rfl⟩ := hok
          exact h.sameFrames
            (sameFrames_modify t target (Element.frame_mapImports _))

/-- Taking out takes no name away. -/
theorem keeps_remove (holder child : ElementId) :
    Keeps FullyNamed (remove holder child) := by
  refine Keeps.changeWith fun t found t' h hok => ?_
  by_cases hc : child ∈ t.children holder
  · have ht' : t' = (t.detach holder child).2 :=
      congrArg Prod.snd (Except.ok.inj hok).symm
    rw [ht']
    exact h.relinked (relinked_detach hc) (h.toWellLinked.detach hc)
  · rw [detach, if_neg hc] at hok
    obtain ⟨-, rfl⟩ := Prod.mk.inj (Except.ok.inj hok)
    exact h

/-- A copy of a subtree is named throughout. -/
theorem keeps_cloneSubtree (source : ElementId) :
    Keeps FullyNamed (cloneSubtree source) := by
  refine Keeps.changeWith fun t id t' h hok => ?_
  obtain ⟨hne, -, copy, hcopied⟩ := copied_of_cloneSubtree h.toWellLinked hok
  exact h.copied hne hcopied

/-- Only a name that is not empty is given. -/
theorem keeps_setName (id : ElementId) (name : String) :
    Keeps FullyNamed (setName id name) := by
  refine Keeps.change fun t t' h hok => ?_
  rw [Tree.setName] at hok
  split_ifs at hok with hempty hroot
  cases he : t.get? id with
  | none => simp [he] at hok
  | some e =>
      simp only [he, Except.ok.injEq] at hok
      rw [← hok]
      refine h.rename (fun hname => hempty ?_) hroot
      rw [hname]
      rfl

/-- Naming imports anew names no element. -/
theorem keeps_rebindImports (scope : ElementId) :
    Keeps FullyNamed (rebindImports scope) := by
  refine Keeps.changeWith fun t n t' h hok => ?_
  obtain ⟨-, rfl⟩ := Prod.mk.inj (Except.ok.inj hok)
  exact h.sameFrames (sameFrames_rebindImports t scope)

end Edit

namespace Operation

open CodeModel.Tree

/-- One call keeps a tree fully named, whichever operation it is and whether or
    not it succeeds. -/
theorem keeps_apply (op : Operation) : Edit.Keeps FullyNamed op.apply := by
  cases op with
  | create c => exact (Edit.keeps_create c.tokenFits).discard
  | addNamespace start path => exact (Edit.keeps_addNamespace start path).discard
  | add slot holder ids => exact Edit.keeps_add slot holder ids
  | addNew slot holder c =>
      exact (Edit.keeps_addNew slot holder c.tokenFits).discard
  | addImports target new => exact (Edit.keeps_addImports target new).discard
  | remove holder child? =>
      cases child? with
      | none => exact Edit.Keeps.pure ()
      | some child => exact (Edit.keeps_remove holder child).discard
  | cloneSubtree source => exact (Edit.keeps_cloneSubtree source).discard
  | setName id name => exact Edit.keeps_setName id name
  | rebindImports scope => exact (Edit.keeps_rebindImports scope).discard

/-- One call, refused or not, keeps a tree fully named. -/
theorem fullyNamed_step {t : Tree} (op : Operation) (h : FullyNamed t) :
    FullyNamed (step t op) :=
  keeps_apply op t h

theorem fullyNamed_runAll {t : Tree} (ops : List Operation) (h : FullyNamed t) :
    FullyNamed (runAll ops t) := by
  induction ops generalizing t with
  | nil => exact h
  | cons op rest ih => exact ih (fullyNamed_step op h)

/-- Whatever a client calls, starting from the tree of the root alone: the tree
    is well formed, every element but the root has a name, and every link leads
    to an element. -/
theorem wellFormed_runAll (ops : List Operation) :
    WellFormed (runAll ops initial) ∧
      ∀ id e, (runAll ops initial).get? id = some e →
        (id ≠ (runAll ops initial).root → e.name ≠ "")
          ∧ (∀ c ∈ e.children, c.index < (runAll ops initial).size)
          ∧ ∀ p, e.parent = some p → p.index < (runAll ops initial).size := by
  have h := fullyNamed_runAll ops fullyNamed_initial
  refine ⟨h.wellFormed, fun id e he => ?_⟩
  obtain ⟨hchildren, hparent⟩ := h.toWellLinked.index_lt_of_link he
  exact ⟨h.name_ne_empty id e he, hchildren, hparent⟩

end Operation

end CodeModel
