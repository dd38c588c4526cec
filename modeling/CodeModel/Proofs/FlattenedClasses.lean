import CodeModel.Proofs.Flattening
import CodeModel.Proofs.Operations

/-!
# Trees after flattening

Flattening goes through a tree and gives one class after another what it
inherits. `Flattened t done s` says what is left of tree `t` after the elements
`done` had their turn: whatever was there stands where it stood under the name
it had, a class has gained properties of new names behind what it held
(`GainsProperties`), and what had its turn inherits from nothing.

* **`Flattened.step`**: one turn.
* **`flattenInheritance_induction`**: what every turn keeps, the traversal
  keeps.
* **`flattened_of_run`**: the whole traversal.

Main statement: `run_flattenInheritance_total`, whatever inherits from what, in
circles too, flattening ends and is not refused, and afterwards nothing attached
inherits.
-/

namespace CodeModel

open CodeModel.Tree

namespace Tree

variable {t s s' : Tree} {x : ElementId} {added done : List ElementId}

/-- From `t` to `s` an element has gained the children `added` after those that
    it had: new properties, whose names are those of no child that it had and no
    two the same. -/
structure GainsProperties (t s : Tree) (x : ElementId) (added : List ElementId) :
    Prop where
  children_eq : s.children x = t.children x ++ added
  new : ∀ c ∈ added, t.size ≤ c.index ∧ s.kind? c = some .property
  apart_former : ∀ c ∈ added, ∀ o ∈ t.children x, s.name? c ≠ s.name? o
  apart : added.Pairwise fun c d => s.name? c ≠ s.name? d

/-- With the children it had an element has gained nothing. -/
theorem gainsProperties_nil (h : s.children x = t.children x) :
    GainsProperties t s x [] where
  children_eq := by rw [h, List.append_nil]
  new := nofun
  apart_former := nofun
  apart := .nil

/-- What an element has gained it keeps as long as its children stay and keep
    their names and kinds. -/
theorem GainsProperties.trans (h : GainsProperties t s x added)
    (hchildren : s'.children x = s.children x)
    (hsame : ∀ c ∈ s.children x, s'.name? c = s.name? c ∧ s'.kind? c = s.kind? c) :
    GainsProperties t s' x added := by
  have hadded : ∀ c ∈ added, c ∈ s.children x := fun c hc =>
    h.children_eq ▸ List.mem_append_right _ hc
  have hformer : ∀ o ∈ t.children x, o ∈ s.children x := fun o ho =>
    h.children_eq ▸ List.mem_append_left _ ho
  exact
    { children_eq := hchildren.trans h.children_eq
      new := fun c hc => by
        rw [(hsame c (hadded c hc)).2]
        exact h.new c hc
      apart_former := fun c hc o ho => by
        rw [(hsame c (hadded c hc)).1, (hsame o (hformer o ho)).1]
        exact h.apart_former c hc o ho
      apart := h.apart.imp_of_mem fun {c d} hc hd hne => by
        rw [(hsame c (hadded c hc)).1, (hsame d (hadded d hd)).1]
        exact hne }

/-- Tree `s` is what is left of `t` after the elements `done` had their turn.
    What is new is a property; what was there is as it was, or is a class that
    had its turn, which took over copies and inherits from nothing. -/
structure Flattened (t : Tree) (done : List ElementId) (s : Tree) : Prop where
  wellLinked : WellLinked s
  root_eq : s.root = t.root
  size_le : t.size ≤ s.size
  index_lt : ∀ x ∈ done, x.index < t.size
  kind?_new : ∀ x e, t.size ≤ x.index → s.get? x = some e → e.kind = .property
  get?_old : ∀ x e, t.get? x = some e → s.get? x = some e ∨ x ∈ done
    ∧ e.kind = .classDecl ∧ ∃ copies, s.get? x = some (e.takeOver copies)
  flat : ∀ x ∈ done, s.parentClass? x = none
  gained : ∀ x, x.index < t.size → ∃ added, GainsProperties t s x added

/-- Before anything had its turn nothing has changed. -/
theorem flattened_nil (hwl : WellLinked t) : Flattened t [] t where
  wellLinked := hwl
  root_eq := rfl
  size_le := Nat.le_refl _
  index_lt := nofun
  kind?_new _ _ hx he := absurd (index_lt_of_get? he) (Nat.not_lt.mpr hx)
  get?_old _ _ he := Or.inl he
  flat := nofun
  gained _ _ := ⟨[], gainsProperties_nil rfl⟩

namespace Flattened

variable (h : Flattened t done s)

include h

/-- What was there keeps its name. -/
theorem name?_old (hx : x.index < t.size) : s.name? x = t.name? x := by
  obtain ⟨e, he⟩ := Option.isSome_iff_exists.mp ((get?_isSome_iff t x).mpr hx)
  rw [name?, name?, he]
  rcases h.get?_old x e he with hget | ⟨-, -, copies, hget⟩
  · rw [hget]
  · rw [hget]
    rfl

theorem parent?_old (hx : x.index < t.size) : s.parent? x = t.parent? x := by
  obtain ⟨e, he⟩ := Option.isSome_iff_exists.mp ((get?_isSome_iff t x).mpr hx)
  rw [parent?, parent?, he]
  rcases h.get?_old x e he with hget | ⟨-, -, copies, hget⟩
  · rw [hget]
  · rw [hget]
    rfl

theorem kind?_old (hx : x.index < t.size) : s.kind? x = t.kind? x := by
  obtain ⟨e, he⟩ := Option.isSome_iff_exists.mp ((get?_isSome_iff t x).mpr hx)
  rw [kind?, kind?, he]
  rcases h.get?_old x e he with hget | ⟨-, -, copies, hget⟩
  · rw [hget]
  · rw [hget]
    exact congrArg some (Element.kind_takeOver copies e)

theorem get?_pending (hx : x.index < t.size) (hnot : x ∉ done) :
    s.get? x = t.get? x := by
  obtain ⟨e, he⟩ := Option.isSome_iff_exists.mp ((get?_isSome_iff t x).mpr hx)
  rw [he]
  exact (h.get?_old x e he).resolve_right fun hdone => hnot hdone.1

/-- What was above an element is above it still. -/
theorem ancestor_of_ancestor {a b : ElementId} (hab : Ancestor t a b) :
    Ancestor s a b := by
  have hkeep : ∀ {x p}, t.parent? x = some p → s.parent? x = some p := by
    intro x p hp
    obtain ⟨e, he, -⟩ := parent?_eq_some_iff.mp hp
    rw [h.parent?_old (index_lt_of_get? he), hp]
  induction hab with
  | parent hp => exact .parent (hkeep hp)
  | above hp _ ih => exact .above (hkeep hp) ih

/-- What is above an element that was there was above it. -/
theorem ancestor_of_ancestor_old (hwl : WellLinked t) {a b : ElementId}
    (hb : b.index < t.size) (hab : Ancestor s a b) : Ancestor t a b := by
  induction hab with
  | parent hp => exact .parent ((h.parent?_old hb).symm.trans hp)
  | above hp _ ih =>
      have hp' := (h.parent?_old hb).symm.trans hp
      exact .above hp' (ih (hwl.index_lt_of_parent? hp'))

/-- What was below the root is attached at its turn. -/
theorem isAttached_of_mem_descendants (hwl : WellLinked t)
    (hx : x ∈ t.descendants t.root) : s.isAttached x = true := by
  refine h.wellLinked.isAttached_iff.mpr (Or.inr ?_)
  rw [h.root_eq]
  exact h.ancestor_of_ancestor (hwl.mem_descendants_iff.mp hx)

/-- Nothing new is a class. -/
theorem parentClass?_new (hx : t.size ≤ x.index) : s.parentClass? x = none := by
  have hnone : s.class? x = none := by
    refine Option.not_isSome_iff_eq_none.mp fun hsome => ?_
    obtain ⟨e, he, hkind⟩ := kind?_eq_some_iff.mp (isSome_class?_iff.mp hsome)
    rw [h.kind?_new x e hx he] at hkind
    cases hkind
  rw [parentClass?, hnone]
  rfl

/-- A class that was given copies has gained them. -/
theorem gainsProperties {id : ElementId} {copies : List ElementId} {e : Element}
    (hwl : WellLinked t) (he : t.get? id = some e) (hnot : id ∉ done)
    (hinherited : Inherited s id copies s') : GainsProperties t s' id copies := by
  have hes : s.get? id = some e :=
    (h.get?_pending (index_lt_of_get? he) hnot).trans he
  have hchildren : s.children id = t.children id := by
    rw [children, children, hes, he]
  exact
    { children_eq := by
        rw [children, hinherited.get?_self e hes, children, he]
        rfl
      new := fun c hc => by
        obtain ⟨hle, hkind⟩ := hinherited.kind?_copy hc
        exact ⟨Nat.le_trans h.size_le hle, hkind⟩
      apart_former := fun c hc o ho => by
        rw [hinherited.name?_old
          (Nat.lt_of_lt_of_le (hwl.index_lt_of_mem_children ho) h.size_le)]
        exact hinherited.apart.1 c hc o (hchildren ▸ ho)
      apart := hinherited.apart.2 }

/-- One turn. -/
theorem step {id : ElementId} (hwl : WellLinked t) (hid : id.index < t.size)
    (hnot : id ∉ done) (hvisit : (Edit.flattenClass id).run s = .ok () s') :
    Flattened t (done ++ [id]) s' := by
  have hmem : ∀ {x}, x ∈ done → x ∈ done ++ [id] := fun hx =>
    List.mem_append_left _ hx
  have hall : ∀ {P : ElementId → Prop}, (∀ x ∈ done, P x) → P id →
      ∀ x ∈ done ++ [id], P x := by
    intro P hdone hself x hx
    exact (List.mem_append.mp hx).elim (hdone x) fun hx =>
      List.mem_singleton.mp hx ▸ hself
  rcases cases_of_flattenClass h.wellLinked hvisit
    with ⟨hnone, rfl⟩ | ⟨hkind, copies, hinherited⟩
  · exact
      { h with
        index_lt := hall h.index_lt hid
        get?_old := fun x e he =>
          (h.get?_old x e he).imp_right fun hdone => ⟨hmem hdone.1, hdone.2⟩
        flat := hall h.flat hnone }
  · obtain ⟨e, he⟩ := Option.isSome_iff_exists.mp ((get?_isSome_iff t id).mpr hid)
    have hes : s.get? id = some e := (h.get?_pending hid hnot).trans he
    have hlt : ∀ {x : ElementId}, x.index < t.size → x.index < s.size :=
      fun hx => Nat.lt_of_lt_of_le hx h.size_le
    exact
      { wellLinked := hinherited.wellLinked
        root_eq := hinherited.root_eq.trans h.root_eq
        size_le := Nat.le_trans h.size_le hinherited.size_le
        index_lt := hall h.index_lt hid
        kind?_new := fun x ex hx hex => by
          rcases Nat.lt_or_ge x.index s.size with hxs | hxs
          · have hne : x ≠ id := by
              rintro rfl
              exact Nat.not_lt.mpr hx hid
            exact h.kind?_new x ex hx
              ((hinherited.get?_other x hxs hne).symm.trans hex)
          · have hcopy := (hinherited.kind?_copy
              (hinherited.eq_copy x hxs (by rw [hex]; rfl))).2
            rw [kind?, hex] at hcopy
            exact Option.some.inj hcopy
        get?_old := fun x ex hex => by
          by_cases hx : x = id
          · subst hx
            obtain rfl := Option.some.inj (he.symm.trans hex)
            refine Or.inr ⟨List.mem_append_right _ (List.mem_singleton_self _), ?_,
              copies, hinherited.get?_self e hes⟩
            rw [kind?, hes] at hkind
            exact Option.some.inj hkind
          · rw [hinherited.get?_other x (hlt (index_lt_of_get? hex)) hx]
            exact (h.get?_old x ex hex).imp_right
              fun hdone => ⟨hmem hdone.1, hdone.2⟩
        flat := hall (fun x hx => by
          have hne : x ≠ id := fun heq => hnot (heq ▸ hx)
          rw [hinherited.parentClass?_other (hlt (h.index_lt x hx)) hne]
          exact h.flat x hx) (hinherited.parentClass?_self hes)
        gained := fun x hx => by
          by_cases hxid : x = id
          · exact ⟨copies, hxid ▸ h.gainsProperties hwl he hnot hinherited⟩
          · obtain ⟨added, hadded⟩ := h.gained x hx
            refine ⟨added, hadded.trans ?_ fun c hc => ?_⟩
            · rw [children, children, hinherited.get?_other x (hlt hx) hxid]
            · have hc := h.wellLinked.index_lt_of_mem_children hc
              exact ⟨hinherited.name?_old hc, hinherited.kind?_old hc⟩ }

end Flattened

/-- What every turn keeps is kept by the whole traversal. Each element below the
    root has one turn. -/
theorem flattenInheritance_induction {I : List ElementId → Tree → Prop}
    (hwl : WellLinked t) (hflattened : ∀ done s, I done s → Flattened t done s)
    (hstep : ∀ done id rest s s', t.descendants t.root = done ++ id :: rest →
      id.index < t.size → id ∉ done → I done s →
      (Edit.flattenClass id).run s = .ok () s' → I (done ++ [id]) s') (h : I [] t)
    (hrun : Edit.flattenInheritance.run t = .ok () s) :
    I (t.descendants t.root) s := by
  rw [Edit.flattenInheritance_eq] at hrun
  refine Edit.crawl_done_induction
    (fun done s x h hx =>
      (hflattened done s h).isAttached_of_mem_descendants hwl hx)
    (fun done id rest s s' hitems h hvisit => ?_) h hrun
  obtain ⟨hnot, hbelow⟩ := hwl.turn_of_descendants_eq hitems
  exact hstep done id rest s s' hitems (hwl.index_lt_of_attached (Or.inr hbelow))
    hnot h hvisit

/-- The whole traversal. -/
theorem flattened_of_run (hwl : WellLinked t)
    (hrun : Edit.flattenInheritance.run t = .ok () s) :
    Flattened t (t.descendants t.root) s :=
  flattenInheritance_induction hwl (fun _ _ h => h)
    (fun _ _ _ _ _ _ hid hnot h hvisit => h.step hwl hid hnot hvisit)
      (flattened_nil hwl) hrun

/-- Flattening ends and is not refused, whatever inherits from what, in circles
    too: the walk to the classes above a class ends by itself in every tree.
    Afterwards nothing attached inherits, and what a class held has been
    followed by properties that were not there, each of a name that nothing in
    the class bore and no two of one name. -/
theorem run_flattenInheritance_total (hwf : WellFormed t) :
    (∀ s id stop, Climbs s (id :: stop.toList) id (s.inheritanceChain id stop))
      ∧ ∃ t', Edit.flattenInheritance.run t = .ok () t'
        ∧ (∀ x, Attached t' x → t'.parentClass? x = none)
        ∧ ∀ c, t.kind? c = some .classDecl →
          ∃ added, GainsProperties t t' c added := by
  have hwl := hwf.toWellLinked
  refine ⟨climbs_inheritanceChain, ?_⟩
  obtain ⟨_, t', hrun, -⟩ := succeeds_flattenInheritance hwl
  have h := flattened_of_run hwl hrun
  refine ⟨t', hrun, fun x hx => ?_, fun c hc => ?_⟩
  · rcases Nat.lt_or_ge x.index t.size with hlt | hle
    · rcases hx with rfl | hx
      · cases hp : t'.parentClass? t'.root with
        | none => rfl
        | some p =>
            exact absurd rfl
              (h.wellLinked.ne_root_of_class (parentClass?_eq_some hp).1)
      · rw [h.root_eq] at hx
        exact h.flat x
          (hwl.mem_descendants_iff.mpr (h.ancestor_of_ancestor_old hwl hlt hx))
    · exact h.parentClass?_new hle
  · obtain ⟨e, he, -⟩ := kind?_eq_some_iff.mp hc
    exact h.gained c (index_lt_of_get? he)

/-- A tree of two classes that inherit from each other, one of which has a
    property, and one that inherits from itself. -/
def circlesOfHeirs : Tree :=
  Operation.runAll
    [.addNamespace ⟨0⟩ "api",
      .addNew .classes ⟨1⟩
        (.inheriting (.classDecl "Order" .model) (.declared "Item" ⟨3⟩)),
      .addNew .classes ⟨1⟩
        (.inheriting (.classDecl "Item" .model) (.declared "Order" ⟨2⟩)),
      .addNew .classes ⟨1⟩
        (.inheriting (.classDecl "Node" .model) (.declared "Node" ⟨4⟩)),
      .addNew .properties ⟨3⟩ (.property "price" .custom (.external "float"))]
    initial

theorem wellFormed_circlesOfHeirs : WellFormed circlesOfHeirs :=
  (Operation.fullyNamed_runAll _ fullyNamed_initial).wellFormed

/-- The circles are walked once around and flattened. The class without a
    property gains that of the other. -/
theorem run_flattenInheritance_total_circlesOfHeirs :
    circlesOfHeirs.parentClass? ⟨2⟩ = some ⟨3⟩
      ∧ circlesOfHeirs.parentClass? ⟨3⟩ = some ⟨2⟩
      ∧ circlesOfHeirs.parentClass? ⟨4⟩ = some ⟨4⟩
      ∧ ∃ t', Edit.flattenInheritance.run circlesOfHeirs = .ok () t'
        ∧ (∀ x, Attached t' x → t'.parentClass? x = none)
        ∧ GainsProperties circlesOfHeirs t' ⟨2⟩ [⟨6⟩] := by
  refine ⟨by decide +kernel, by decide +kernel, by decide +kernel, ?_⟩
  obtain ⟨-, t', hrun, hflat, hgained⟩ :=
    run_flattenInheritance_total wellFormed_circlesOfHeirs
  refine ⟨t', hrun, hflat, ?_⟩
  obtain ⟨added, hadded⟩ := hgained ⟨2⟩ (by decide +kernel)
  have hchildren : (match Edit.flattenInheritance.run circlesOfHeirs with
      | .ok _ t' => decide (t'.children ⟨2⟩ = circlesOfHeirs.children ⟨2⟩ ++ [⟨6⟩])
      | .error _ _ => false) = true := by decide +kernel
  rw [hrun] at hchildren
  obtain rfl := List.append_cancel_left
    (hadded.children_eq.symm.trans (of_decide_eq_true hchildren))
  exact hadded

end Tree

end CodeModel
