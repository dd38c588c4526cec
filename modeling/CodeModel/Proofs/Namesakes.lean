import CodeModel.Proofs.Faces
import CodeModel.Proofs.Operations
import CodeModel.Proofs.PassSteps

/-!
# Classes beside namespaces of their name

A class that stands beside a namespace of its name, in whatever case, moves into
that namespace. Each class has one turn, and no namespace is moved or renamed,
so where a class ends up can be told from the tree as it was: in the first
namespace beside it of its name, or where it was (`destination?`).

* **`Relocated`**: what is left of a tree after some elements had their turn.
* **`Relocated.step`**: one turn.
* **`relocated_of_run`**: the whole traversal.

A namespace may hold a namespace of its own name. A class that moves into it
stands beside a namespace of its name again, and its turn is over.

Main statements: `clashFree_iff_of_moveIntoNamesakes`, a clash is left exactly
by a class whose destination holds a namespace of its name, and
`exists_clash_of_moveIntoNamesakes`, some class has such a destination.
-/

namespace CodeModel

open CodeModel.Tree

namespace Tree

/-- The namespace `ns`, held by `holder`, has the name of `c`, in whatever
    case. -/
structure Namesake (t : Tree) (holder c ns : ElementId) : Prop where
  parent?_eq : t.parent? ns = some holder
  kind?_eq : t.kind? ns = some .namespaceDecl
  lowercase_eq : (t.name? ns).map Text.lowercase = (t.name? c).map Text.lowercase

/-- The class `c` sits directly in a namespace that holds a namespace of its
    name. -/
def Clashes (t : Tree) (c : ElementId) : Prop :=
  t.kind? c = some .classDecl
    ∧ ∃ holder ns, t.parent? c = some holder ∧ t.kind? holder = some .namespaceDecl
    ∧ Namesake t holder c ns

/-- No attached class sits directly in a namespace that holds a namespace of its
    name. -/
def ClashFree (t : Tree) : Prop :=
  ∀ c, Attached t c → ¬ Clashes t c

/-- What holds an element after its turn: the first namespace beside it of its
    name, if it is a class and there is one, and else what held it before. -/
def destination? (t : Tree) (c : ElementId) : Option ElementId :=
  match t.clashingNamespace? c with
  | some (_, target) => some target
  | none => t.parent? c

variable {t s s' : Tree} {c holder target id : ElementId} {done : List ElementId}

/-- The namespaces of a holder are those that it holds. -/
theorem WellLinked.mem_namespaces_iff (hwl : WellLinked t) {ns : ElementId} :
    ns ∈ t.childrenOfKind holder .namespaceDecl ↔ t.parent? ns = some holder
      ∧ t.kind? ns = some .namespaceDecl := by
  rw [childrenOfKind, List.mem_filter, decide_eq_true_iff, hwl.mem_children_iff]

/-- Nothing is found exactly when there is no namesake. -/
theorem WellLinked.namesakeNamespace?_eq_none_iff (hwl : WellLinked t) :
    t.namesakeNamespace? holder c = none ↔ ∀ ns, ¬ Namesake t holder c ns := by
  rw [namesakeNamespace?, List.find?_eq_none]
  constructor
  · intro h ns hns
    exact h ns (hwl.mem_namespaces_iff.mpr ⟨hns.parent?_eq, hns.kind?_eq⟩)
      (decide_eq_true hns.lowercase_eq)
  · intro h ns hns hname
    obtain ⟨hp, hkind⟩ := hwl.mem_namespaces_iff.mp hns
    exact h ns ⟨hp, hkind, of_decide_eq_true hname⟩

/-- A class clashes exactly when there is a namespace for it to move into. -/
theorem WellLinked.clashes_iff (hwl : WellLinked t) :
    Clashes t c ↔ (t.clashingNamespace? c).isSome := by
  constructor
  · rintro ⟨hclass, holder, ns, hp, hkind, hns⟩
    cases hnamesake : t.namesakeNamespace? holder c with
    | none => exact absurd hns (hwl.namesakeNamespace?_eq_none_iff.mp hnamesake ns)
    | some target =>
        rw [clashingNamespace?_eq_some_iff.mpr
          ⟨hclass, hp, decide_eq_true hkind, hnamesake⟩]
        rfl
  · intro h
    obtain ⟨⟨holder, target⟩, hclash⟩ := Option.isSome_iff_exists.mp h
    obtain ⟨hclass, hp, hkind, hnamesake⟩ :=
      clashingNamespace?_eq_some_iff.mp hclash
    obtain ⟨hmem, htarget, hname⟩ := mem_of_namesakeNamespace? hnamesake
    exact ⟨hclass, holder, target, hp, of_decide_eq_true hkind,
      (hwl.mem_children_iff holder target).mp hmem, htarget, hname⟩

/-- Whether a class clashes, and with what, is read off its holder, the
    namespaces there and their names. -/
theorem clashingNamespace?_congr (hkind : ∀ x, s.kind? x = t.kind? x)
    (hname : ∀ x, s.name? x = t.name? x) (hheld : ∀ x, s.childrenOfKind x
      .namespaceDecl = t.childrenOfKind x .namespaceDecl)
    (hp : s.parent? c = t.parent? c) :
    s.clashingNamespace? c = t.clashingNamespace? c := by
  have hnamesake : ∀ x, s.namesakeNamespace? x c = t.namesakeNamespace? x c := by
    intro x
    simp only [namesakeNamespace?, hheld, hname]
  rw [clashingNamespace?, clashingNamespace?, hkind, hp]
  cases t.parent? c with
  | none => rfl
  | some p =>
      have hnamespace : s.isNamespace p = t.isNamespace p := by
        rw [isNamespace, isNamespace, hkind]
      dsimp only
      rw [hnamespace, hnamesake]

/-! ## One turn after another -/

/-- Tree `s` is what is left of `t` after the elements `done` had their turn:
    those have come to their destinations, and all else is where it was.
    Everything is what it was and called what it was. -/
structure Relocated (t : Tree) (done : List ElementId) (s : Tree) : Prop where
  wellLinked : WellLinked s
  root_eq : s.root = t.root
  kind?_eq : ∀ x, s.kind? x = t.kind? x
  name?_eq : ∀ x, s.name? x = t.name? x
  parent?_eq : ∀ x, s.parent? x = if x ∈ done then t.destination? x else t.parent? x
  namespaces_eq : ∀ x, s.childrenOfKind x .namespaceDecl
    = t.childrenOfKind x .namespaceDecl
  attached_iff : ∀ x, Attached s x ↔ Attached t x

/-- Before anything had its turn nothing has moved. -/
theorem relocated_nil (hwl : WellLinked t) : Relocated t [] t where
  wellLinked := hwl
  root_eq := rfl
  kind?_eq _ := rfl
  name?_eq _ := rfl
  parent?_eq x := by rw [if_neg List.not_mem_nil]
  namespaces_eq _ := rfl
  attached_iff _ := Iff.rfl

/-- A class is taken out of the namespace that holds it and put into one beside
    it. -/
theorem Relocated.move (h : Relocated t done s) (hid : Attached s id)
    (hnot : id ∉ done) (hclash : s.clashingNamespace? id = some (holder, target))
    (hi : Insertable (s.detach holder id).2 .classes target [id]) :
    Relocated t (done ++ [id])
      (((s.detach holder id).2.attach target [id]).rebindImports id) := by
  have hwl := h.wellLinked
  obtain ⟨hclass, hp, -, -⟩ := clashingNamespace?_eq_some_iff.mp hclash
  obtain ⟨hholder, htarget⟩ := attached_of_clashingNamespace? hwl hid hclash
  have hc := (hwl.mem_children_iff holder id).mpr hp
  have hlinks :=
    (relinked_detach hc).trans (relinked_attach (s.detach holder id).2 target [id])
  have hframes :=
    sameFrames_rebindImports ((s.detach holder id).2.attach target [id]) id
  have hdestination : t.destination? id = some target := by
    have hsame := clashingNamespace?_congr h.kind?_eq h.name?_eq h.namespaces_eq
      ((h.parent?_eq id).trans (if_neg hnot))
    rw [destination?, ← hsame, hclash]
  exact
    { wellLinked := hframes.wellLinked ((hwl.detach hc).attach hi)
      root_eq := hframes.root_eq.trans (hlinks.root_eq.trans h.root_eq)
      kind?_eq := fun x => by
        rw [hframes.samePlaces.kind?_eq, hlinks.kind?_eq, h.kind?_eq]
      name?_eq := fun x => by rw [hframes.name?_eq, hlinks.name?_eq, h.name?_eq]
      parent?_eq := fun x => by
        rw [hframes.samePlaces.parent?_eq, hi.parent?_attach, parent?_detach hc,
          h.parent?_eq]
        by_cases hx : x = id
        · subst hx
          rw [if_pos (List.mem_singleton_self x), if_pos
            (List.mem_append_right _ (List.mem_singleton_self x)), hdestination]
        · simp [hx]
      namespaces_eq := fun x => by
        rw [hframes.samePlaces.childrenOfKind_eq,
          hi.childrenOfKind_attach_of_ne (by decide),
          childrenOfKind_detach hwl hc (by rw [hclass]; decide), h.namespaces_eq]
      attached_iff := fun x => by
        rw [hframes.samePlaces.attached_iff, attached_relocate_iff hwl hc hholder
          htarget (SamePlaces.refl _) hi, h.attached_iff] }

/-- An element that clashes with nothing stays where it is. -/
theorem Relocated.stay (h : Relocated t done s) (hnot : id ∉ done)
    (hclash : s.clashingNamespace? id = none) : Relocated t (done ++ [id]) s := by
  have hp : s.parent? id = t.parent? id := (h.parent?_eq id).trans (if_neg hnot)
  have hdestination : t.destination? id = t.parent? id := by
    rw [destination?,
      ← clashingNamespace?_congr h.kind?_eq h.name?_eq h.namespaces_eq hp, hclash]
  refine { h with parent?_eq := fun x => ?_ }
  by_cases hx : x = id
  · subst hx
    rw [if_pos (List.mem_append_right _ (List.mem_singleton_self x)),
      hdestination, hp]
  · rw [h.parent?_eq]
    simp [hx]

/-- What is left after the whole traversal. -/
theorem relocated_of_run (hwl : WellLinked t) {u : Unit}
    (hrun : Edit.moveIntoNamesakes.run t = .ok u s) :
    Relocated t (t.descendants t.root) s := by
  have hattached : ∀ done s id, Relocated t done s → id ∈ t.descendants t.root →
      Attached s id := by
    intro done s id h hid
    exact (h.attached_iff id).mpr (Or.inr (hwl.mem_descendants_iff.mp hid))
  refine Edit.crawl_done_induction
    (fun done s id h hid =>
      h.wellLinked.isAttached_iff.mpr (hattached done s id h hid)) ?_
      (relocated_nil hwl) hrun
  intro done id rest s s' hitems h hvisit
  obtain ⟨hnot, hbelow⟩ := hwl.turn_of_descendants_eq hitems
  have hmem : id ∈ t.descendants t.root := hwl.mem_descendants_iff.mpr hbelow
  rw [Edit.run_get_bind] at hvisit
  cases hclash : s.clashingNamespace? id with
  | none =>
      rw [hclash] at hvisit
      obtain ⟨-, rfl⟩ := Edit.run_pure_eq_ok_iff.mp hvisit
      exact h.stay hnot hclash
  | some p =>
      obtain ⟨holder, target⟩ := p
      rw [hclash] at hvisit
      obtain ⟨-, hp, -, -⟩ := clashingNamespace?_eq_some_iff.mp hclash
      obtain ⟨hi, rfl⟩ := run_moveInto_eq_ok h.wellLinked
        ((h.wellLinked.mem_children_iff holder id).mpr hp) hvisit
      exact h.move (hattached done s id h hmem) hnot hclash hi

/-! ## Clashes that are left -/

namespace Relocated

variable (h : Relocated t (t.descendants t.root) s)

include h

/-- In the end everything attached is at its destination. -/
theorem parent?_eq_destination? (hwl : WellLinked t) (hc : Attached t c)
    (hne : c ≠ t.root) : s.parent? c = t.destination? c := by
  rw [h.parent?_eq, if_pos (hwl.mem_descendants_iff.mpr (hc.resolve_left hne))]

/-- Namespaces stand where they stood. -/
theorem namesake_iff (hwl : WellLinked t) {ns : ElementId} :
    Namesake s holder c ns ↔ Namesake t holder c ns := by
  have hheld : s.parent? ns = some holder ∧ s.kind? ns = some .namespaceDecl
      ↔ t.parent? ns = some holder ∧ t.kind? ns = some .namespaceDecl := by
    rw [← h.wellLinked.mem_namespaces_iff, ← hwl.mem_namespaces_iff,
      h.namespaces_eq]
  constructor
  · rintro ⟨hp, hkind, hname⟩
    obtain ⟨hp', hkind'⟩ := hheld.mp ⟨hp, hkind⟩
    exact ⟨hp', hkind', by rwa [h.name?_eq, h.name?_eq] at hname⟩
  · rintro ⟨hp, hkind, hname⟩
    obtain ⟨hp', hkind'⟩ := hheld.mpr ⟨hp, hkind⟩
    exact ⟨hp', hkind', by rwa [h.name?_eq, h.name?_eq]⟩

/-- A class clashes afterwards exactly when it has moved into a namespace that
    holds one of its name. -/
theorem clashes_iff (hwl : WellLinked t) (hc : Attached t c) :
    Clashes s c ↔ ∃ holder target ns, t.clashingNamespace? c = some (holder, target)
      ∧ Namesake t target c ns := by
  constructor
  · rintro ⟨hclass, p, ns, hp, hkind, hns⟩
    rw [h.kind?_eq] at hclass hkind
    rw [h.parent?_eq_destination? hwl hc
      (hwl.ne_root_of_class (isSome_class?_iff.mpr hclass))] at hp
    have hns' := (h.namesake_iff hwl).mp hns
    cases hclash : t.clashingNamespace? c with
    | none =>
        -- A class that has stayed where it was would have had a namespace to move
        -- into.
        rw [destination?, hclash] at hp
        have hsome := hwl.clashes_iff.mp ⟨hclass, p, ns, hp, hkind, hns'⟩
        rw [hclash] at hsome
        cases hsome
    | some q =>
        obtain ⟨holder, target⟩ := q
        rw [destination?, hclash] at hp
        obtain rfl : target = p := Option.some.inj hp
        exact ⟨holder, target, ns, rfl, hns'⟩
  · rintro ⟨holder, target, ns, hclash, hns⟩
    obtain ⟨hclass, -, -, hnamesake⟩ := clashingNamespace?_eq_some_iff.mp hclash
    have hp := h.parent?_eq_destination? hwl hc
      (hwl.ne_root_of_class (isSome_class?_iff.mpr hclass))
    rw [destination?, hclash] at hp
    refine ⟨(h.kind?_eq c).trans hclass, target, ns, hp, ?_,
      (h.namesake_iff hwl).mpr hns⟩
    exact (h.kind?_eq target).trans (mem_of_namesakeNamespace? hnamesake).2.1

end Relocated

/-- Every attached class comes to its destination. A clash is left exactly by a
    class that moves into a namespace which holds a namespace of its name. -/
theorem clashFree_iff_of_moveIntoNamesakes (hwf : WellFormed t) {u : Unit}
    (hrun : Edit.moveIntoNamesakes.run t = .ok u s) :
    (∀ c, Attached t c → t.kind? c = some .classDecl → Attached s c
      ∧ s.parent? c = t.destination? c)
      ∧ (ClashFree s ↔ ∀ c holder target, Attached t c →
        t.clashingNamespace? c = some (holder, target) →
          ∀ ns, ¬ Namesake t target c ns) := by
  have hwl := hwf.toWellLinked
  have h := relocated_of_run hwl hrun
  refine ⟨fun c hc hclass => ?_, ?_, ?_⟩
  · have hne := hwl.ne_root_of_class (isSome_class?_iff.mpr hclass)
    exact ⟨(h.attached_iff c).mpr hc, h.parent?_eq_destination? hwl hc hne⟩
  · intro hfree c holder target hc hclash ns hns
    exact hfree c ((h.attached_iff c).mpr hc)
      ((h.clashes_iff hwl hc).mpr ⟨holder, target, ns, hclash, hns⟩)
  · intro hnone c hc hclashes
    have hc' := (h.attached_iff c).mp hc
    obtain ⟨holder, target, ns, hclash, hns⟩ := (h.clashes_iff hwl hc').mp hclashes
    exact hnone c holder target hc' hclash ns hns

/-- A tree of a class beside a namespace of its name, which holds a namespace of
    another name, and of a class that stands alone. -/
def ordersBesideOrders : Tree :=
  Operation.runAll
    [.addNamespace ⟨0⟩ "api.orders.items",
      .addNew .classes ⟨1⟩ (.classDecl "Orders" .requestBuilder),
      .addNew .classes ⟨1⟩ (.classDecl "Items" .requestBuilder)]
    initial

theorem wellFormed_ordersBesideOrders : WellFormed ordersBesideOrders :=
  (Operation.fullyNamed_runAll _ fullyNamed_initial).wellFormed

/-- The class moves into the namespace of its name, and no clash is left. -/
theorem clashFree_of_moveIntoNamesakes_ordersBesideOrders :
    ∃ s, Edit.moveIntoNamesakes.run ordersBesideOrders = .ok () s
      ∧ s.parent? ⟨4⟩ = some ⟨2⟩
      ∧ s.parent? ⟨5⟩ = some ⟨1⟩ ∧ ClashFree s := by
  have hwf := wellFormed_ordersBesideOrders
  obtain ⟨_, s, hrun, -⟩ :=
    Edit.exists_eq_ok (r := Edit.moveIntoNamesakes.run ordersBesideOrders)
    (P := fun _ _ => True) (by decide +kernel)
  obtain ⟨hplaces, hfree⟩ := clashFree_iff_of_moveIntoNamesakes hwf hrun
  have hattached : ∀ c ∈ [(⟨4⟩ : ElementId), ⟨5⟩],
    ordersBesideOrders.isAttached c = true
      ∧ ordersBesideOrders.kind? c = some .classDecl := by decide +kernel
  have hplace : ∀ c ∈ [(⟨4⟩ : ElementId), ⟨5⟩],
      s.parent? c = ordersBesideOrders.destination? c := by
    intro c hc
    exact (hplaces c (hwf.toWellLinked.isAttached_iff.mp (hattached c hc).1)
      (hattached c hc).2).2
  have hnone : ∀ c < ordersBesideOrders.size,
    ∀ p ∈ ordersBesideOrders.clashingNamespace? ⟨c⟩,
      ordersBesideOrders.namesakeNamespace? p.2 ⟨c⟩ = none := by decide +kernel
  refine ⟨s, hrun, ?_, ?_, hfree.mpr fun c holder target hc hclash => ?_⟩
  · rw [hplace ⟨4⟩ (by decide)]
    decide +kernel
  · rw [hplace ⟨5⟩ (by decide)]
    decide +kernel
  · have hlt := hwf.toWellLinked.index_lt_of_attached hc
    exact hwf.toWellLinked.namesakeNamespace?_eq_none_iff.mp
      (hnone c.index hlt (holder, target) hclash)

/-- A tree of a class beside a namespace of its name, which holds another one of
    that name. -/
def shopBesideShops : Tree :=
  Operation.runAll [.addNamespace ⟨0⟩ "shop.shop",
    .addNew .classes ⟨0⟩ (.classDecl "Shop" .model)] initial

/-- A class that has moved can stand beside a namespace of its name again. -/
theorem exists_clash_of_moveIntoNamesakes :
    WellFormed shopBesideShops
      ∧ ∃ s, Edit.moveIntoNamesakes.run shopBesideShops = .ok () s
      ∧ s.parent? ⟨3⟩ = some ⟨1⟩
        ∧ Namesake s ⟨1⟩ ⟨3⟩ ⟨2⟩ ∧ ¬ ClashFree s := by
  have hwf : WellFormed shopBesideShops :=
    (Operation.fullyNamed_runAll _ fullyNamed_initial).wellFormed
  obtain ⟨_, s, hrun, hparent, hclass, hnamespace, hinner, hinnerKind, hnames⟩ :
      ∃ u s, Edit.moveIntoNamesakes.run shopBesideShops = .ok u s
        ∧ s.parent? ⟨3⟩ = some ⟨1⟩
        ∧ s.kind? ⟨3⟩ = some .classDecl ∧ s.kind? ⟨1⟩ = some .namespaceDecl
        ∧ s.parent? ⟨2⟩ = some ⟨1⟩
        ∧ s.kind? ⟨2⟩ = some .namespaceDecl
        ∧ (s.name? ⟨2⟩).map Text.lowercase = (s.name? ⟨3⟩).map Text.lowercase :=
    Edit.exists_eq_ok (by decide +kernel)
  have hnamesake : Namesake s ⟨1⟩ ⟨3⟩ ⟨2⟩ := ⟨hinner, hinnerKind, hnames⟩
  refine ⟨hwf, s, hrun, hparent, hnamesake, fun hfree => ?_⟩
  have hattached : Attached shopBesideShops ⟨3⟩ :=
    hwf.toWellLinked.isAttached_iff.mp (by decide +kernel)
  exact hfree ⟨3⟩
    (((relocated_of_run hwf.toWellLinked hrun).attached_iff ⟨3⟩).mpr hattached)
    ⟨hclass, ⟨1⟩, ⟨2⟩, hparent, hnamespace, hnamesake⟩

end Tree

end CodeModel
