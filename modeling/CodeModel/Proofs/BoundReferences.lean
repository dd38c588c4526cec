import CodeModel.Proofs.Amendments
import CodeModel.Proofs.Operations

/-!
# What the check of references looks at

A reference is held by an element when it stands in a slot of the element, or
within a union that does, at any depth (`Element.Mentions`). It is bound when it
names no declaration or an attached class or enum (`Tree.ReferencesBound`). The
check goes through everything below the root, and there it is exact. The root is
attached too, but not below itself, so what the root imports is not looked at.

* **`mem_references_iff`**: the walk through the slots of an element comes to
  all that the element mentions.
* **`WellLinked.validateReferences_iff_below`**: a tree is accepted exactly when
  everything below the root is bound.

Main statements: `validateReferences_exact_iff`, acceptance says that everything
attached is bound exactly when the root is bound or something below it is not,
and `exists_unbound_of_validateReferences`, a tree is accepted whose root is not
bound.
-/

namespace CodeModel

/-! ## The references held by an element -/

namespace TypeRef

variable {r s m : TypeRef}

/-- Reference `s` is `r` itself or occurs in a member of it. -/
inductive Occurs (s : TypeRef) : TypeRef → Prop where
  | self : Occurs s s
  | member {r m : TypeRef} (hm : m ∈ r.members) (h : Occurs s m) : Occurs s r

/-- The walk of a reference begins with it and goes on with its members, in
    order. -/
theorem walk_eq_cons (r : TypeRef) : r.walk = r :: r.members.flatMap walk := by
  obtain ⟨name, target, isNullable, isCollection⟩ := r
  rw [walk, members]
  cases target with
  | external => rfl
  | declared id => rfl
  | union ms =>
      dsimp only
      rw [TypeTarget.walk, walkAll_eq_flatMap]

mutual

/-- Everything in the walk occurs: the walk of a union is that of its
    members. -/
theorem occurs_of_mem_walk : ∀ r : TypeRef, s ∈ r.walk → Occurs s r
  | ⟨name, target, isNullable, isCollection⟩, hs => by
      rw [walk] at hs
      rcases List.mem_cons.mp hs with rfl | hs
      · exact .self
      · obtain ⟨m, hm, hoccurs⟩ := exists_occurs_of_mem_walk target hs
        exact .member hm hoccurs

theorem exists_occurs_of_mem_walk : ∀ target : TypeTarget, s ∈ target.walk →
    ∃ m ∈ (TypeRef.mk "" target false false).members, Occurs s m
  | .external, hs => absurd hs List.not_mem_nil
  | .declared _, hs => absurd hs List.not_mem_nil
  | .union ms, hs => exists_occurs_of_mem_walkAll ms hs

theorem exists_occurs_of_mem_walkAll :
    ∀ rs : List TypeRef, s ∈ walkAll rs → ∃ m ∈ rs, Occurs s m
  | [], hs => absurd hs List.not_mem_nil
  | r :: rest, hs => by
      rw [walkAll] at hs
      rcases List.mem_append.mp hs with hs | hs
      · exact ⟨r, List.mem_cons_self, occurs_of_mem_walk r hs⟩
      · obtain ⟨m, hm, hoccurs⟩ := exists_occurs_of_mem_walkAll rest hs
        exact ⟨m, List.mem_cons_of_mem _ hm, hoccurs⟩

end

/-- What occurs in a part occurs in the whole. -/
theorem Occurs.trans {q : TypeRef} (h : Occurs s r) (h' : Occurs r q) :
    Occurs s q := by
  induction h' with
  | self => exact h
  | member hm _ ih => exact .member hm ih

/-- The walk through a reference comes to what occurs in it, at any depth. -/
theorem mem_walk_iff : s ∈ r.walk ↔ Occurs s r := by
  refine ⟨occurs_of_mem_walk r, fun h => ?_⟩
  induction h with
  | self =>
      rw [walk_eq_cons]
      exact List.mem_cons_self
  | member hm _ ih =>
      rw [walk_eq_cons]
      exact List.mem_cons_of_mem _ (List.mem_flatMap.mpr ⟨_, hm, ih⟩)

/-- A definition is there exactly when the target is a declaration. -/
theorem definition?_eq_some_iff {d : ElementId} :
    r.definition? = some d ↔ r.target = .declared d := by
  rw [definition?]
  cases r.target <;> simp

end TypeRef

namespace Element

variable {e : Element} {r s : TypeRef}

/-- What stands in a slot for a type: in the header of a class, in an import of
    a class or namespace, as the type of a property or parameter, as what a
    method or indexer returns, or as the type of an index. -/
inductive InSlot (e : Element) : TypeRef → Prop where
  | inherits {c : ClassDecl} {r : TypeRef} (hc : e.class? = some c)
      (hr : c.inherits = some r) : InSlot e r
  | implements {c : ClassDecl} {r : TypeRef} (hc : e.class? = some c)
      (hr : r ∈ c.implements) : InSlot e r
  | imported {i : Import} {r : TypeRef} (hi : i ∈ e.imports)
      (hr : i.symbol = some r) : InSlot e r
  | value {r : TypeRef} (hr : e.valueType? = some r) : InSlot e r
  | index {i : IndexerDecl} (hi : e.content = .indexer i) : InSlot e i.indexType

/-- A slot in the list of slots is one of those that `InSlot` names. -/
theorem inSlot_of_mem_typeSlots (h : r ∈ e.typeSlots) : InSlot e r := by
  obtain ⟨name, parent, children, description, content⟩ := e
  cases content with
  | namespaceDecl imports =>
      obtain ⟨i, hi, hr⟩ := List.mem_filterMap.mp h
      exact .imported hi hr
  | classDecl c =>
      rcases List.mem_append.mp h with h | h
      · rcases List.mem_append.mp h with h | h
        · exact .inherits rfl (Option.mem_toList.mp h)
        · exact .implements rfl h
      · obtain ⟨i, hi, hr⟩ := List.mem_filterMap.mp h
        exact .imported hi hr
  | enumDecl options => exact absurd h List.not_mem_nil
  | method m => exact .value (List.mem_singleton.mp h ▸ rfl)
  | property p => exact .value (List.mem_singleton.mp h ▸ rfl)
  | parameter p => exact .value (List.mem_singleton.mp h ▸ rfl)
  | indexer i =>
      rcases List.mem_cons.mp h with rfl | h
      · exact .index rfl
      · exact .value (List.mem_singleton.mp h ▸ rfl)

/-- The list of slots has exactly the slots that `InSlot` names. -/
theorem mem_typeSlots_iff : r ∈ e.typeSlots ↔ InSlot e r := by
  refine ⟨inSlot_of_mem_typeSlots, fun h => ?_⟩
  cases h with
  | inherits hc hr =>
      rw [typeSlots, class?_eq_some_iff.mp hc]
      exact List.mem_append_left _
        (List.mem_append_left _ (Option.mem_toList.mpr hr))
  | implements hc hr =>
      rw [typeSlots, class?_eq_some_iff.mp hc]
      exact List.mem_append_left _ (List.mem_append_right _ hr)
  | imported hi hr => exact mem_typeSlots_of_symbol hi hr
  | value hr => exact mem_typeSlots_of_valueType? hr
  | index hi =>
      rw [typeSlots, hi]
      exact List.mem_cons_self

/-- A reference that the element holds, in whichever slot and at whichever depth
    of a union. -/
def Mentions (e : Element) (s : TypeRef) : Prop :=
  ∃ r, InSlot e r ∧ TypeRef.Occurs s r

/-- The walk through the slots of an element comes to all that the element
    mentions. -/
theorem mem_references_iff : s ∈ e.references ↔ e.Mentions s := by
  rw [references, List.mem_flatMap]
  simp only [mem_typeSlots_iff, TypeRef.mem_walk_iff]
  rfl

end Element

/-! ## What the check comes to -/

namespace Tree

open TypeRef

variable {t : Tree} {id : ElementId}

/-- Whatever an element mentions that is bound to a declaration is bound to an
    attached class or enum. -/
def ReferencesBound (t : Tree) (id : ElementId) : Prop :=
  ∀ e s d, t.get? id = some e → e.Mentions s → s.target = .declared d →
    Attached t d ∧ (t.kind? d = some .classDecl ∨ t.kind? d = some .enumDecl)

/-- The check lets a reference pass exactly when it is bound to nothing or to an
    attached class or enum. -/
theorem WellLinked.isDangling_eq_false_iff (hwl : WellLinked t) {s : TypeRef} :
    t.isDangling s = false ↔ ∀ d, s.target = .declared d →
      Attached t d
        ∧ (t.kind? d = some .classDecl ∨ t.kind? d = some .enumDecl) := by
  simp only [← definition?_eq_some_iff, ← isDeclaration_iff, ← hwl.isAttached_iff]
  rw [isDangling]
  cases s.definition? <;> simp

/-- An element is bound when no reference in its slots dangles. -/
theorem WellLinked.referencesBound_iff (hwl : WellLinked t) :
    t.ReferencesBound id ↔ ∀ e, t.get? id = some e →
      ∀ s ∈ e.references, t.isDangling s = false := by
  simp only [Element.mem_references_iff, hwl.isDangling_eq_false_iff]
  constructor
  · intro h e he s hs d hd
    exact h e s d he hs hd
  · intro h e s d he hs hd
    exact h e he s hs d hd

/-- A tree is accepted exactly when everything below the root is bound. -/
theorem WellLinked.validateReferences_iff_below (hwl : WellLinked t) :
    t.validateReferences = .ok () ↔ ∀ id, Ancestor t t.root id →
      t.ReferencesBound id := by
  rw [validateReferences_eq_ok_iff]
  simp only [hwl.mem_descendants_iff, hwl.referencesBound_iff]

/-- A tree is accepted exactly when everything below the root is bound,
    whichever slot a reference stands in and however deep in a union. That
    everything attached is bound, the root with its imports included, is the
    same thing exactly when the root is bound, or when something else is not and
    the tree is refused for that. -/
theorem validateReferences_exact_iff (hwf : WellFormed t) :
    (t.validateReferences = .ok () ↔ ∀ id, Ancestor t t.root id →
      t.ReferencesBound id)
      ∧ ((t.validateReferences = .ok () ↔ ∀ id, Attached t id →
        t.ReferencesBound id) ↔
          t.ReferencesBound t.root ∨ ∃ id, Ancestor t t.root id
            ∧ ¬ t.ReferencesBound id) := by
  have hbelow := hwf.toWellLinked.validateReferences_iff_below
  refine ⟨hbelow, ?_⟩
  rw [hbelow]
  constructor
  · intro h
    by_cases hall : ∀ id, Ancestor t t.root id → t.ReferencesBound id
    · exact Or.inl (h.mp hall t.root (Or.inl rfl))
    · push Not at hall
      exact Or.inr hall
  · intro h
    refine ⟨fun hall id hid => ?_, fun hall id hid => hall id (Or.inr hid)⟩
    rcases hid with rfl | hid
    · refine h.resolve_right ?_
      rintro ⟨x, hx, hnot⟩
      exact hnot (hall x hx)
    · exact hall id hid

/-- A shop whose root imports a class of the shop, and in which a property is of
    that class or a string. -/
def importedOrder : Tree :=
  Operation.runAll
    [.addNamespace ⟨0⟩ "shop",
      .addNew .classes ⟨1⟩ (.classDecl "Order" .model),
      .addNew .classes ⟨1⟩ (.classDecl "Cart" .model),
      .addNew .properties ⟨3⟩ (.property "item" .custom
        (.union "Item"
          [.external "string", .union "Ordered" [.declared "Order" ⟨2⟩]])),
      .addImports ⟨0⟩ [.ofSymbol "shop" (.declared "Order" ⟨2⟩)]] initial

theorem wellFormed_importedOrder : WellFormed importedOrder :=
  (Operation.fullyNamed_runAll _ fullyNamed_initial).wellFormed

/-- The shop is accepted. Its root is bound, so all that is attached is. -/
theorem validateReferences_exact_importedOrder :
    importedOrder.validateReferences = .ok ()
      ∧ (∀ id, Attached importedOrder id → importedOrder.ReferencesBound id)
      ∧ (importedOrder.get? ⟨4⟩).any (·.references.length = 4) := by
  obtain ⟨-, hexact⟩ := validateReferences_exact_iff wellFormed_importedOrder
  have hok : importedOrder.validateReferences = .ok () := by decide +kernel
  have hroot : importedOrder.ReferencesBound importedOrder.root := by
    refine wellFormed_importedOrder.toWellLinked.referencesBound_iff.mpr ?_
    have hall : ∀ e ∈ importedOrder.get? importedOrder.root,
        ∀ s ∈ e.references, importedOrder.isDangling s = false := by decide +kernel
    exact hall
  exact ⟨hok, (hexact.mpr (Or.inl hroot)).mp hok, by decide +kernel⟩

/-- A root that imports a class which nobody holds. -/
def importedGhost : Tree :=
  Operation.runAll
    [.create (.classDecl "Ghost" .model),
      .addImports ⟨0⟩ [.ofSymbol "Ghost" (.declared "Ghost" ⟨1⟩)]] initial

theorem wellFormed_importedGhost : WellFormed importedGhost :=
  (Operation.fullyNamed_runAll _ fullyNamed_initial).wellFormed

/-- Acceptance does not say that everything attached is bound: the root
    may import what nobody holds. -/
theorem exists_unbound_of_validateReferences :
    ∃ t, WellFormed t ∧ t.validateReferences = .ok ()
      ∧ ∃ id, Attached t id ∧ ¬ t.ReferencesBound id := by
  refine ⟨importedGhost, wellFormed_importedGhost, by decide +kernel,
    importedGhost.root, Or.inl rfl, ?_⟩
  rw [wellFormed_importedGhost.toWellLinked.referencesBound_iff]
  have hnot : ¬ ∀ e ∈ importedGhost.get? importedGhost.root,
      ∀ s ∈ e.references, importedGhost.isDangling s = false := by decide +kernel
  exact hnot

end Tree

end CodeModel
