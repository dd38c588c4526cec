import CodeModel.Tree.Ancestry

/-!
# Well-formed trees

A tree is well linked when its two kinds of links agree, no element is above
itself, and every element stands where its kind may stand. This holds of
detached elements as of those below the root. It is well formed when besides
every element below the root has a name.

Main statements: `wellFormed_initial`, and `WellLinked.isAncestor_iff`, by which
the walk upwards of a well-linked tree reaches everything above an element.
-/

namespace CodeModel

namespace NodeKind

/-- Whether elements of a kind may hold elements of another. -/
def mayHold : NodeKind → NodeKind → Bool
  | namespaceDecl, member => [namespaceDecl, classDecl, enumDecl].contains member
  | classDecl, member => [classDecl, property, method, indexer].contains member
  | method, member => member == parameter
  | _, _ => false

end NodeKind

namespace Tree

/-- Element `a` is strictly above `id`: it is the holder, or is above the
    holder. -/
inductive Ancestor (t : Tree) (a : ElementId) : ElementId → Prop where
  | parent {id : ElementId} : t.parent? id = some a → Ancestor t a id
  | above {id p : ElementId} : t.parent? id = some p → Ancestor t a p →
      Ancestor t a id

/-- Element `id` is `scope` or below it. -/
def Within (t : Tree) (scope id : ElementId) : Prop :=
  id = scope ∨ Ancestor t scope id

/-- An element is attached when it is the root or below it. -/
def Attached (t : Tree) (id : ElementId) : Prop :=
  Within t t.root id

/-- The links of a code model. The root is a namespace that nothing holds; an
    element is among the children of its holder, once, and of nothing else; no
    element is above itself; elements hold what their kind may hold, a class at
    most one indexer; and the header of a class shows its name. -/
structure WellLinked (t : Tree) : Prop where
  kind?_root : t.kind? t.root = some .namespaceDecl
  parent?_root : t.parent? t.root = none
  mem_children_iff : ∀ p c, c ∈ t.children p ↔ t.parent? c = some p
  nodup_children : ∀ p, (t.children p).Nodup
  acyclic : ∀ id, ¬ Ancestor t id id
  mayHold_of_mem : ∀ p c k m, c ∈ t.children p → t.kind? p = some k →
    t.kind? c = some m → k.mayHold m = true
  length_indexers : ∀ id, (t.childrenOfKind id .indexer).length ≤ 1
  token_eq_name : ∀ id e c, t.get? id = some e → e.class? = some c →
    c.token = e.name

/-- The shape of a code model: its links, a root without a name, and a name for
    every element below the root. -/
structure WellFormed (t : Tree) : Prop extends WellLinked t where
  name?_root : t.name? t.root = some ""
  name_ne_empty : ∀ id e, t.get? id = some e → Ancestor t t.root id → e.name ≠ ""

/-! ## Ancestors -/

/-- Being above is transitive. -/
theorem Ancestor.trans {t : Tree} {a b c : ElementId} (h : Ancestor t a b)
    (h' : Ancestor t b c) : Ancestor t a c := by
  induction h' with
  | parent hp => exact .above hp h
  | above hp _ ih => exact .above hp ih

/-- What is met on the way upwards is above. -/
theorem ancestor_of_mem_ancestorsWithin {t : Tree} {a : ElementId} :
    ∀ {n : Nat} {id : ElementId}, a ∈ t.ancestorsWithin n id → Ancestor t a id
  | 0, _, h => by simp [ancestorsWithin] at h
  | n + 1, id, h => by
      cases hp : t.parent? id with
      | none => simp [ancestorsWithin, hp] at h
      | some p =>
          simp only [ancestorsWithin, hp, List.mem_cons] at h
          rcases h with rfl | h
          · exact .parent hp
          · exact .above hp (ancestor_of_mem_ancestorsWithin h)

/-- A walk that ends before its bound has reached everything above. -/
theorem mem_ancestorsWithin_of_length_lt {t : Tree} {a : ElementId} :
    ∀ {n : Nat} {id : ElementId}, (t.ancestorsWithin n id).length < n →
      Ancestor t a id →
      a ∈ t.ancestorsWithin n id
  | 0, _, hn, _ => absurd hn (Nat.not_lt_zero _)
  | n + 1, id, hn, h => by
      cases hp : t.parent? id with
      | none => cases h <;> simp_all
      | some p =>
          simp only [ancestorsWithin, hp, List.length_cons, List.mem_cons] at hn ⊢
          cases h with
          | parent h =>
              exact Or.inl (by rw [hp] at h; exact (Option.some.inj h).symm)
          | above h ha =>
              rw [hp] at h
              obtain rfl := Option.some.inj h
              exact Or.inr
                (mem_ancestorsWithin_of_length_lt (Nat.lt_of_succ_lt_succ hn) ha)

/-- What the check finds above is above. -/
theorem isAncestor_imp_ancestor {t : Tree} {a id : ElementId}
    (h : t.isAncestor a id = true) : Ancestor t a id :=
  ancestor_of_mem_ancestorsWithin (List.contains_iff_mem.mp h)

/-- Distinct numbers below a bound are no more than the bound. -/
theorem length_le_of_nodup_of_lt :
    ∀ {n : Nat} {l : List Nat}, l.Nodup → (∀ x ∈ l, x < n) → l.length ≤ n
  | 0, [], _, _ => Nat.le_refl 0
  | 0, x :: _, _, h => absurd (h x List.mem_cons_self) (Nat.not_lt_zero x)
  | n + 1, l, hl, h => by
      have hlt : ∀ x ∈ l.erase n, x < n := by
        intro x hx
        obtain ⟨hne, hmem⟩ := hl.mem_erase_iff.mp hx
        have := h x hmem
        omega
      have ih := length_le_of_nodup_of_lt (hl.erase n) hlt
      have := List.length_erase (a := n) (l := l)
      split at this <;> omega

namespace WellLinked

variable {t : Tree}

/-- What holds something is within the arena. -/
theorem index_lt_of_parent? {p c : ElementId} (hwl : WellLinked t)
    (h : t.parent? c = some p) : p.index < t.size := by
  have hmem := (hwl.mem_children_iff p c).mpr h
  refine (get?_isSome_iff t p).mp ?_
  rw [children] at hmem
  cases hg : t.get? p with
  | none => simp [hg] at hmem
  | some e => rfl

theorem index_lt_of_ancestor {a id : ElementId} (hwl : WellLinked t)
    (h : Ancestor t a id) : a.index < t.size := by
  induction h with
  | parent hp => exact hwl.index_lt_of_parent? hp
  | above _ _ ih => exact ih

/-- No element is met twice on the way upwards, for none is above itself. -/
theorem nodup_ancestorsWithin (hwl : WellLinked t) :
    ∀ (n : Nat) (id : ElementId), (id :: t.ancestorsWithin n id).Nodup := by
  intro n
  induction n with
  | zero => intro id; simp [ancestorsWithin]
  | succ n ih =>
      intro id
      refine List.nodup_cons.mpr
        ⟨fun h => hwl.acyclic id (ancestor_of_mem_ancestorsWithin h), ?_⟩
      cases hp : t.parent? id with
      | none => simp [ancestorsWithin, hp]
      | some p => simpa only [ancestorsWithin, hp] using ih p

/-- There are fewer elements above one than there are at all. -/
theorem length_ancestors_lt (hwl : WellLinked t) {id : ElementId}
    (h : id.index < t.size) : (t.ancestors id).length < t.size := by
  have hnd : ((id :: t.ancestors id).map ElementId.index).Nodup := by
    refine List.pairwise_map.mpr ((hwl.nodup_ancestorsWithin t.size id).imp ?_)
    intro a b hab heq
    obtain ⟨i⟩ := a
    obtain ⟨j⟩ := b
    exact hab (congrArg ElementId.mk heq)
  have hlt : ∀ x ∈ (id :: t.ancestors id).map ElementId.index, x < t.size := by
    intro x hx
    obtain ⟨b, hb, rfl⟩ := List.mem_map.mp hx
    rcases List.mem_cons.mp hb with rfl | hb
    · exact h
    · exact hwl.index_lt_of_ancestor (ancestor_of_mem_ancestorsWithin hb)
  have hlen := length_le_of_nodup_of_lt hnd hlt
  rw [List.length_map, List.length_cons] at hlen
  exact hlen

/-- In a well-linked tree the walk upwards reaches everything above an element. -/
theorem isAncestor_iff (hwl : WellLinked t) {a id : ElementId} :
    t.isAncestor a id = true ↔ Ancestor t a id := by
  refine ⟨isAncestor_imp_ancestor, fun h => List.contains_iff_mem.mpr ?_⟩
  refine mem_ancestorsWithin_of_length_lt (hwl.length_ancestors_lt ?_) h
  refine (get?_isSome_iff t id).mp ?_
  cases hg : t.get? id with
  | none => cases h <;> simp_all [parent?]
  | some e => rfl

end WellLinked

/-- The tree of the root alone is well formed. -/
theorem wellFormed_initial : WellFormed initial := by
  have hget : ∀ id e, initial.get? id = some e → id = ⟨0⟩
      ∧ e = Element.ofNamespace "" := by
    rintro ⟨i⟩ e h
    cases i with
    | zero => exact ⟨rfl, (Option.some.inj h).symm⟩
    | succ i => simp [initial, get?] at h
  have hparent : ∀ id, initial.parent? id = none := by
    intro id
    cases hg : initial.get? id with
    | none => simp [parent?, hg]
    | some e => simp [parent?, hg, (hget id e hg).2, Element.ofNamespace]
  have hchildren : ∀ id, initial.children id = [] := by
    intro id
    cases hg : initial.get? id with
    | none => simp [children, hg]
    | some e => simp [children, hg, (hget id e hg).2, Element.ofNamespace]
  exact
    { kind?_root := rfl
      name?_root := rfl
      parent?_root := rfl
      mem_children_iff := fun p c => by simp [hchildren, hparent]
      nodup_children := fun p => by simp [hchildren]
      acyclic := fun id h => by cases h <;> simp_all
      mayHold_of_mem := fun p c k m h => by simp [hchildren] at h
      length_indexers := fun id => by simp [childrenOfKind, hchildren]
      name_ne_empty := fun id e _ ha => by cases ha <;> simp_all
      token_eq_name := fun id e c h hc => by
        simp [(hget id e h).2, Element.ofNamespace, Element.class?] at hc }

end Tree

end CodeModel
