import CodeModel.Proofs.Links
import CodeModel.Tree.Descent
import Mathlib.Data.List.Nodup

/-!
# The walks up and down

In a well-linked tree the walks that look for what is above and below an element
end before their bounds do. So the bounds do not matter: the walk upwards from
an element is its holder followed by the walk from there
(`ancestors_of_parent?`), and the walk downwards is each element that is held
followed by the walk from there (`descendants_eq_flatMap`). It comes to
everything below an element (`mem_descendants_iff`), to nothing twice, and to
nothing before what is above it (`pairwise_descendants`).
-/

namespace CodeModel

namespace Tree

variable {t : Tree}

/-! ## Upwards -/

/-- A shorter way upwards is the beginning of a longer one. -/
theorem ancestorsWithin_eq_take {m n : Nat} (hmn : m ≤ n) (id : ElementId) :
    t.ancestorsWithin m id = (t.ancestorsWithin n id).take m := by
  induction m generalizing n id with
  | zero => rfl
  | succ m ih =>
      obtain ⟨n, rfl⟩ : ∃ k, n = k + 1 := ⟨n - 1, by omega⟩
      cases hp : t.parent? id with
      | none => simp [ancestorsWithin, hp]
      | some p =>
          simp only [ancestorsWithin, hp, List.take_succ_cons]
          rw [ih (Nat.le_of_succ_le_succ hmn) p]

/-- The way upwards ends where nothing holds. -/
theorem ancestorsWithin_of_parent?_eq_none {id : ElementId}
    (h : t.parent? id = none) (n : Nat) : t.ancestorsWithin n id = [] := by
  cases n with
  | zero => rfl
  | succ n => simp [ancestorsWithin, h]

namespace WellLinked

/-- Any bound but for one less than the size of the arena gives the same walk
    upwards. -/
theorem ancestorsWithin_eq (hwl : WellLinked t) {n : Nat} (hn : t.size ≤ n + 1)
    (id : ElementId) : t.ancestorsWithin n id = t.ancestors id := by
  cases hp : t.parent? id with
  | none =>
      rw [ancestors, ancestorsWithin_of_parent?_eq_none hp,
        ancestorsWithin_of_parent?_eq_none hp]
  | some p =>
      obtain ⟨e, he, -⟩ := parent?_eq_some_iff.mp hp
      have hlen := hwl.length_ancestors_lt (index_lt_of_get? he)
      rcases Nat.le_total n t.size with hle | hle
      · rw [ancestorsWithin_eq_take hle]
        exact List.take_of_length_le (by unfold ancestors at hlen; omega)
      · have htake : t.ancestors id = (t.ancestorsWithin n id).take t.size :=
          ancestorsWithin_eq_take hle id
        rw [htake, List.length_take] at hlen
        rw [htake, List.take_of_length_le (by omega)]

/-- The walk upwards comes to the holder and goes on from there. -/
theorem ancestors_of_parent? (hwl : WellLinked t) {id p : ElementId}
    (hp : t.parent? id = some p) : t.ancestors id = p :: t.ancestors p := by
  obtain ⟨e, he, -⟩ := parent?_eq_some_iff.mp hp
  have hlt := index_lt_of_get? he
  obtain ⟨m, hm⟩ : ∃ m, t.size = m + 1 := ⟨t.size - 1, by omega⟩
  rw [← hwl.ancestorsWithin_eq (Nat.le_of_eq hm) p]
  rw [ancestors, hm]
  simp only [ancestorsWithin, hp]

/-- The list of ancestors has exactly what is above. -/
theorem mem_ancestors_iff (hwl : WellLinked t) {a id : ElementId} :
    a ∈ t.ancestors id ↔ Ancestor t a id := by
  rw [← hwl.isAncestor_iff, isAncestor, List.contains_iff_mem]

/-- Of two elements at or above a third, one is at or above the other. -/
theorem within_total {a b x : ElementId} (ha : Within t a x) (hb : Within t b x) :
    Within t a b ∨ Within t b a := by
  rcases ha with rfl | ha
  · exact Or.inr hb
  · induction ha with
    | parent hp =>
        rcases hb with rfl | hb
        · exact Or.inl (Or.inr (.parent hp))
        · exact Or.inr (hb.within_of_parent? hp)
    | above hp ha ih =>
        rcases hb with rfl | hb
        · exact Or.inl (Or.inr (.above hp ha))
        · exact ih (hb.within_of_parent? hp)

end WellLinked

/-! ## Downwards -/

/-- An element above another holds one at or above that. -/
theorem Ancestor.exists_child {a id : ElementId} (h : Ancestor t a id) :
    ∃ c, t.parent? c = some a ∧ Within t c id := by
  induction h with
  | parent hp => exact ⟨_, hp, Or.inl rfl⟩
  | above hp _ ih =>
      obtain ⟨c, hc, hwithin⟩ := ih
      exact ⟨c, hc, hwithin.of_parent? hp⟩

namespace WellLinked

/-- Everything in the walk is below its start. -/
theorem ancestor_of_mem_descendantsWithin (hwl : WellLinked t) {n : Nat}
    {a id : ElementId} (h : id ∈ t.descendantsWithin n a) : Ancestor t a id := by
  induction n generalizing a with
  | zero => exact absurd h List.not_mem_nil
  | succ n ih =>
      obtain ⟨c, hc, hmem⟩ := List.mem_flatMap.mp h
      have hp := (hwl.mem_children_iff a c).mp hc
      rcases List.mem_cons.mp hmem with rfl | hmem
      · exact .parent hp
      · exact (Ancestor.parent hp).trans (ih hmem)

/-- A walk downwards that has as many levels left as an element can have below
    it comes to all of them. -/
theorem mem_descendantsWithin_of_ancestor (hwl : WellLinked t) {n : Nat}
    {a id : ElementId} (hn : t.size ≤ n + (t.ancestors a).length + 1)
    (h : Ancestor t a id) : id ∈ t.descendantsWithin n a := by
  induction n generalizing a with
  | zero =>
      obtain ⟨c, hp, -⟩ := h.exists_child
      obtain ⟨e, he, -⟩ := parent?_eq_some_iff.mp hp
      have hlen := hwl.length_ancestors_lt (index_lt_of_get? he)
      rw [hwl.ancestors_of_parent? hp, List.length_cons] at hlen
      omega
  | succ n ih =>
      obtain ⟨c, hp, hwithin⟩ := h.exists_child
      refine List.mem_flatMap.mpr ⟨c, (hwl.mem_children_iff a c).mpr hp, ?_⟩
      rcases hwithin with rfl | hwithin
      · exact List.mem_cons_self
      · refine List.mem_cons_of_mem _ (ih ?_ hwithin)
        rw [hwl.ancestors_of_parent? hp, List.length_cons]
        omega

/-- The list of descendants has exactly what is below: as long as the arena is,
    the walk misses nothing. -/
theorem mem_descendants_iff (hwl : WellLinked t) {a id : ElementId} :
    id ∈ t.descendants a ↔ Ancestor t a id :=
  ⟨hwl.ancestor_of_mem_descendantsWithin,
    hwl.mem_descendantsWithin_of_ancestor (by omega)⟩

/-- What is below the root is within the arena. -/
theorem index_lt_of_mem_descendants (hwl : WellLinked t) {x : ElementId}
    (hx : x ∈ t.descendants t.root) : x.index < t.size :=
  hwl.index_lt_of_attached (Or.inr (hwl.mem_descendants_iff.mp hx))

/-- An element that is as deep as the arena allows holds nothing. -/
theorem children_eq_nil_of_size_le (hwl : WellLinked t) {id : ElementId}
    (hn : t.size ≤ (t.ancestors id).length + 1) : t.children id = [] := by
  refine List.eq_nil_iff_forall_not_mem.mpr fun c hc => ?_
  have hbelow := hwl.mem_descendantsWithin_of_ancestor (n := 0) (by omega)
    (.parent ((hwl.mem_children_iff id c).mp hc))
  exact List.not_mem_nil hbelow

/-- Once a walk downwards has as many levels left as an element can have below
    it, one more adds nothing. -/
theorem descendantsWithin_succ (hwl : WellLinked t) {n : Nat} {id : ElementId}
    (hn : t.size ≤ n + (t.ancestors id).length + 1) :
    t.descendantsWithin (n + 1) id = t.descendantsWithin n id := by
  induction n generalizing id with
  | zero =>
      show (t.children id).flatMap _ = []
      rw [hwl.children_eq_nil_of_size_le (by omega)]
      rfl
  | succ n ih =>
      rw [descendantsWithin, descendantsWithin]
      refine List.flatMap_congr fun c hc => ?_
      rw [ih]
      rw [hwl.ancestors_of_parent? ((hwl.mem_children_iff id c).mp hc),
        List.length_cons]
      omega

/-- An element is below one at most of those that a holder holds. -/
theorem eq_of_within (hwl : WellLinked t) {holder c d x : ElementId}
    (hc : t.parent? c = some holder) (hd : t.parent? d = some holder)
    (hcx : Within t c x) (hdx : Within t d x) : c = d := by
  -- Neither of two elements with one holder is above the other.
  have hapart : ∀ {y z}, t.parent? y = some holder → t.parent? z = some holder →
      Within t y z → z = y := by
    intro y z hy hz hyz
    rcases hyz with rfl | hyz
    · rfl
    · exact absurd (ancestor_of_within_of_parent? (hyz.within_of_parent? hz) hy)
        (hwl.acyclic y)
  rcases within_total hcx hdx with hcd | hdc
  · exact (hapart hc hd hcd).symm
  · exact hapart hd hc hdc

/-- The walk downwards comes to nothing after what is at or below it. -/
theorem pairwise_descendantsWithin (hwl : WellLinked t) (n : Nat) (id : ElementId) :
    (t.descendantsWithin n id).Pairwise fun a b => ¬ Within t b a := by
  induction n generalizing id with
  | zero => exact .nil
  | succ n ih =>
      refine List.pairwise_flatMap.mpr ⟨fun c _ => ?_, ?_⟩
      · refine List.pairwise_cons.mpr ⟨fun b hb hbc => ?_, ih c⟩
        have hcb := hwl.ancestor_of_mem_descendantsWithin hb
        rcases hbc with rfl | hbc
        · exact hwl.acyclic c hcb
        · exact hwl.acyclic c (hcb.trans hbc)
      · refine (hwl.nodup_children id).imp_of_mem ?_
        intro c d hc hd hne x hx y hy hyx
        have hwithin : ∀ {z w}, w ∈ z :: t.descendantsWithin n z →
            Within t z w := by
          intro z w hw
          exact (List.mem_cons.mp hw).imp
            (fun h => h) hwl.ancestor_of_mem_descendantsWithin
        have hpc := (hwl.mem_children_iff id c).mp hc
        have hpd := (hwl.mem_children_iff id d).mp hd
        exact hne (hwl.eq_of_within hpc hpd (hwithin hx) ((hwithin hy).trans hyx))

/-- The walk downwards comes to what is above an element before it comes to the
    element. -/
theorem pairwise_descendants (hwl : WellLinked t) (id : ElementId) :
    (t.descendants id).Pairwise fun a b => ¬ Within t b a :=
  hwl.pairwise_descendantsWithin t.size id

/-- No descendant is listed twice. -/
theorem nodup_descendants (hwl : WellLinked t) (id : ElementId) :
    (t.descendants id).Nodup :=
  (hwl.pairwise_descendants id).imp fun hnot heq => hnot (Or.inl heq)

/-- The walk downwards is the walk to what an element holds, each followed by
    the walk from there. -/
theorem descendants_eq_flatMap (hwl : WellLinked t) (id : ElementId) :
    t.descendants id = (t.children id).flatMap fun c => c :: t.descendants c :=
  (hwl.descendantsWithin_succ (by omega)).symm

/-- The walk downwards comes to no more than there is. -/
theorem length_descendants_le (hwl : WellLinked t) (id : ElementId) :
    (t.descendants id).length ≤ t.size := by
  have hnodup : ((t.descendants id).map ElementId.index).Nodup := by
    refine (hwl.nodup_descendants id).map ?_
    rintro ⟨i⟩ ⟨j⟩ rfl
    rfl
  rw [← List.length_map ElementId.index]
  refine length_le_of_nodup_of_lt hnodup fun i hi => ?_
  obtain ⟨x, hx, rfl⟩ := List.mem_map.mp hi
  exact (get?_isSome_iff t x).mp (hwl.mem_descendants_iff.mp hx).isSome_get?

/-- What has its turn next, as everything below the root is gone through, is
    below the root and had no turn yet. -/
theorem turn_of_descendants_eq (hwl : WellLinked t) {id : ElementId}
    {done rest : List ElementId} (h : t.descendants t.root = done ++ id :: rest) :
    id ∉ done ∧ Ancestor t t.root id := by
  have hnodup := hwl.nodup_descendants t.root
  rw [h] at hnodup
  refine ⟨fun hdone =>
    (List.nodup_append.mp hnodup).2.2 id hdone id List.mem_cons_self rfl, ?_⟩
  refine hwl.mem_descendants_iff.mp ?_
  rw [h]
  exact List.mem_append_right _ List.mem_cons_self

/-- An element and everything below it are a subtree. -/
theorem mem_subtree_iff (hwl : WellLinked t) {source id : ElementId} :
    id ∈ source :: t.descendants source ↔ Within t source id := by
  rw [List.mem_cons, hwl.mem_descendants_iff]
  rfl

theorem nodup_subtree (hwl : WellLinked t) (source : ElementId) :
    (source :: t.descendants source).Nodup := by
  refine List.nodup_cons.mpr ⟨fun hs => ?_, hwl.nodup_descendants source⟩
  exact hwl.acyclic source (hwl.mem_descendants_iff.mp hs)

end WellLinked

end Tree

end CodeModel
