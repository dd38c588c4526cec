import CodeModel.Proofs.Walks
import CodeModel.Tree.Clone

/-!
# Copies of subtrees

The copy of a subtree is its image: each element at or below the source has one
copy, at a place of its own at the end of the arena, with the links of the
element carried over. `Copied` says this of a tree.

* **`layOut_eq`**: a layout of a subtree is the subtree element by element, with
  links carried over.
* **`copied_of_cloneSubtree`**: what a successful copy is.
* **`WellLinked.copied`**: a copy keeps a tree well linked.
-/

namespace CodeModel

/-! ## Places in a row -/

/-- The handles are those of the places from `next` on, in order. -/
def Consecutive : Nat → List ElementId → Prop
  | _, [] => True
  | next, id :: rest => id = ⟨next⟩ ∧ Consecutive (next + 1) rest

/-- Two rows follow on one another when the second begins where the first
    ends. -/
theorem consecutive_append {l l' : List ElementId} {next : Nat} :
    Consecutive next (l ++ l') ↔
      Consecutive next l ∧ Consecutive (next + l.length) l' := by
  induction l generalizing next with
  | nil => simp [Consecutive]
  | cons id rest ih =>
      simp only [List.cons_append, Consecutive, ih, List.length_cons, and_assoc]
      rw [Nat.add_assoc next 1, Nat.add_comm 1]

/-- Consecutive handles lie between their first and their count. -/
theorem consecutive_bounds {l : List ElementId} {next : Nat}
    (h : Consecutive next l) {id : ElementId} (hid : id ∈ l) :
    next ≤ id.index ∧ id.index < next + l.length := by
  induction l generalizing next with
  | nil => exact absurd hid List.not_mem_nil
  | cons x rest ih =>
      rw [List.length_cons]
      rcases List.mem_cons.mp hid with rfl | hid
      · rw [h.1]
        exact ⟨Nat.le_refl _, by show next < _; omega⟩
      · have := ih h.2 hid
        omega

/-- Consecutive handles are different. -/
theorem nodup_of_consecutive {l : List ElementId} {next : Nat}
    (h : Consecutive next l) : l.Nodup := by
  induction l generalizing next with
  | nil => exact .nil
  | cons x rest ih =>
      refine List.nodup_cons.mpr ⟨fun hx => ?_, ih h.2⟩
      have hle := (consecutive_bounds h.2 hx).1
      rw [h.1] at hle
      exact absurd hle (Nat.not_succ_le_self next)

/-- The place in the row tells the handle. -/
theorem getElem?_of_consecutive {l : List ElementId} {next : Nat}
    (h : Consecutive next l) {k : Nat} {id : ElementId} (hk : l[k]? = some id) :
    id = ⟨next + k⟩ := by
  induction l generalizing next k with
  | nil => cases hk
  | cons x rest ih =>
      cases k with
      | zero => exact (Option.some.inj hk).symm.trans h.1
      | succ k => rw [ih h.2 hk, Nat.add_assoc, Nat.add_comm 1]

/-- The handles of a row are those between its ends. -/
theorem mem_iff_of_consecutive {l : List ElementId} {next : Nat}
    (h : Consecutive next l) {id : ElementId} :
    id ∈ l ↔ next ≤ id.index ∧ id.index < next + l.length := by
  refine ⟨consecutive_bounds h, fun hid => ?_⟩
  have hlt : id.index - next < l.length := by omega
  have hplace := getElem?_of_consecutive h (List.getElem?_eq_getElem hlt)
  have hself : l[id.index - next] = id := by
    obtain ⟨i⟩ := id
    rw [hplace]
    exact congrArg ElementId.mk (by dsimp only at hid ⊢; omega)
  exact hself ▸ List.getElem_mem hlt

namespace Element

/-- The element with its links led to where `copy` says. -/
def relink (copy : ElementId → ElementId) (e : Element) : Element :=
  { e with parent := e.parent.map copy, children := e.children.map copy }

end Element

namespace Tree

variable {t t' : Tree}

/-! ## Layouts -/

/-- Some elements, each with its image under `copy`. -/
def images (t : Tree) (copy : ElementId → ElementId) (ids : List ElementId) :
    List (ElementId × Element) :=
  ids.filterMap fun id => (t.get? id).map fun e => (id, e.relink copy)

/-- Images of two lists are those of the one and then of the other. -/
theorem images_append (copy : ElementId → ElementId) (l l' : List ElementId) :
    t.images copy (l ++ l') = t.images copy l ++ t.images copy l' :=
  List.filterMap_append

theorem images_cons {copy : ElementId → ElementId} {id : ElementId} {e : Element}
    (he : t.get? id = some e) (l : List ElementId) :
    t.images copy (id :: l) = (id, e.relink copy) :: t.images copy l := by
  rw [images, List.filterMap_cons_some (by rw [he]; rfl)]
  rfl

/-- Every element that is there has an image. -/
theorem length_images {copy : ElementId → ElementId} {ids : List ElementId}
    (h : ∀ id ∈ ids, (t.get? id).isSome) :
    (t.images copy ids).length = ids.length := by
  induction ids with
  | nil => rfl
  | cons id rest ih =>
      obtain ⟨e, he⟩ := Option.isSome_iff_exists.mp (h id List.mem_cons_self)
      rw [images_cons he, List.length_cons, List.length_cons,
        ih fun x hx => h x (List.mem_cons_of_mem _ hx)]

/-- The sources of the images are what was asked for. -/
theorem sources_images {copy : ElementId → ElementId} {ids : List ElementId}
    (h : ∀ id ∈ ids, (t.get? id).isSome) : (t.images copy ids).map (·.1) = ids := by
  induction ids with
  | nil => rfl
  | cons id rest ih =>
      obtain ⟨e, he⟩ := Option.isSome_iff_exists.mp (h id List.mem_cons_self)
      rw [images_cons he, List.map_cons, ih fun x hx =>
        h x (List.mem_cons_of_mem _ hx)]

/-- Subtrees laid out one after another, when each on its own is laid out as its
    image. -/
theorem layOutChildren_eq {copyOne : Nat → ElementId → List (ElementId × Element)}
    {copy : ElementId → ElementId} {below : ElementId → List ElementId}
    {ids : List ElementId} {next : Nat}
    (hone : ∀ c ∈ ids, ∀ next, Consecutive next ((c :: below c).map copy) →
      copyOne next c = t.images copy (c :: below c))
    (hsome : ∀ c ∈ ids, ∀ x ∈ c :: below c, (t.get? x).isSome)
    (hplaces : Consecutive next ((ids.flatMap fun c => c :: below c).map copy)) :
    layOutChildren copyOne next ids =
      (ids.map copy, t.images copy (ids.flatMap fun c => c :: below c)) := by
  induction ids generalizing next with
  | nil => rfl
  | cons c rest ih =>
      rw [List.flatMap_cons, List.map_append] at hplaces
      obtain ⟨hfirst, hrest⟩ := consecutive_append.mp hplaces
      have hcopies := hone c List.mem_cons_self next hfirst
      have hlen : (copyOne next c).length = ((c :: below c).map copy).length := by
        rw [hcopies, length_images (hsome c List.mem_cons_self), List.length_map]
      rw [layOutChildren, hlen, ih (fun d hd => hone d (List.mem_cons_of_mem _ hd))
        (fun d hd => hsome d (List.mem_cons_of_mem _ hd)) hrest, hcopies]
      rw [List.flatMap_cons, images_append, List.map_cons]
      have hhead : copy c = ⟨next⟩ := hfirst.1
      rw [hhead]

/-- With room for as many levels as there can be, a layout of a subtree is the
    image of the subtree. -/
theorem layOut_eq (hwl : WellLinked t) {copy : ElementId → ElementId} {n next : Nat}
    (parent : Option ElementId) {id : ElementId} {e : Element}
    (he : t.get? id = some e) (hn : t.size ≤ n + (t.ancestors id).length + 1)
    (hplaces : Consecutive next ((id :: t.descendantsWithin n id).map copy)) :
    t.layOut (n + 1) parent next id =
      (id, { e.relink copy with parent := parent }) :: t.images copy
        (t.descendantsWithin n id) := by
  have hchildren : t.children id = e.children := by
    rw [children, he]
    rfl
  induction n generalizing next parent id e with
  | zero =>
      have hnone : e.children = [] := by
        rw [← hchildren]
        exact hwl.children_eq_nil_of_size_le (by omega)
      simp [layOut, he, layOutChildren, hnone, Element.relink,
        descendantsWithin, images]
  | succ n ih =>
      have hbelow : t.descendantsWithin (n + 1) id =
          e.children.flatMap fun c => c :: t.descendantsWithin n c := by
        rw [← hchildren]
        rfl
      have hparent : ∀ c ∈ e.children, t.parent? c = some id := by
        intro c hc
        rw [← hchildren] at hc
        exact (hwl.mem_children_iff id c).mp hc
      rw [List.map_cons, hbelow] at hplaces
      obtain ⟨hhead, hrest⟩ := hplaces
      have hone : ∀ c ∈ e.children, ∀ next',
          Consecutive next' ((c :: t.descendantsWithin n c).map copy) →
          t.layOut (n + 1) (some ⟨next⟩) next' c
          = t.images copy (c :: t.descendantsWithin n c) := by
        intro c hc next' hplaces'
        obtain ⟨ec, hec, hpc⟩ := parent?_eq_some_iff.mp (hparent c hc)
        have hdepth : t.size ≤ n + (t.ancestors c).length + 1 := by
          rw [hwl.ancestors_of_parent? (hparent c hc), List.length_cons]
          omega
        have hcc : t.children c = ec.children := by
          rw [children, hec]
          rfl
        rw [ih (some ⟨next⟩) hec hdepth hplaces' hcc, images_cons hec]
        have htop : some (⟨next⟩ : ElementId) = ec.parent.map copy := by
          rw [hpc, Option.map_some, hhead]
        rw [htop]
        rfl
      have hsome : ∀ c ∈ e.children, ∀ x ∈ c :: t.descendantsWithin n c,
          (t.get? x).isSome := by
        intro c hc x hx
        rcases List.mem_cons.mp hx with rfl | hx
        · exact (Ancestor.parent (hparent x hc)).isSome_get?
        · exact (hwl.ancestor_of_mem_descendantsWithin hx).isSome_get?
      rw [layOut, he]
      dsimp only
      rw [layOutChildren_eq hone hsome hrest, hbelow]
      rfl

/-- The images stand in the order of the sources. -/
theorem getElem?_images {copy : ElementId → ElementId} {ids : List ElementId}
    (h : ∀ id ∈ ids, (t.get? id).isSome) {k : Nat} {id : ElementId} {e : Element}
    (hk : ids[k]? = some id) (he : t.get? id = some e) :
    (t.images copy ids)[k]? = some (id, e.relink copy) := by
  induction ids generalizing k with
  | nil => cases hk
  | cons x rest ih =>
      obtain ⟨ex, hex⟩ := Option.isSome_iff_exists.mp (h x List.mem_cons_self)
      rw [images_cons hex]
      cases k with
      | zero =>
          obtain rfl : x = id := Option.some.inj hk
          rw [he] at hex
          rw [Option.some.inj hex]
          rfl
      | succ k => exact ih (fun y hy => h y (List.mem_cons_of_mem _ hy)) hk

/-! ## Where the copies stand -/

/-- The later of two entries for one source counts, as it does when pairs are
    entered one after another. -/
theorem copyOf?_cons (base : Nat) (p : ElementId × Element)
    (layout : List (ElementId × Element)) (id : ElementId) :
    copyOf? base (p :: layout) id =
      (copyOf? (base + 1) layout id).or (if p.1 = id then some ⟨base⟩ else none) :=
        by
  simp [copyOf?, List.zipIdx_cons, List.findSome?_append]

/-- What is not laid out has no copy. -/
theorem copyOf?_eq_none {layout : List (ElementId × Element)} {id : ElementId}
    (h : id ∉ layout.map (·.1)) (base : Nat) : copyOf? base layout id = none := by
  induction layout generalizing base with
  | nil => rfl
  | cons p rest ih =>
      rw [List.map_cons, List.mem_cons, not_or] at h
      rw [copyOf?_cons, ih h.2, if_neg (fun heq => h.1 heq.symm)]
      rfl

/-- An element that is laid out once has its copy where it is laid out. -/
theorem copyOf?_of_mem_zipIdx {layout : List (ElementId × Element)}
    (hnd : (layout.map (·.1)).Nodup) {base : Nat} {p : (ElementId × Element) × Nat}
    (hp : p ∈ layout.zipIdx base) : copyOf? base layout p.1.1 = some ⟨p.2⟩ := by
  induction layout generalizing base with
  | nil => exact absurd hp List.not_mem_nil
  | cons q rest ih =>
      rw [List.map_cons, List.nodup_cons] at hnd
      rw [List.zipIdx_cons, List.mem_cons] at hp
      rcases hp with rfl | hp
      · rw [copyOf?_cons, copyOf?_eq_none hnd.1, if_pos rfl]
        rfl
      · rw [copyOf?_cons, ih hnd.2 hp]
        rfl

/-- Copies that are counted along the layout are consecutive. -/
theorem consecutive_of_zipIdx {layout : List (ElementId × Element)} {base : Nat}
    {copy : ElementId → ElementId}
    (h : ∀ p ∈ layout.zipIdx base, copy p.1.1 = ⟨p.2⟩) :
    Consecutive base ((layout.map (·.1)).map copy) := by
  induction layout generalizing base with
  | nil => trivial
  | cons q rest ih =>
      rw [List.zipIdx_cons] at h
      exact ⟨h (q, base) List.mem_cons_self, ih fun p hp =>
        h p (List.mem_cons_of_mem _ hp)⟩

/-- Where the references of a layout lead after they are pointed at the copies. -/
def toCopy (base : Nat) (layout : List (ElementId × Element)) (id : ElementId) :
    ElementId :=
  (copyOf? base layout id).getD id

/-- The handles that a layout gives are consecutive, for no source stands in it
    twice. -/
theorem consecutive_toCopy (layout : List (ElementId × Element))
    (hnd : (layout.map (·.1)).Nodup) (base : Nat) :
    Consecutive base ((layout.map (·.1)).map (toCopy base layout)) :=
  consecutive_of_zipIdx fun p hp => by
    rw [toCopy, copyOf?_of_mem_zipIdx hnd hp, Option.getD_some]

/-- Binding a layout anew binds each entry to the copies of what is laid out. -/
theorem rebindLayout_eq {layout : List (ElementId × Element)}
    (hnd : (layout.map (·.1)).Nodup) (base : Nat) :
    rebindLayout base layout = layout.map fun p =>
      p.2.mapTypes (·.rebind (toCopy base layout)) := by
  have heach : rebindLayout base layout =
      (layout.zipIdx base).map fun p =>
        p.1.2.mapTypes (·.rebind (toCopy base layout)) := by
    refine List.map_congr_left fun p hp => ?_
    exact if_pos (copyOf?_of_mem_zipIdx hnd hp)
  rw [heach]
  have hfirst := congrArg (List.map fun p : ElementId × Element =>
    p.2.mapTypes (·.rebind (toCopy base layout)))
    (List.zipIdx_map_fst base layout)
  rwa [List.map_map] at hfirst

/-! ## The copy of a subtree -/

/-- The copy of the element `s` of the subtree at `source`. -/
def copiedElement (source : ElementId) (copy : ElementId → ElementId)
    (s : ElementId) (e : Element) : Element :=
  { e.relink copy with parent := if s = source
      then none else e.parent.map copy }.mapTypes (·.rebind copy)

/-- Tree `t'` is `t` with a copy of the subtree at `source`, each element copied
    to where `copy` says, and nothing else new. Copies come after all that was
    there, that of the source first; different elements have different copies,
    and references to what is not copied stay. -/
structure Copied (t t' : Tree) (source : ElementId) (copy : ElementId → ElementId) :
    Prop where
  root_eq : t'.root = t.root
  get?_old : ∀ id, id.index < t.size → t'.get? id = t.get? id
  get?_copy : ∀ s e, Within t source s → t.get? s = some e →
    t'.get? (copy s) = some (copiedElement source copy s e)
  eq_copy : ∀ id, t.size ≤ id.index → (t'.get? id).isSome →
    ∃ s e, Within t source s ∧ t.get? s = some e ∧ id = copy s
  size_le_copy : ∀ s, Within t source s → t.size ≤ (copy s).index
  injective : ∀ s s', Within t source s → Within t source s' →
    copy s = copy s' → s = s'
  copy_source : copy source = t.nextId
  copy_outside : ∀ s, ¬ Within t source s → copy s = s

/-- What a copy of a subtree appends to the arena: the image of the subtree,
    each element once and in a row, with references pointed at the copies. -/
theorem exists_layout (hwl : WellLinked t) {source : ElementId} {e : Element}
    (he : t.get? source = some e) :
    ∃ copy : ElementId → ElementId,
      Consecutive t.size ((source :: t.descendants source).map copy)
        ∧ (∀ s, ¬ Within t source s → copy s = s)
        ∧ t.layOut t.size none t.size source =
            (source, { e.relink copy with parent := none }) :: t.images copy
              (t.descendants source)
        ∧ rebindLayout t.size (t.layOut t.size none t.size source) =
            (t.layOut t.size none t.size source).map fun p =>
              p.2.mapTypes (·.rebind copy) := by
  -- The walk stops after as many levels as the tree has elements, which is deeper
  -- than any tree goes.
  obtain ⟨m, hm⟩ : ∃ m, t.size = m + 1 :=
    ⟨t.size - 1, by have := index_lt_of_get? he; omega⟩
  have hdeep : t.size ≤ m + (t.ancestors source).length + 1 := by omega
  have hbelow : t.descendantsWithin m source = t.descendants source := by
    rw [descendants, hm, hwl.descendantsWithin_succ hdeep]
  have hnd := hwl.nodup_subtree source
  have hsome : ∀ s ∈ t.descendants source, (t.get? s).isSome := fun s hs =>
    (hwl.mem_descendants_iff.mp hs).isSome_get?
  -- Where the copies stand depends on the sources of a layout alone, so any
  -- elements will do here.
  generalize hplan : (source :: t.descendants source).map
    (fun s => (s, (default : Element))) = plan
  have hsources : plan.map (·.1) = source :: t.descendants source := by
    rw [← hplan, List.map_map]
    exact List.map_id' _
  have hrow : Consecutive t.size
      ((source :: t.descendants source).map (toCopy t.size plan)) := by
    have hrow := consecutive_toCopy plan (by rw [hsources]; exact hnd) t.size
    rwa [hsources] at hrow
  have hlayout := layOut_eq hwl none he hdeep (by rw [hbelow]; exact hrow)
  rw [← hm, hbelow] at hlayout
  have hfst : (t.layOut t.size none t.size source).map (·.1)
      = source :: t.descendants source := by
    rw [hlayout, List.map_cons, sources_images hsome]
  have hcopy : toCopy t.size (t.layOut t.size none t.size source)
      = toCopy t.size plan := by
    funext s
    rw [toCopy, toCopy, copyOf?, copyOf?, hfst, hsources]
  refine ⟨toCopy t.size plan, hrow, fun s hs => ?_, hlayout, ?_⟩
  · have hout : s ∉ plan.map (·.1) := by
      rw [hsources, hwl.mem_subtree_iff]
      exact hs
    rw [toCopy, copyOf?_eq_none hout]
    rfl
  · rw [rebindLayout_eq (by rw [hfst]; exact hnd), hcopy]

/-- The tree with the copy of a subtree at the end of its arena. -/
def withCopies (t : Tree) (source : ElementId) : Tree :=
  { t with elements := t.elements
      ++ (rebindLayout t.size (t.layOut t.size none t.size source)).toArray }

/-- Elements that are added come after all others and change none of them. -/
theorem get?_append (t : Tree) (new : List Element) (id : ElementId) :
    Tree.get? { t with elements := t.elements ++ new.toArray } id =
      if id.index < t.size then t.get? id else new[id.index - t.size]? := by
  show (t.elements ++ new.toArray)[id.index]? = _
  have hnew : new.toArray[id.index - t.size]? = new[id.index - t.size]? :=
    List.getElem?_toArray
  rw [Array.getElem?_append, ← hnew]
  rfl

/-- The copies of a subtree are a copy of the whole of it, and stand in a row at
    the end of the arena. -/
theorem exists_copied (hwl : WellLinked t) {source : ElementId} {e : Element}
    (he : t.get? source = some e) :
    ∃ copy, Copied t (t.withCopies source) source copy
      ∧ Consecutive t.size ((source :: t.descendants source).map copy)
      ∧ rebindLayout t.size (t.layOut t.size none t.size source) =
          (t.layOut t.size none t.size source).map fun p =>
            p.2.mapTypes (·.rebind copy) := by
  -- The layout is the subtree in a row, so the arena grows by one image for each of
  -- its elements.
  obtain ⟨copy, hrow, houtside, hlayout, hnew⟩ := exists_layout hwl he
  refine ⟨copy, ?_, hrow, hnew⟩
  have hmem : ∀ s, s ∈ source :: t.descendants source ↔ Within t source s :=
    fun s => hwl.mem_subtree_iff
  have hnd := hwl.nodup_subtree source
  have hsome : ∀ s, Within t source s → (t.get? s).isSome := fun s hs =>
    isSome_of_within (by rw [he]; rfl) hs
  have hbelow : ∀ s ∈ t.descendants source, (t.get? s).isSome := fun s hs =>
    hsome s ((hmem s).mp (List.mem_cons_of_mem _ hs))
  -- The copy of an element stands at the place of the element in the row of
  -- sources.
  have hplace : ∀ s, Within t source s →
      ∃ k, (source :: t.descendants source)[k]? = some s
        ∧ copy s = ⟨t.size + k⟩ := by
    intro s hs
    obtain ⟨k, hk⟩ := List.getElem?_of_mem ((hmem s).mpr hs)
    refine ⟨k, hk, getElem?_of_consecutive hrow ?_⟩
    rw [List.getElem?_map, hk]
    rfl
  have hget : ∀ id, (t.withCopies source).get? id = if id.index < t.size
      then t.get? id else
      (((source, { e.relink copy with parent := none }) :: t.images copy
        (t.descendants source)).map
        fun p => p.2.mapTypes (·.rebind copy))[id.index - t.size]? := by
    intro id
    rw [withCopies, get?_append, hnew, hlayout]
  exact
    { root_eq := rfl
      get?_old := fun id hid => by rw [hget, if_pos hid]
      get?_copy := fun s es hs hes => by
        obtain ⟨k, hk, hcopy⟩ := hplace s hs
        have hnot : ¬ t.size + k < t.size := by omega
        rw [hget, hcopy, if_neg hnot, Nat.add_sub_cancel_left, List.getElem?_map]
        cases k with
        | zero =>
            obtain rfl : source = s := Option.some.inj hk
            rw [he] at hes
            simp [copiedElement, Option.some.inj hes]
        | succ k =>
            have hkb : (t.descendants source)[k]? = some s := hk
            have hne : s ≠ source := by
              rintro rfl
              exact (List.nodup_cons.mp hnd).1 (List.mem_of_getElem? hkb)
            rw [List.getElem?_cons_succ, getElem?_images hbelow hkb hes]
            simp only [Option.map_some, copiedElement, if_neg hne]
            rfl
      eq_copy := fun id hid hid' => by
        have hnot : ¬ id.index < t.size := by omega
        rw [hget, if_neg hnot, List.getElem?_map, Option.isSome_map,
          ← Option.isSome_map (f := (·.1)), ← List.getElem?_map, List.map_cons,
          sources_images hbelow] at hid'
        obtain ⟨s, hs⟩ := Option.isSome_iff_exists.mp hid'
        have hwithin := (hmem s).mp (List.mem_of_getElem? hs)
        obtain ⟨es, hes⟩ := Option.isSome_iff_exists.mp (hsome s hwithin)
        refine ⟨s, es, hwithin, hes, ?_⟩
        have hat : ((source :: t.descendants source).map copy)[id.index - t.size]?
            = some (copy s) := by
          rw [List.getElem?_map, hs]
          rfl
        rw [getElem?_of_consecutive hrow hat]
        obtain ⟨i⟩ := id
        exact congrArg ElementId.mk (by dsimp only at hid ⊢; omega)
      size_le_copy := fun s hs => by
        obtain ⟨k, -, hcopy⟩ := hplace s hs
        rw [hcopy]
        exact Nat.le_add_right _ _
      injective := fun s s' hs hs' heq => by
        exact List.inj_on_of_nodup_map (nodup_of_consecutive hrow) ((hmem s).mpr hs)
          ((hmem s').mpr hs') heq
      copy_source := hrow.1
      copy_outside := houtside }

/-- A successful copy is a copy of the whole subtree. -/
theorem copied_of_cloneSubtree (hwl : WellLinked t) {source id : ElementId}
    (h : t.cloneSubtree source = .ok (id, t')) :
    source ≠ t.root ∧ id = t.nextId ∧ ∃ copy, Copied t t' source copy := by
  rw [cloneSubtree] at h
  cases he : t.get? source with
  | none => rw [he] at h; cases h
  | some e =>
      rw [he] at h
      dsimp only at h
      split at h
      · cases h
      next hne =>
        obtain ⟨rfl, rfl⟩ := Prod.mk.inj (Except.ok.inj h)
        obtain ⟨copy, hcopied, -⟩ := exists_copied hwl he
        exact ⟨hne, rfl, copy, hcopied⟩

namespace Copied

variable {source : ElementId} {copy : ElementId → ElementId}

/-- A handle of the tree with the copy is an old one, names a copy, or names
    nothing. -/
theorem trichotomy (h : Copied t t' source copy) (id : ElementId) :
    id.index < t.size ∨ (∃ s e, Within t source s ∧ t.get? s = some e ∧ id = copy s)
      ∨ t'.get? id = none := by
  rcases Nat.lt_or_ge id.index t.size with hlt | hle
  · exact Or.inl hlt
  · cases hg : t'.get? id with
    | none => exact Or.inr (Or.inr rfl)
    | some e => exact Or.inr (Or.inl (h.eq_copy id hle (by rw [hg]; rfl)))

/-- The frame of a copy: the links go to copies, and the top is held by
    nothing. -/
theorem frame_copiedElement (source : ElementId) (copy : ElementId → ElementId)
    (s : ElementId) (e : Element) :
    (copiedElement source copy s e).frame =
      ((if s = source then none else e.parent.map copy, e.children.map copy,
        e.kind), e.name,
        e.content.token?) := by
  rw [copiedElement, Element.frame_mapTypes]
  rfl

/-- A copy is held by the copy of the holder, but that of the top by nothing. -/
theorem parent?_copy (h : Copied t t' source copy) {s : ElementId} {e : Element}
    (hs : Within t source s) (he : t.get? s = some e) :
    t'.parent? (copy s) = if s = source then none else (t.parent? s).map copy := by
  rw [parent?, parent?, h.get?_copy s e hs he, he]
  exact congrArg (·.1.1) (frame_copiedElement source copy s e)

/-- A copy holds the copies of what is held. -/
theorem children_copy (h : Copied t t' source copy) {s : ElementId} {e : Element}
    (hs : Within t source s) (he : t.get? s = some e) :
    t'.children (copy s) = (t.children s).map copy := by
  rw [children, children, h.get?_copy s e hs he, he]
  exact congrArg (·.1.2.1) (frame_copiedElement source copy s e)

theorem kind?_copy (h : Copied t t' source copy) {s : ElementId} {e : Element}
    (hs : Within t source s) (he : t.get? s = some e) :
    t'.kind? (copy s) = t.kind? s := by
  rw [kind?, kind?, h.get?_copy s e hs he, he]
  exact congrArg
    (fun frame => some frame.1.2.2) (frame_copiedElement source copy s e)

/-- What was there is held as it was. -/
theorem parent?_old (h : Copied t t' source copy) {id : ElementId}
    (hid : id.index < t.size) : t'.parent? id = t.parent? id := by
  rw [parent?, parent?, h.get?_old id hid]

theorem children_old (h : Copied t t' source copy) {id : ElementId}
    (hid : id.index < t.size) : t'.children id = t.children id := by
  rw [children, children, h.get?_old id hid]

theorem kind?_old (h : Copied t t' source copy) {id : ElementId}
    (hid : id.index < t.size) : t'.kind? id = t.kind? id := by
  rw [kind?, kind?, h.get?_old id hid]

/-- A copy that has a holder has the copy of what its source has. -/
theorem exists_of_parent?_copy (h : Copied t t' source copy) {s p : ElementId}
    {e : Element} (hs : Within t source s) (he : t.get? s = some e)
    (hp : t'.parent? (copy s) = some p) :
    ∃ q, t.parent? s = some q ∧ Within t source q ∧ p = copy q := by
  rw [h.parent?_copy hs he] at hp
  split at hp
  · cases hp
  next hne =>
    obtain ⟨q, hq, rfl⟩ := Option.map_eq_some_iff.mp hp
    exact ⟨q, hq, (hs.resolve_left hne).within_of_parent? hq, rfl⟩

/-- Below the top, what holds an element within the subtree is copied along with
    it. -/
theorem parent?_copy_of_parent? (h : Copied t t' source copy) (hwl : WellLinked t)
    {s q : ElementId} (hq : Within t source q) (hp : t.parent? s = some q) :
    t'.parent? (copy s) = some (copy q) := by
  obtain ⟨e, he, -⟩ := parent?_eq_some_iff.mp hp
  rw [h.parent?_copy (hq.of_parent? hp) he, if_neg ?_, hp]
  · rfl
  · rintro rfl
    exact hwl.acyclic s (ancestor_of_within_of_parent? hq hp)

/-- Above an old element is what was there. Above a copy are copies of what is
    above its source. -/
theorem cases_of_ancestor (h : Copied t t' source copy) (hwl : WellLinked t)
    {a id : ElementId} (ha : Ancestor t' a id) :
    (id.index < t.size → a.index < t.size ∧ Ancestor t a id)
      ∧ ∀ s e, Within t source s → t.get? s = some e → id = copy s →
        ∃ r, Within t source r ∧ Ancestor t r s ∧ a = copy r := by
  induction ha with
  | @parent id hp =>
      constructor
      · intro hid
        rw [h.parent?_old hid] at hp
        exact ⟨hwl.index_lt_of_parent? hp, .parent hp⟩
      · rintro s e hs he rfl
        obtain ⟨q, hq, hwithin, rfl⟩ := h.exists_of_parent?_copy hs he hp
        exact ⟨q, hwithin, .parent hq, rfl⟩
  | @above id p hp _ ih =>
      constructor
      · intro hid
        rw [h.parent?_old hid] at hp
        obtain ⟨hlt, ha⟩ := ih.1 (hwl.index_lt_of_parent? hp)
        exact ⟨hlt, .above hp ha⟩
      · rintro s e hs he rfl
        obtain ⟨q, hq, hwithin, rfl⟩ := h.exists_of_parent?_copy hs he hp
        obtain ⟨eq, heq⟩ := Option.isSome_iff_exists.mp
          ((get?_isSome_iff t q).mpr (hwl.index_lt_of_parent? hq))
        obtain ⟨r, hr, ha, rfl⟩ := ih.2 q eq hwithin heq rfl
        exact ⟨r, hr, .above hq ha, rfl⟩

/-- In a tree with copies, holding and being held still agree. A copy and its
    holder are both new or both old. -/
theorem mem_children_iff (h : Copied t t' source copy) (hwl : WellLinked t)
    (p c : ElementId) : c ∈ t'.children p ↔ t'.parent? c = some p := by
  have hchild : ∀ {p c}, c ∈ t.children p → c.index < t.size := by
    intro p c hc
    exact hwl.index_lt_of_mem_children hc
  constructor
  · intro hc
    rcases h.trichotomy p with hp | ⟨q, eq, hq, heq, rfl⟩ | hnone
    · rw [h.children_old hp] at hc
      rw [h.parent?_old (hchild hc)]
      exact (hwl.mem_children_iff p c).mp hc
    · rw [h.children_copy hq heq] at hc
      obtain ⟨d, hd, rfl⟩ := List.mem_map.mp hc
      exact h.parent?_copy_of_parent? hwl hq ((hwl.mem_children_iff q d).mp hd)
    · obtain ⟨e, he, -⟩ := mem_children_iff_exists.mp hc
      rw [hnone] at he
      cases he
  · intro hp
    rcases h.trichotomy c with hc | ⟨s, es, hs, hes, rfl⟩ | hnone
    · rw [h.parent?_old hc] at hp
      rw [h.children_old (hwl.index_lt_of_parent? hp)]
      exact (hwl.mem_children_iff p c).mpr hp
    · obtain ⟨q, hq, hwithin, rfl⟩ := h.exists_of_parent?_copy hs hes hp
      obtain ⟨eq, heq⟩ := Option.isSome_iff_exists.mp
        ((get?_isSome_iff t q).mpr (hwl.index_lt_of_parent? hq))
      rw [h.children_copy hwithin heq]
      exact List.mem_map_of_mem ((hwl.mem_children_iff q s).mpr hq)
    · obtain ⟨e, he, -⟩ := parent?_eq_some_iff.mp hp
      rw [hnone] at he
      cases he

theorem childrenOfKind_old (h : Copied t t' source copy) (hwl : WellLinked t)
    {p : ElementId} (hp : p.index < t.size) (kind : NodeKind) :
    t'.childrenOfKind p kind = t.childrenOfKind p kind := by
  rw [childrenOfKind, childrenOfKind, h.children_old hp]
  refine List.filter_congr fun c hc => ?_
  rw [h.kind?_old (hwl.index_lt_of_mem_children hc)]

/-- By kind, too, a copy holds the copies of what is held. -/
theorem childrenOfKind_copy (h : Copied t t' source copy) (hwl : WellLinked t)
    {s : ElementId} {e : Element} (hs : Within t source s) (he : t.get? s = some e)
    (kind : NodeKind) :
    t'.childrenOfKind (copy s) kind = (t.childrenOfKind s kind).map copy := by
  rw [childrenOfKind, childrenOfKind, h.children_copy hs he, List.filter_map]
  refine congrArg (List.map copy) (List.filter_congr fun c hc => ?_)
  obtain ⟨ec, hec, hparent⟩ := hwl.exists_of_mem_children hc
  have hwithin : Within t source c :=
    hs.of_parent? (parent?_eq_some_iff.mpr ⟨ec, hec, hparent⟩)
  show decide (t'.kind? (copy c) = some kind) = _
  rw [h.kind?_copy hwithin hec]

/-- The header of a copied class shows its name. -/
theorem tokenFits_copiedElement {s : ElementId} {e : Element} (h : e.TokenFits) :
    (copiedElement source copy s e).TokenFits := by
  have hframe := frame_copiedElement source copy s e
  have htoken := congrArg (·.2.2) hframe
  have hname := congrArg (·.2.1) hframe
  dsimp only [Element.frame] at htoken hname
  rw [Element.tokenFits_iff] at h ⊢
  rw [htoken, hname]
  exact h

end Copied

/-- A copy keeps a tree well linked. -/
theorem WellLinked.copied {source : ElementId} {copy : ElementId → ElementId}
    (hwl : WellLinked t) (h : Copied t t' source copy) : WellLinked t' := by
  obtain ⟨er, her, -⟩ := hwl.exists_root
  have hroot := index_lt_of_get? her
  have hwithin : ∀ {q c}, Within t source q → c ∈ t.children q →
      Within t source c := fun hq hc =>
    hq.of_parent? ((hwl.mem_children_iff _ _).mp hc)
  exact
    { kind?_root := by
        rw [h.root_eq, h.kind?_old hroot]
        exact hwl.kind?_root
      parent?_root := by
        rw [h.root_eq, h.parent?_old hroot]
        exact hwl.parent?_root
      mem_children_iff := h.mem_children_iff hwl
      nodup_children := fun p => by
        rcases h.trichotomy p with hp | ⟨q, eq, hq, heq, rfl⟩ | hnone
        · rw [h.children_old hp]
          exact hwl.nodup_children p
        · rw [h.children_copy hq heq]
          refine List.Nodup.map_on (fun c hc d hd => ?_) (hwl.nodup_children q)
          exact h.injective c d (hwithin hq hc) (hwithin hq hd)
        · rw [children, hnone]
          exact .nil
      acyclic := fun id ha => by
        rcases h.trichotomy id with hid | ⟨s, es, hs, hes, rfl⟩ | hnone
        · exact hwl.acyclic id ((h.cases_of_ancestor hwl ha).1 hid).2
        · obtain ⟨r, hr, hrs, heq⟩ := (h.cases_of_ancestor hwl ha).2 s es hs hes rfl
          exact hwl.acyclic s (h.injective s r hs hr heq ▸ hrs)
        · obtain ⟨p, hp⟩ := ha.exists_parent?
          rw [parent?, hnone] at hp
          cases hp
      mayHold_of_mem := fun p c k m hc hk hm => by
        rcases h.trichotomy p with hp | ⟨q, eq, hq, heq, rfl⟩ | hnone
        · rw [h.children_old hp] at hc
          rw [h.kind?_old hp] at hk
          rw [h.kind?_old (hwl.index_lt_of_mem_children hc)] at hm
          exact hwl.mayHold_of_mem p c k m hc hk hm
        · rw [h.children_copy hq heq] at hc
          obtain ⟨d, hd, rfl⟩ := List.mem_map.mp hc
          obtain ⟨e, he, -⟩ := hwl.exists_of_mem_children hd
          rw [h.kind?_copy hq heq] at hk
          rw [h.kind?_copy (hwithin hq hd) he] at hm
          exact hwl.mayHold_of_mem q d k m hd hk hm
        · rw [kind?, hnone] at hk
          cases hk
      length_indexers := fun p => by
        rcases h.trichotomy p with hp | ⟨q, eq, hq, heq, rfl⟩ | hnone
        · rw [h.childrenOfKind_old hwl hp]
          exact hwl.length_indexers p
        · rw [h.childrenOfKind_copy hwl hq heq, List.length_map]
          exact hwl.length_indexers q
        · rw [childrenOfKind, children, hnone]
          exact Nat.zero_le 1
      token_eq_name := fun id e' c he' hc => by
        rcases h.trichotomy id with hid | ⟨s, es, hs, hes, rfl⟩ | hnone
        · rw [h.get?_old id hid] at he'
          exact hwl.token_eq_name id e' c he' hc
        · rw [h.get?_copy s es hs hes] at he'
          obtain rfl := Option.some.inj he'
          exact Copied.tokenFits_copiedElement
            (fun c hc => hwl.token_eq_name s es c hes hc) c hc
        · rw [hnone] at he'
          cases he' }

end Tree

end CodeModel
