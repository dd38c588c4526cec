import CodeModel.Proofs.Counterparts
import CodeModel.Proofs.Operations

/-!
# Copies, element by element

A copy is made in two rounds. The first lays the subtree out at the end of the
arena, each element before what it holds. The second points references that lead
into the subtree at the copies, one copy after another, and comes to the copies
in no order that is fixed. It looks up originals and writes to copies, and no
copy is an original, so the order makes no difference.

* **`rebindEach_eq_withCopies`**: the second round leaves one tree, whatever its
  order.
* **`CopyOf`**: what a copy is, slot by slot.
* **`run_cloneSubtree_exact`**: which element stands where in the result, and
  what it is.
-/

namespace CodeModel

namespace Tree

variable {t : Tree} {source : ElementId} {e : Element}

/-! ## The second round -/

/-- Changes some elements, one after another, each of them once. -/
theorem changedBy_foldl_modify (f : Element → Element) {order : List ElementId}
    (hnodup : order.Nodup) (s : Tree) :
    ChangedBy (fun x e => if x ∈ order then f e else e) s
      (order.foldl (fun s id => s.modify id f) s) := by
  induction order generalizing s with
  | nil => simpa using changedBy_refl s
  | cons c rest ih =>
      obtain ⟨hc, hrest⟩ := List.nodup_cons.mp hnodup
      refine ((changedBy_modify s c f).trans (ih hrest _)).congr fun x e _ => ?_
      by_cases hx : x = c
      · rw [if_pos hx, if_neg (hx ▸ hc), if_pos (hx ▸ List.mem_cons_self)]
      · rw [if_neg hx]
        simp only [List.mem_cons, hx, false_or]

/-- The tree with a subtree laid out at the end of its arena, references still
    leading to the originals. -/
def withLayout (t : Tree) (source : ElementId) : Tree :=
  { t with elements := t.elements
      ++ ((t.layOut t.size none t.size source).map (·.2)).toArray }

/-- Points the references of some elements, one element after another, at where
    `copy` says. -/
def rebindEach (t : Tree) (copy : ElementId → ElementId)
    (order : List ElementId) : Tree :=
  order.foldl (fun t id => t.modify id (Element.mapTypes (·.rebind copy))) t

/-- Whatever the order in which the second round comes to the copies, it leaves
    the same tree. -/
theorem rebindEach_eq_withCopies {copy : ElementId → ElementId}
    {row order : List ElementId} (hrow : Consecutive t.size row)
    (hlength : row.length = (t.layOut t.size none t.size source).length)
    (hlayout : rebindLayout t.size (t.layOut t.size none t.size source)
      = (t.layOut t.size none t.size source).map fun p =>
      p.2.mapTypes (·.rebind copy)) (horder : order.Perm row) :
    (t.withLayout source).rebindEach copy order = t.withCopies source := by
  have hchanged := changedBy_foldl_modify (Element.mapTypes (·.rebind copy))
    (horder.nodup_iff.mpr (nodup_of_consecutive hrow)) (t.withLayout source)
  refine eq_of_get?_eq hchanged.root_eq fun x => ?_
  have hmem : x ∈ order ↔
      t.size ≤ x.index
        ∧ x.index < t.size + (t.layOut t.size none t.size source).length := by
    rw [horder.mem_iff, mem_iff_of_consecutive hrow, hlength]
  rw [rebindEach, hchanged.get?_eq, withLayout, get?_append, withCopies,
    get?_append, hlayout, List.getElem?_map, List.getElem?_map]
  by_cases hold : x.index < t.size
  · -- No copy stands where an element stood.
    have hnot : x ∉ order := fun hx => absurd (hmem.mp hx).1 (by omega)
    simp only [if_pos hold, if_neg hnot, Option.map_id']
  · rw [if_neg hold, if_neg hold, Option.map_map]
    cases hp : (t.layOut t.size none t.size source)[x.index - t.size]? with
    | none => rfl
    | some p =>
        obtain ⟨hlt, -⟩ := List.getElem?_eq_some_iff.mp hp
        have hin : x ∈ order := hmem.mpr (by omega)
        simp only [if_pos hin, Option.map_some, Function.comp_apply]

/-! ## One copy -/

/-- Element `e'` is the copy of `e`, the element `s` of the subtree at `source`,
    when elements of the subtree are copied to where `copy` says. Its links lead
    to copies, but the copy of the source is held by nothing. What it refers to,
    in any slot and at any depth, is the copy of what `e` refers to, or the same
    if that has none. In all else it is `e`. -/
structure CopyOf (source : ElementId) (copy : ElementId → ElementId) (s : ElementId)
    (e e' : Element) : Prop where
  name_eq : e'.name = e.name
  description_eq : e'.description = e.description
  parent_eq : e'.parent = if s = source then none else e.parent.map copy
  children_eq : e'.children = e.children.map copy
  content : e.content.Matches (TypeRef.Matches (fun r name => name = r.name) copy)
    (Import.Matches (TypeRef.Matches (fun r name => name = r.name) copy)
    fun i name => name = i.name) (fun a b => b = a) (fun a b => b = a) e'.content
  typeSlots_eq : e'.typeSlots = e.typeSlots.map (·.rebind copy)
  references_eq : e'.references = e.references.map (·.rebind copy)

/-- What is laid out and pointed at the copies is a copy. -/
theorem copyOf_copiedElement (source : ElementId) (copy : ElementId → ElementId)
    (s : ElementId) (e : Element) :
    CopyOf source copy s e (copiedElement source copy s e) where
  name_eq := rfl
  description_eq := rfl
  parent_eq := rfl
  children_eq := rfl
  content := Content.matches_mapTypes (TypeRef.matches_rebind copy) e.content
  typeSlots_eq := Element.typeSlots_mapTypes _ _
  references_eq := Element.references_rebind copy _

/-! ## The copy as a whole -/

/-- As many elements are laid out as there are in the subtree. -/
theorem WellLinked.length_layOut (hwl : WellLinked t)
    (he : t.get? source = some e) :
    (t.layOut t.size none t.size source).length
      = (source :: t.descendants source).length := by
  obtain ⟨copy, -, -, hlayout, -⟩ := exists_layout hwl he
  rw [hlayout, List.length_cons, List.length_cons, length_images]
  exact fun s hs => (hwl.mem_descendants_iff.mp hs).isSome_get?

/-- A copy adds as many elements as the subtree has. -/
theorem WellLinked.size_withCopies (hwl : WellLinked t)
    (he : t.get? source = some e) :
    (t.withCopies source).size = t.size + (source :: t.descendants source).length :=
      by
  obtain ⟨copy, -, -, hnew⟩ := exists_copied hwl he
  rw [← hwl.length_layOut he, size, withCopies, hnew]
  simp [size]

end Tree

namespace Edit

open CodeModel.Tree

variable {t : Tree} {source : ElementId} {e : Element}

/-- The subtree at any element but the root can be copied. The copies are new
    elements at the end of the arena, one for each element of the subtree, in
    the order in which each element comes before what it holds. A copy is its
    original but for the links, which lead to copies, and for the references
    into the subtree, which lead to copies as well, in every slot and at every
    depth. What was there before is as it was, and the order in which references
    are pointed at the copies makes no difference. -/
theorem run_cloneSubtree_exact (hwf : WellFormed t) (he : t.get? source = some e)
    (hne : source ≠ t.root) :
    ∃ t' copy, (cloneSubtree source).run t = .ok ⟨t.size⟩ t'
      ∧ (source :: t.descendants source).Nodup
      ∧ (∀ s, s ∈ source :: t.descendants source ↔ Within t source s)
      ∧ (∀ k s, (source :: t.descendants source)[k]? = some s →
        copy s = ⟨t.size + k⟩)
      ∧ (∀ s, ¬ Within t source s → copy s = s)
      ∧ t'.root = t.root
      ∧ t'.size = t.size + (source :: t.descendants source).length
      ∧ (∀ x, x.index < t.size → t'.get? x = t.get? x)
      ∧ (∀ s e, Within t source s → t.get? s = some e →
        t'.get? (copy s) = some (copiedElement source copy s e))
      ∧ (∀ s e, Within t source s → t.get? s = some e →
          ∃ e', t'.get? (copy s) = some e' ∧ CopyOf source copy s e e')
      ∧ ∀ order : List ElementId,
        order.Perm ((source :: t.descendants source).map copy) →
          (t.withLayout source).rebindEach copy order = t' := by
  have hwl := hwf.toWellLinked
  obtain ⟨copy, hcopied, hrow, hlayout⟩ := exists_copied hwl he
  have hrun : (cloneSubtree source).run t = .ok ⟨t.size⟩ (t.withCopies source) := by
    rw [cloneSubtree, run_changeWith_eq_ok_iff, Tree.cloneSubtree, he]
    exact if_neg hne
  refine ⟨t.withCopies source, copy, hrun, hwl.nodup_subtree source,
    fun s => hwl.mem_subtree_iff, fun k s hk => ?_, hcopied.copy_outside, rfl,
    hwl.size_withCopies he, hcopied.get?_old, hcopied.get?_copy, fun s e hs he =>
    ⟨_, hcopied.get?_copy s e hs he, copyOf_copiedElement source copy s e⟩,
    fun order horder => ?_⟩
  · refine getElem?_of_consecutive hrow ?_
    rw [List.getElem?_map, hk]
    rfl
  · refine rebindEach_eq_withCopies hrow ?_ hlayout horder
    rw [List.length_map, hwl.length_layOut he]

/-- A tree with a class, and a class that refers to it. The second holds a
    method and an inner class, which inherits from the class that holds it and
    is imported by it. The parameter of the method refers to both the first
    class and the inner one. -/
def orderOfLines : Tree :=
  Operation.runAll
    [.addNew .classes ⟨0⟩ (.classDecl "Customer" .model),
      .addNew .classes ⟨0⟩ (.classDecl "Order" .model),
      .addNew .methods ⟨2⟩ (.method "add" .custom (.external "void")),
      .addNew .innerClasses ⟨2⟩
        (.inheriting (.classDecl "Line" .model) (.declared "Order" ⟨2⟩)),
      .addNew .parameters ⟨3⟩
        (.parameter "value" .custom
          (.union "value" [.declared "Line" ⟨4⟩, .declared "Customer" ⟨1⟩])),
      .addNew .properties ⟨1⟩ (.property "last" .custom (.declared "Line" ⟨4⟩)),
      .addImports ⟨2⟩
        [.ofSymbol "shop" (.declared "Line" ⟨4⟩),
          .ofSymbol "shop" (.declared "Customer" ⟨1⟩)]]
    initial

theorem wellFormed_orderOfLines : WellFormed orderOfLines :=
  (Operation.fullyNamed_runAll _ fullyNamed_initial).wellFormed

/-- The parameter is copied before the inner class, as it is held by the method.
    Its copy refers to the copy of the inner class and to the first class, which
    still refers to the inner class itself. The copy of the class imports the
    copy of the inner class, and that inherits from the copy of the class. -/
theorem run_cloneSubtree_exact_orderOfLines :
    ∃ t' copy, (cloneSubtree ⟨2⟩).run orderOfLines = .ok ⟨7⟩ t'
      ∧ t'.size = 11 ∧ t'.parent? ⟨7⟩ = none ∧ t'.children ⟨7⟩ = [⟨8⟩, ⟨10⟩]
      ∧ t'.children ⟨8⟩ = [⟨9⟩]
      ∧ t'.valueType? ⟨9⟩
        = some (.union "value" [.declared "Line" ⟨10⟩, .declared "Customer" ⟨1⟩])
      ∧ t'.valueType? ⟨6⟩ = some (.declared "Line" ⟨4⟩)
      ∧ (t'.get? ⟨7⟩).map (·.imports) =
          some [.ofSymbol "shop" (.declared "Line" ⟨10⟩),
            .ofSymbol "shop" (.declared "Customer" ⟨1⟩)]
      ∧ (t'.class? ⟨10⟩).bind (·.inherits) = some (.declared "Order" ⟨7⟩)
      ∧ copy ⟨5⟩ = ⟨9⟩ ∧ copy ⟨4⟩ = ⟨10⟩
      ∧ (orderOfLines.withLayout ⟨2⟩).rebindEach copy [⟨10⟩, ⟨8⟩, ⟨7⟩, ⟨9⟩] = t' :=
        by
  obtain ⟨e, he⟩ : ∃ e, orderOfLines.get? ⟨2⟩ = some e := ⟨_, rfl⟩
  obtain ⟨t', copy, hrun, -, -, hcopy, -, -, hsize, -, -, -, horder⟩ :=
    run_cloneSubtree_exact wellFormed_orderOfLines he (by decide +kernel)
  have hrow : (⟨2⟩ : ElementId) :: orderOfLines.descendants ⟨2⟩
      = [⟨2⟩, ⟨3⟩, ⟨5⟩, ⟨4⟩] := by
    decide +kernel
  rw [hrow] at hcopy hsize horder
  have hcopies : [(⟨2⟩ : ElementId), ⟨3⟩, ⟨5⟩, ⟨4⟩].map copy
      = [⟨7⟩, ⟨8⟩, ⟨9⟩, ⟨10⟩] := by
    simp only [List.map_cons, List.map_nil, hcopy 0 ⟨2⟩ rfl, hcopy 1 ⟨3⟩ rfl,
      hcopy 2 ⟨5⟩ rfl, hcopy 3 ⟨4⟩ rfl]
    decide +kernel
  obtain rfl : treeOf ((cloneSubtree ⟨2⟩).run orderOfLines) = t' := by
    rw [hrun]
    rfl
  exact ⟨_, copy, hrun, hsize, by decide +kernel, by decide +kernel,
    by decide +kernel, by decide +kernel, by decide +kernel, by decide +kernel,
    by decide +kernel, hcopy 2 ⟨5⟩ rfl, hcopy 3 ⟨4⟩ rfl,
    horder _ (hcopies ▸ by decide)⟩

end Edit

end CodeModel
