import CodeModel.Proofs.Operations
import CodeModel.Proofs.Successes

/-!
# Batches, all or nothing

A batch is checked element by element, each against the tree and against the
elements before it. Taken together the checks say what the batch and its holder
are, with no word of an order in which they are made (`insertable_iff`). What
passes them is linked as a whole, and linking cannot fail.

Main statement: `run_add_exact`, by which a batch goes in exactly when it is fit
for the slot, changes the links of the holder and of its own elements and
nothing else, and leaves no trace when it is refused.
-/

namespace CodeModel

namespace Tree

variable {t : Tree} {slot : Slot} {holder : ElementId} {ids : List ElementId}

/-- The elements of a batch are all of the kind that the slot takes. -/
theorem filter_indexer_of_memberKind
    (hmember : ∀ c ∈ ids, t.kind? c = some slot.memberKind) :
    ids.filter (fun c => t.kind? c = some .indexer) = if slot = .indexer then ids
      else [] := by
  by_cases hslot : slot = .indexer
  · rw [if_pos hslot]
    refine List.filter_eq_self.mpr fun c hc => ?_
    rw [hmember c hc, hslot]
    rfl
  · rw [if_neg hslot]
    refine List.filter_eq_nil_iff.mpr fun c hc => ?_
    rw [hmember c hc, decide_eq_true_iff]
    exact fun heq => hslot (Slot.eq_indexer_of_memberKind (Option.some.inj heq))

/-- A holder ends with one indexer at most exactly when the slot for one is
    free, or another one is meant. -/
theorem WellLinked.length_indexers_append_iff (hwl : WellLinked t) (hne : ids ≠ [])
    (hmember : ∀ c ∈ ids, t.kind? c = some slot.memberKind) :
    ((t.children holder ++ ids).filter fun c =>
      t.kind? c = some .indexer).length ≤ 1 ↔
      (slot = .indexer → t.childrenOfKind holder .indexer = [] ∧ ids.length ≤ 1) :=
        by
  have hone := hwl.length_indexers holder
  have hsome := List.length_pos_iff.mpr hne
  rw [List.filter_append, filter_indexer_of_memberKind hmember, List.length_append]
  show (t.childrenOfKind holder .indexer).length + _ ≤ 1 ↔ _
  by_cases hslot : slot = .indexer
  · rw [if_pos hslot, ← List.length_eq_zero_iff]
    constructor
    · intro h _
      omega
    · intro h
      obtain ⟨hnone, hle⟩ := h hslot
      omega
  · rw [if_neg hslot, List.length_nil]
    exact ⟨fun _ h => absurd h hslot, fun _ => hone⟩

/-- A batch is apart from what the holder has, and within itself, when each of
    its elements is apart from what stands before it. -/
theorem apart_iff_of_append_cons :
    (∀ before c after, ids = before ++ c :: after →
        ∀ x ∈ t.children holder ++ before, t.collides x c = false) ↔
      (∀ c ∈ ids, ∀ x ∈ t.children holder, t.collides x c = false)
        ∧ ids.Pairwise fun x c => t.collides x c = false := by
  constructor
  · intro h
    constructor
    · intro c hc x hx
      obtain ⟨before, after, hsplit⟩ := List.append_of_mem hc
      exact h before c after hsplit x (List.mem_append_left _ hx)
    · refine pairwise_of_append_cons fun before c after hsplit x hx => ?_
      exact h before c after hsplit x (List.mem_append_right _ hx)
  · rintro ⟨hchildren, hmembers⟩ before c after hsplit x hx
    rcases List.mem_append.mp hx with hx | hx
    · refine hchildren c ?_ x hx
      rw [hsplit]
      exact List.mem_append_right _ List.mem_cons_self
    · rw [hsplit, List.pairwise_append] at hmembers
      exact hmembers.2.2 x hx c List.mem_cons_self

/-- What a batch has to be, as one condition on the tree. -/
theorem WellLinked.insertable_iff (hwl : WellLinked t) (hne : ids ≠ []) :
    Insertable t slot holder ids ↔
      t.kind? holder = some slot.holderKind
        ∧ (∀ c ∈ ids, t.kind? c = some slot.memberKind ∧ c ≠ t.root
          ∧ t.parent? c = none
            ∧ ¬ Within t c holder)
        ∧ ids.Nodup
        ∧ ((t.children holder ++ ids).filter fun c =>
          t.kind? c = some .indexer).length ≤ 1
        ∧ ∀ before c after, ids = before ++ c :: after →
            ∀ x ∈ t.children holder ++ before, t.collides x c = false := by
  constructor
  · intro h
    refine ⟨h.holder_kind, fun c hc => ?_, h.nodup, ?_, ?_⟩
    · exact ⟨h.member_kind c hc, h.ne_root c hc, h.free c hc, h.not_within c hc⟩
    · exact (hwl.length_indexers_append_iff hne h.member_kind).mpr h.one_indexer
    · exact apart_iff_of_append_cons.mpr ⟨h.apart_children, h.apart_members⟩
  · rintro ⟨hholder, hmember, hnodup, hindexer, happart⟩
    have hkind : ∀ c ∈ ids, t.kind? c = some slot.memberKind :=
      fun c hc => (hmember c hc).1
    obtain ⟨hchildren, hmembers⟩ := apart_iff_of_append_cons.mp happart
    exact
      { holder_kind := hholder
        member_kind := hkind
        ne_root := fun c hc => (hmember c hc).2.1
        free := fun c hc => (hmember c hc).2.2.1
        not_within := fun c hc => (hmember c hc).2.2.2
        nodup := hnodup
        one_indexer := (hwl.length_indexers_append_iff hne hkind).mp hindexer
        apart_children := hchildren
        apart_members := hmembers }

end Tree

namespace Edit

open CodeModel.Tree

variable {t : Tree}

/-- A batch goes into a slot exactly when the holder is there and of the kind
    that has the slot, the batch is not empty and lists no element twice, every
    element of it is there, of the kind that the slot takes, not the root, held
    by nothing and neither the holder nor above it, the holder ends with one
    indexer at most, and no element collides with one that the holder has or one
    listed before it. Then the elements stand behind those that the holder has,
    in order, and nothing else is changed. A batch that is refused leaves the
    tree as it was. -/
theorem run_add_exact (hwf : WellFormed t) (slot : Slot) (holder : ElementId)
    (ids : List ElementId) :
    ((∃ t', (add slot holder ids).run t = .ok () t') ↔
        t.kind? holder = some slot.holderKind ∧ ids ≠ []
          ∧ (∀ c ∈ ids, t.kind? c = some slot.memberKind ∧ c ≠ t.root
            ∧ t.parent? c = none
              ∧ ¬ Within t c holder)
          ∧ ids.Nodup
          ∧ ((t.children holder ++ ids).filter fun c =>
            t.kind? c = some .indexer).length ≤ 1
          ∧ ∀ before c after, ids = before ++ c :: after →
              ∀ x ∈ t.children holder ++ before, t.collides x c = false)
      ∧ (∀ t', (add slot holder ids).run t = .ok () t' →
        ChangedBy (linkUp holder ids) t t')
      ∧ ∀ err t', (add slot holder ids).run t = .error err t' → t' = t := by
  have hwl := hwf.toWellLinked
  refine ⟨⟨?_, ?_⟩, fun t' hrun => ?_, fun err t' hrun => ?_⟩
  · rintro ⟨t', hrun⟩
    have hinsert := run_add_eq_ok_iff.mp hrun
    obtain ⟨-, -, -, hne, -, -⟩ :=
      (insert_eq_ok_iff t t' slot holder ids).mp hinsert
    obtain ⟨hfit, -⟩ := insertable_of_insert hwl hinsert
    obtain ⟨hholder, hrest⟩ := (hwl.insertable_iff hne).mp hfit
    exact ⟨hholder, hne, hrest⟩
  · rintro ⟨hholder, hne, hrest⟩
    have hfit := (hwl.insertable_iff hne).mpr ⟨hholder, hrest⟩
    obtain ⟨_, t', hrun, -⟩ :=
      succeeds_add (Q := fun _ _ => True) hwl hfit hne trivial
    exact ⟨t', hrun⟩
  · obtain ⟨-, rfl⟩ := insertable_of_insert hwl (run_add_eq_ok_iff.mp hrun)
    exact changedBy_attach t holder ids
  · exact eq_of_run_change_eq_error hrun

/-- A class with a method, an overload of the method, and another method, the
    two of them held by nothing. -/
def overloadsApart : Tree :=
  Operation.runAll
    [.addNew .classes ⟨0⟩ (.classDecl "Client" .requestBuilder),
      .addNew .methods ⟨1⟩ (.method "get" .requestExecutor (.external "Order")),
      .create (.method "get" .requestExecutor (.external "Order")),
      .addNew .parameters ⟨3⟩ (.parameter "id" .custom (.external "string")),
      .create (.method "put" .requestExecutor (.external "Order"))]
    initial

theorem wellFormed_overloadsApart : WellFormed overloadsApart :=
  (Operation.fullyNamed_runAll _ fullyNamed_initial).wellFormed

/-- The overload and the other method join the class together. With the overload
    listed twice, or with the first method, which the class has, the other
    method does not join it either. -/
theorem run_add_exact_overloadsApart :
    (∃ t', (add .methods ⟨1⟩ [⟨5⟩, ⟨3⟩]).run overloadsApart = .ok () t'
        ∧ t'.children ⟨1⟩ = [⟨2⟩, ⟨5⟩, ⟨3⟩] ∧ t'.parent? ⟨3⟩ = some ⟨1⟩
          ∧ t'.children ⟨3⟩ = [⟨4⟩])
      ∧ (¬ ∃ t', (add .methods ⟨1⟩ [⟨5⟩, ⟨3⟩, ⟨3⟩]).run overloadsApart = .ok () t')
      ∧ ∃ err, (add .methods ⟨1⟩ [⟨5⟩, ⟨2⟩]).run overloadsApart
        = .error err overloadsApart := by
  have hwl := wellFormed_overloadsApart.toWellLinked
  refine ⟨?_, ?_, ?_⟩
  · obtain ⟨hiff, hchanged, -⟩ :=
      run_add_exact wellFormed_overloadsApart .methods ⟨1⟩ [⟨5⟩, ⟨3⟩]
    have hmember : ∀ c ∈ [(⟨5⟩ : ElementId), ⟨3⟩], overloadsApart.kind? c
      = some .method
        ∧ c ≠ overloadsApart.root ∧ overloadsApart.parent? c = none
        ∧ ¬ overloadsApart.isWithin c ⟨1⟩ = true := by decide +kernel
    obtain ⟨t', hrun⟩ := hiff.mpr ⟨by decide +kernel, by decide, fun c hc =>
      (hmember c hc).imp_right (.imp_right (.imp_right (mt hwl.isWithin_iff.mpr))),
      by decide, by decide +kernel,
      apart_iff_of_append_cons.mpr ⟨by decide +kernel, by decide +kernel⟩⟩
    have hget := (hchanged t' hrun).get?_eq
    refine ⟨t', hrun, ?_, ?_, ?_⟩
    · rw [children, hget]; decide +kernel
    · rw [parent?, hget]; decide +kernel
    · rw [children, hget]; decide +kernel
  · obtain ⟨hiff, -, -⟩ :=
      run_add_exact wellFormed_overloadsApart .methods ⟨1⟩ [⟨5⟩, ⟨3⟩, ⟨3⟩]
    intro h
    obtain ⟨-, -, -, hnodup, -⟩ := hiff.mp h
    exact absurd hnodup (by decide)
  · obtain ⟨-, -, hkept⟩ :=
      run_add_exact wellFormed_overloadsApart .methods ⟨1⟩ [⟨5⟩, ⟨2⟩]
    obtain ⟨err, t', hrun⟩ : ∃ err t',
        (add .methods ⟨1⟩ [⟨5⟩, ⟨2⟩]).run overloadsApart = .error err t' :=
      ⟨_, _, rfl⟩
    rw [hkept err t' hrun] at hrun
    exact ⟨err, hrun⟩

end Edit

end CodeModel
