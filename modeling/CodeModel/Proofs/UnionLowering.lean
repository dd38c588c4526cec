import CodeModel.Proofs.PipelineSteps

/-!
# Union types of a refined tree

Every target puts wrapper classes in the place of union types. The pass that
does so visits what is attached when it begins; the members of the wrappers that
it makes are not visited, and later passes make elements and correct types. None
of them brings a union type back.

* **`FreeAt`**: some elements, and all that was made from a certain place on,
  have values without union types.
* **`lowered_of_wrapUnions`**: after the pass that holds of everything attached.
* **`Lowered.steps`**: steps of any kind keep it.

The pass looks at the types of values only. An indexer has a second type, that
of its index, and no pass looks whether that one is a union.

Main statements: `unionFree_iff_of_refine`, values of a refined tree have no
union types, and neither have indices exactly when none had one before, and
`exists_union_of_refine`, one of some tree has.
-/

namespace CodeModel

open CodeModel.Tree

namespace Tree

/-- No type of the value or the index of an attached element is a union or holds
    one. -/
def UnionFree (t : Tree) : Prop :=
  ∀ x r, Attached t x → t.valueType? x = some r ∨ t.indexType? x = some r →
    ∀ s ∈ r.walk, s.isUnion = false

/-- The elements that `P` holds of, and all that were made from the place `n`
    on, have values without union types. -/
def FreeAt (P : ElementId → Prop) (n : Nat) (t : Tree) : Prop :=
  ∀ x e, t.get? x = some e → P x ∨ n ≤ x.index → e.UnionFree

/-- What is attached, and all that was made from the place `n` on, has values
    without union types. -/
def Lowered (n : Nat) (t : Tree) : Prop :=
  FreeAt (Attached t) n t

variable {t t' : Tree} {n : Nat} {K : StepKind → Prop} {P : ElementId → Prop}

/-! ## Steps -/

/-- A step brings no union type back, unless it copies one. -/
theorem FreeAt.step (h : Stable t) (hstep : Step K n t t')
    (hsource : K .copy → ∀ x, Ancestor t t.root x → P x)
    (hfree : FreeAt P n t) : FreeAt P n t' := by
  intro x e' he' hx
  rcases old_or_made_of_step h hstep he' with ⟨e, he⟩ | ⟨-, -, k, hk, hmade⟩
  · exact (kept_of_get? h (.single hstep) he he').unionFree (hfree x e he hx)
  · cases k with
    | make => exact hmade
    | construct => exact hmade.1
    | copy =>
        obtain ⟨source, es, hbelow, hes, hcopy⟩ := hmade
        exact hcopy (hfree source es hes (Or.inl (hsource hk source hbelow)))
    | _ => exact hmade.elim

/-- Steps that copy nothing make no union anew. -/
theorem FreeAt.steps (h : Stable t) (hsteps : Steps K n t t') (hcopy : ¬ K .copy)
    (hfree : FreeAt P n t) : FreeAt P n t' := by
  induction hsteps with
  | refl => exact hfree
  | tail hsteps hstep ih =>
      exact ih.step (h.steps hsteps).1 hstep fun hk => absurd hk hcopy

/-- What steps attach is new, and copies are made of what is attached. -/
theorem Lowered.steps (h : Stable t) (hsteps : Steps K n t t')
    (hlowered : Lowered n t) : Lowered n t' := by
  induction hsteps with
  | refl => exact hlowered
  | tail hsteps hstep ih =>
      have hs := (h.steps hsteps).1
      have hfree := FreeAt.step hs hstep (fun _ _ hx => Or.inr hx) ih
      exact fun x e he hx =>
        hfree x e he (hx.elim (attached_of_step hs hstep) Or.inr)

/-- Steps make no indexers. -/
theorem exists_of_indexer_of_steps (h : Stable t) (hsteps : Steps K n t t')
    {x : ElementId} {e' : Element} (he' : t'.get? x = some e')
    (hkind : e'.kind = .indexer) : ∃ e, t.get? x = some e := by
  induction hsteps generalizing e' with
  | refl => exact ⟨e', he'⟩
  | tail hsteps hstep ih =>
      have hs := (h.steps hsteps).1
      rcases old_or_made_of_step hs hstep he' with ⟨e₁, he₁⟩ | ⟨-, hne, -⟩
      · have hkept := kept_of_get? hs (.single hstep) he₁ he'
        exact ih he₁
          ((Element.kind_eq_of_nature_eq hkept.nature_eq).symm.trans hkind)
      · exact absurd hkind hne

/-- The type of an index is a union after steps exactly if it was one before. -/
theorem indexType?_of_steps (h : Stable t) (hsteps : Steps K t.size t t')
    {x : ElementId} {r' : TypeRef} (hx : Attached t' x)
    (hr' : t'.indexType? x = some r') :
    ∃ r, Attached t x ∧ t.indexType? x = some r ∧ r'.isUnion = r.isUnion := by
  obtain ⟨e', he', hindex'⟩ := Option.bind_eq_some_iff.mp hr'
  have hkind' : e'.kind = .indexer := Element.exists_indexType?_iff.mp ⟨r', hindex'⟩
  obtain ⟨e, he⟩ := exists_of_indexer_of_steps h hsteps he' hkind'
  have hkept := kept_of_get? h hsteps he he'
  have hkind : e.kind = .indexer :=
    (Element.kind_eq_of_nature_eq hkept.nature_eq).symm.trans hkind'
  obtain ⟨r, hindex⟩ := Element.exists_indexType?_iff.mpr hkind
  obtain ⟨r₁, hindex₁, halike⟩ := hkept.index r hindex
  obtain rfl : r₁ = r' := Option.some.inj (hindex₁.symm.trans hindex')
  refine ⟨r, ?_, ?_, halike.isUnion_eq⟩
  · exact (attached_of_steps h hsteps hx).resolve_right
      (Nat.not_le.mpr (index_lt_of_get? he))
  · rw [indexType?, he, Option.bind_some, hindex]

/-! ## The pass that lowers union types -/

/-- The kinds of steps by which union types are lowered. -/
def StepKind.Lowering (k : StepKind) : Prop :=
  k ∈ (Pass.wrapUnions .innerClasses).stepKinds

instance : DecidablePred StepKind.Lowering := fun k =>
  inferInstanceAs (Decidable (k ∈ (Pass.wrapUnions .innerClasses).stepKinds))

/-- Everything attached is visited, and what a visit leaves without a union type
    stays without one. -/
theorem lowered_of_wrapUnions {placement : WrapperPlacement} (h : Stable t)
    {u : Unit} (hrun : (Edit.wrapUnions placement).run t = .ok u t') :
    Lowered t.size t' := by
  have hsteps : Steps StepKind.Lowering t.size t t' :=
    steps_wrapUnions (by decide) (by decide) (by decide) h (Nat.le_refl _) hrun
  have hnone : FreeAt (fun _ => False) t.size t := fun x e he hx =>
    absurd (index_lt_of_get? he) (Nat.not_lt.mpr (hx.resolve_left id))
  have hmade := hnone.steps h hsteps (by decide)
  obtain ⟨w, hcrawl⟩ := Edit.run_discard_eq_ok_iff.mp hrun
  have hvisited : ∀ x ∈ t.descendants t.root, ∃ e, t'.get? x = some e
      ∧ e.UnionFree := by
    refine settled_of_crawlWith (J := fun w s => WrappersFit s w)
      (K := StepKind.Lowering)
      (P := fun x s => ∃ e, s.get? x = some e ∧ e.UnionFree) ?_ ?_ h
      (fun p hp => absurd hp List.not_mem_nil) hcrawl
    · intro w s id w' s' hs hid hw hvisit
      obtain ⟨hsteps, hw', hfree⟩ :=
        steps_wrapUnion (K := StepKind.Lowering) (by decide) (by decide)
        (by decide) hs (Nat.le_refl _) hid hw hvisit
      obtain ⟨hs', hc⟩ := hs.steps hsteps
      obtain ⟨e, he⟩ := Option.isSome_iff_exists.mp
        ((get?_isSome_iff s' id).mpr
          (hs'.toWellLinked.index_lt_of_attached (hc.attached hid)))
      exact ⟨hsteps, hw', e, he, hfree e he⟩
    · rintro s s' x hs - hsteps ⟨e, he, hfree⟩
      obtain ⟨e', he', hkept⟩ := kept_of_steps hs hsteps he
      exact ⟨e', he', hkept.unionFree hfree⟩
  intro x e he hx
  rcases hx.elim (attached_of_steps h hsteps) Or.inr with (hroot | hx) | hx
  · -- The root is a namespace, and a namespace has no value.
    have hkind := (h.steps hsteps).1.toWellLinked.kind?_root
    rw [(h.steps hsteps).2.root_eq, ← hroot] at hkind
    obtain ⟨er, her, hkind⟩ := kind?_eq_some_iff.mp hkind
    obtain rfl : er = e := Option.some.inj (her.symm.trans he)
    intro r hr
    rw [Element.valueType?_eq_none_of_namespace hkind] at hr
    cases hr
  · obtain ⟨e₁, he₁, hfree⟩ :=
      hvisited x (h.toWellLinked.mem_descendants_iff.mpr hx)
    obtain rfl : e₁ = e := Option.some.inj (he₁.symm.trans he)
    exact hfree
  · exact hmade x e he (Or.inr hx)

end Tree

namespace Configuration

variable {c : Configuration} {t t' : Tree} {u : Unit}

/-- Union types are lowered for every target. -/
theorem exists_wrapUnions_mem_passes (c : Configuration) :
    ∃ placement, Pass.wrapUnions placement ∈ c.passes := by
  cases hl : c.language with
  | csharp => exact ⟨.innerClasses, by simp [passes, hl, csharpPasses]⟩
  | java => exact ⟨.innerClasses, by simp [passes, hl, javaPasses]⟩
  | typescript => exact ⟨.siblingClasses, by simp [passes, hl, typescriptPasses]⟩
  | go => exact ⟨.siblingClasses, by simp [passes, hl, goPasses]⟩

/-- What is attached to a refined tree has values without union types. -/
theorem exists_lowered_of_refine (hwf : WellFormed t)
    (hrun : (refine c).run t = .ok u t') : ∃ n, Lowered n t' := by
  obtain ⟨placement, hmem⟩ := c.exists_wrapUnions_mem_passes
  obtain ⟨before, after, hsplit⟩ := List.append_of_mem hmem
  obtain ⟨s, m, hs, hwrap, hm, hafter⟩ := exists_run_of_refine hwf hrun hsplit
  have hsteps : Steps (fun _ => True) s.size m t' :=
    Pipeline.steps_of_forM (fun _ _ _ _ => trivial) hm hafter
    (Pass.stable_apply _ hs hwrap).2.size_le
  exact ⟨s.size, (lowered_of_wrapUnions hs hwrap).steps hm hsteps⟩

/-- No value of a refined tree has a union type anywhere in it. And the whole
    tree is without union types exactly when no index of the tree that was
    refined had one: the type of an index is not looked at. -/
theorem unionFree_iff_of_refine (hwf : WellFormed t)
    (hrun : (refine c).run t = .ok u t') :
    (∀ x r, Attached t' x → t'.valueType? x = some r →
      ∀ s ∈ r.walk, s.isUnion = false)
      ∧ (t'.UnionFree ↔ ∀ x r, Attached t x → t.indexType? x = some r →
        r.isUnion = false) := by
  obtain ⟨h, hsteps⟩ := Pipeline.steps_of_run hwf (run_of_refine hrun)
  have hvalues : ∀ x r, Attached t' x → t'.valueType? x = some r →
      ∀ s ∈ r.walk, s.isUnion = false := by
    intro x r hx hr s hs
    obtain ⟨n, hlowered⟩ := exists_lowered_of_refine hwf hrun
    obtain ⟨e, he, hvalue⟩ := Option.bind_eq_some_iff.mp hr
    exact TypeRef.isUnion_eq_false_of_mem_walk
      (hlowered x e he (Or.inl hx) r hvalue) hs
  refine ⟨hvalues, ?_, ?_⟩
  · -- The types of indices are what they were, so those of the tree before are
    -- looked up afterwards.
    intro hfree x r hx hr
    obtain ⟨e, he, hindex⟩ := Option.bind_eq_some_iff.mp hr
    obtain ⟨e', he', hkept⟩ := kept_of_steps h hsteps he
    obtain ⟨r', hindex', halike⟩ := hkept.index r hindex
    rw [← halike.isUnion_eq]
    refine hfree x r' ((h.steps hsteps).2.attached hx) (Or.inr ?_) r'
      (TypeRef.mem_walk_self r')
    rw [indexType?, he', Option.bind_some, hindex']
  · rintro hindices x r' hx (hr' | hr') s hs
    · exact hvalues x r' hx hr' s hs
    · obtain ⟨r, hxt, hr, hunion⟩ := indexType?_of_steps h hsteps hx hr'
      exact TypeRef.isUnion_eq_false_of_mem_walk
        (hunion.trans (hindices x r hxt hr)) hs

/-- The union of two types known by their names. -/
def textOrNumber : TypeRef :=
  .union "Value" [.external "string", .external "int"]

/-- A tree of a class with a property of a union within a union, and with an
    indexer that returns one. -/
def valuesByName : Tree :=
  Operation.runAll
    [.addNew .classes ⟨0⟩ (.classDecl "Values" .custom),
      .addNew .properties ⟨1⟩ (.property "first" .custom
        (.union "Some" [textOrNumber, .external "bool"])),
      .addNew .indexer ⟨1⟩ (.indexer "item" (.external "string") textOrNumber)]
    initial

theorem wellFormed_valuesByName : WellFormed valuesByName :=
  (Operation.fullyNamed_runAll _ fullyNamed_initial).wellFormed

/-- The union within gets the wrapper that the indexer then returns. -/
theorem unionFree_of_refine_valuesByName :
    ∃ t', (refine { language := .go }).run valuesByName = .ok () t'
      ∧ t'.valueType? ⟨2⟩ = some (.declared "Some" ⟨10⟩)
      ∧ t'.valueType? ⟨3⟩ = some (.declared "Value" ⟨4⟩)
      ∧ t'.UnionFree := by
  obtain ⟨t', hrun, hproperty, hindexer⟩ :
      ∃ t', (refine { language := .go }).run valuesByName = .ok () t'
        ∧ t'.valueType? ⟨2⟩ = some (.declared "Some" ⟨10⟩)
        ∧ t'.valueType? ⟨3⟩ = some (.declared "Value" ⟨4⟩) :=
          Pipeline.exists_eq_ok (by decide +kernel)
  have hindices : ∀ x < valuesByName.size, ∀ r ∈ valuesByName.indexType? ⟨x⟩,
      r.isUnion = false := by
    decide +kernel
  refine ⟨t', hrun, hproperty, hindexer,
    (unionFree_iff_of_refine wellFormed_valuesByName hrun).2.mpr ?_⟩
  intro x r _ hr
  obtain ⟨e, he, -⟩ := Option.bind_eq_some_iff.mp hr
  exact hindices x.index (index_lt_of_get? he) r hr

/-- A tree of a class with an indexer whose index is of a union type. -/
def valuesByKey : Tree :=
  Operation.runAll
    [.addNew .classes ⟨0⟩ (.classDecl "Values" .custom),
      .addNew .indexer ⟨1⟩ (.indexer "item" textOrNumber (.external "string"))]
    initial

/-- Refining can leave a union type: that of an index. -/
theorem exists_union_of_refine :
    WellFormed valuesByKey ∧ valuesByKey.validateReferences = .ok ()
      ∧ ({ language := .go } : Configuration).validate = .ok ()
      ∧ ∃ t', (refine { language := .go }).run valuesByKey = .ok () t'
      ∧ ¬ t'.UnionFree := by
  have hwf : WellFormed valuesByKey :=
    (Operation.fullyNamed_runAll _ fullyNamed_initial).wellFormed
  obtain ⟨t', hrun, hclass, hindexer, hindex⟩ :
      ∃ t', (refine { language := .go }).run valuesByKey = .ok () t'
        ∧ t'.parent? ⟨1⟩ = some t'.root
        ∧ t'.parent? ⟨2⟩ = some ⟨1⟩ ∧ t'.indexType? ⟨2⟩ = some textOrNumber :=
    Pipeline.exists_eq_ok (by decide +kernel)
  refine ⟨hwf, by decide +kernel, by decide +kernel, t', hrun, fun hfree => ?_⟩
  have hunion := hfree ⟨2⟩ textOrNumber (Or.inr (.above hindexer (.parent hclass)))
    (Or.inr hindex)
    textOrNumber (TypeRef.mem_walk_self _)
  cases hunion

end Configuration

end CodeModel
