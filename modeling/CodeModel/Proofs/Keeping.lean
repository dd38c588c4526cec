import CodeModel.Proofs.Amendments

/-!
# What every step keeps

Steps detach elements and attach them elsewhere, replace types, and make and
rename elements. None of that turns an element that is there into something
else.

* **`kept_of_step`**: a step leaves every element what it is, with its types
  bound as they were and under its name on the wire.
* **`rearranged_of_step`**: all that a step can do to the places of elements.
* **`old_or_made_of_step`**: what is there after a step was there or has been
  made in it.
* **`attached_of_step`**: what is attached after a step was attached or is new.
* **`links_of_step`**: a step gives another holder to classes only, and no
  method gets other parameters.

What steps keep one by one they keep together: `kept_of_steps`,
`attached_of_steps`, `links_of_steps`.
-/

namespace CodeModel

namespace Element

/-- Element `e'` is what `e` was, under its name on the wire. -/
structure Kept (e e' : Element) : Prop extends Holds e e' where
  wireName?_eq : e'.wireName? = e.wireName?

theorem kept_refl (e : Element) : Kept e e :=
  ⟨holds_refl e, rfl⟩

/-- What is kept twice is kept. -/
theorem Kept.trans {e e' e'' : Element} (h : Kept e e') (h' : Kept e' e'') :
    Kept e e'' :=
  ⟨h.toHolds.trans h'.toHolds, h'.wireName?_eq.trans h.wireName?_eq⟩

/-- What an element holds, its name and its name on the wire are all that has to
    be kept. -/
theorem Holds.kept {e e' : Element} (h : Holds e e') (hname : e'.name = e.name)
    (hslot : e'.wireSlot? = e.wireSlot?) : Kept e e' :=
  ⟨h, wireName?_eq hname hslot⟩

/-- Links do not matter to what is kept. -/
theorem kept_of_content_eq {e e' : Element} (hname : e'.name = e.name)
    (hdescription : e'.description = e.description)
    (hcontent : e'.content = e.content) : Kept e e' :=
  (holds_of_content_eq hdescription hcontent).kept hname
    (by rw [wireSlot?, wireSlot?, hcontent])

/-- An element whose name on the wire has been written down may be renamed. -/
theorem wireName?_of_noted {e e' : Element}
    (h : e'.wireSlot? = e.wireSlot?.map fun s => some (s.getD e.name)) :
    e'.wireName? = e.wireName? := by
  rw [wireName?, wireName?, h]
  cases e.wireSlot? <;> rfl

end Element

namespace Tree

variable {t t' : Tree} {n : Nat} {K : StepKind → Prop}

/-! ## Elements -/

/-- A renaming of something leaves every element what it was. -/
theorem holds_renamedElement (id : ElementId) (name : String) (x : ElementId)
    (e : Element) :
    Element.Holds e (t.renamedElement id name x e) := by
  have hnamed : Element.Holds e (if x = id then e.withName name else e) :=
    .ite fun _ => Element.holds_withName name e
  exact (hnamed.trans (Element.holds_mapTypes_rename _ _)).trans
    (Element.holds_mapImports _ _)

theorem wireSlot?_renamedElement (id : ElementId) (name : String) (x : ElementId)
    (e : Element) :
    (t.renamedElement id name x e).wireSlot? = e.wireSlot? := by
  rw [renamedElement, Element.wireSlot?_mapImports, Element.wireSlot?_mapTypes]
  split
  · exact Element.wireSlot?_withName name e
  · rfl

theorem ownTargets_renamedElement (id : ElementId) (name : String) (x : ElementId)
    (e : Element) :
    (t.renamedElement id name x e).ownTargets = e.ownTargets := by
  rw [renamedElement, Element.ownTargets_eq_of_ownTypes_eq
    (Element.ownTypes_mapImports _ _), Element.ownTargets_rename]
  split
  · exact Element.ownTargets_eq_of_ownTypes_eq (Element.ownTypes_withName name e)
  · rfl

theorem name_renamedElement_of_ne {id x : ElementId} (name : String) (e : Element)
    (hx : x ≠ id) :
    (t.renamedElement id name x e).name = e.name := by
  rw [Element.name_eq_of_frame_eq (renamedElement_frame t id name x e), if_neg hx]

/-- Joining a slot keeps all elements as they were, but for links. -/
theorem kept_linkUp (holder : ElementId) (ids : List ElementId) (x : ElementId)
    (e : Element) : Element.Kept e (linkUp holder ids x e) :=
  Element.kept_of_content_eq rfl rfl rfl

theorem kept_unlink (holder child x : ElementId) (e : Element) :
    Element.Kept e (unlink holder child x e) :=
  Element.kept_of_content_eq rfl rfl rfl

/-- A step leaves every element what it is. -/
theorem kept_of_step (h : Stable t) (hstep : Step K n t t') {x : ElementId}
    {e : Element} (he : t.get? x = some e) :
    ∃ e', t'.get? x = some e' ∧ Element.Kept e e' := by
  have hchanged :
      ∀ {F : ElementId → Element → Element} {s s' : Tree} {e₁ : Element},
      ChangedBy F s s' → s.get? x = some e₁ → s'.get? x = some (F x e₁) := by
    intro F s s' e₁ hF he₁
    rw [hF.get?_eq, he₁, Option.map_some]
  cases hstep with
  | @amend id f hf _ hmended =>
      refine ⟨_, hchanged (changedBy_modify t id f) he, ?_⟩
      by_cases hx : x = id
      · subst hx
        rw [if_pos rfl]
        exact (hf e he).holds.kept (Element.name_eq_of_frame_eq (hf e he).frame_eq)
          (hmended e he).wireSlot?_eq
      · rw [if_neg hx]
        exact Element.kept_refl e
  | @retype id r hf _ =>
      refine ⟨_, hchanged (changedBy_modify t id _) he, ?_⟩
      by_cases hx : x = id
      · subst hx
        rw [if_pos rfl]
        exact (hf e he).holds.kept rfl (Element.wireSlot?_mapValueType _ e)
      · rw [if_neg hx]
        exact Element.kept_refl e
  | @rename id name f _ _ hf _ hnotes =>
      have he₁ := hchanged (changedBy_rename h.toWellLinked id name) he
      refine ⟨_, hchanged (changedBy_modify _ id f) he₁, ?_⟩
      have hholds := holds_renamedElement (t := t) id name x e
      by_cases hx : x = id
      · subst hx
        rw [if_pos rfl]
        refine ⟨hholds.trans (hf _).holds, Element.wireName?_of_noted ?_⟩
        exact (hnotes e he).wireSlot?_eq _ (wireSlot?_renamedElement x name x e)
      · rw [if_neg hx]
        exact hholds.kept (name_renamedElement_of_ne name e hx)
          (wireSlot?_renamedElement id name x e)
  | create => exact ⟨e, get?_push_of_get? he, Element.kept_refl e⟩
  | @attach slot holder ids =>
      exact ⟨_, hchanged (changedBy_attach t holder ids) he,
        kept_linkUp holder ids x e⟩
  | @move holder child holder' slot f hc _ _ _ hf _ _ hwire =>
      have he₁ := hchanged (changedBy_detach hc) he
      have he₂ := hchanged (changedBy_attach _ holder' [child]) he₁
      have he₃ := hchanged (changedBy_modify _ holder' f) he₂
      refine ⟨_, hchanged (changedBy_rebindImports _ child) he₃, ?_⟩
      refine ((kept_unlink holder child x e).trans
        (kept_linkUp holder' [child] x _)).trans ?_
      have hf' : ∀ e₁, Element.Kept e₁ (f e₁) := fun e₁ =>
        (hf e₁).holds.kept (Element.name_eq_of_frame_eq (hf e₁).frame_eq) (hwire e₁)
      have hrebound : ∀ e₁ : Element, ∀ g, Element.Kept e₁ (e₁.mapImports g) :=
        fun e₁ g =>
          (Element.holds_mapImports g e₁).kept rfl (Element.wireSlot?_mapImports g e₁)
      by_cases hx : x = holder'
      · rw [if_pos hx]
        exact (hf' _).trans (hrebound _ _)
      · rw [if_neg hx]
        exact hrebound _ _
  | @reinsert holder child name f hc _ ha _ hf _ _ hnotes =>
      have hwl : WellLinked ((t.detach holder child).2.modify child f) :=
        (sameFrames_modify _ child fun e => (hf e).frame_eq).wellLinked
          (h.toWellLinked.detach hc)
      have he₁ := hchanged (changedBy_detach hc) he
      have he₂ := hchanged (changedBy_modify _ child f) he₁
      have he₃ := hchanged (changedBy_rename hwl child name) he₂
      refine ⟨_, hchanged (changedBy_attach _ holder [child]) he₃, ?_⟩
      refine .trans ?_ (kept_linkUp holder [child] x _)
      have hloose := kept_unlink holder child x e
      by_cases hx : x = child
      · subst hx
        rw [if_pos rfl]
        refine ⟨(hloose.toHolds.trans (hf _).holds).trans
          (holds_renamedElement x name x _), Element.wireName?_of_noted ?_⟩
        rw [wireSlot?_renamedElement]
        exact (hnotes e he).wireSlot?_eq _ rfl
      · rw [if_neg hx]
        exact hloose.trans ((holds_renamedElement child name x _).kept
          (name_renamedElement_of_ne name _ hx)
          (wireSlot?_renamedElement child name x _))

/-- Through all steps of a refinement elements are kept. Only renamings change
    names, and they note the name on the wire. -/
theorem kept_of_steps (h : Stable t) (hsteps : Steps K n t t') {x : ElementId}
    {e : Element} (he : t.get? x = some e) :
    ∃ e', t'.get? x = some e' ∧ Element.Kept e e' := by
  induction hsteps with
  | refl => exact ⟨e, he, Element.kept_refl e⟩
  | tail hsteps hstep ih =>
      obtain ⟨e₁, he₁, hkept₁⟩ := ih
      obtain ⟨e₂, he₂, hkept₂⟩ := kept_of_step (h.steps hsteps).1 hstep he₁
      exact ⟨e₂, he₂, hkept₁.trans hkept₂⟩

/-- Of an element that is there before steps and after them, the steps keep what
    they keep. -/
theorem kept_of_get? (h : Stable t) (hsteps : Steps K n t t') {x : ElementId}
    {e e' : Element} (he : t.get? x = some e) (he' : t'.get? x = some e') :
    Element.Kept e e' := by
  obtain ⟨e₁, he₁, hkept⟩ := kept_of_steps h hsteps he
  obtain rfl : e₁ = e' := Option.some.inj (he₁.symm.trans he')
  exact hkept

/-- A class of some kinds is told by its nature. -/
theorem isClassOf_iff {id : ElementId} {kinds : List ClassKind} :
    t.isClassOf id kinds = true ↔ ∃ e k, t.get? id = some e
      ∧ e.nature = .classDecl k ∧ k ∈ kinds := by
  rw [isClassOf, class?]
  cases t.get? id with
  | none => simp
  | some e =>
      obtain ⟨name, parent, children, description, content⟩ := e
      cases content <;> simp [Element.class?, Element.nature]

/-- A class of some kinds is a class. -/
theorem isSome_class?_of_isClassOf {id : ElementId} {kinds : List ClassKind}
    (h : t.isClassOf id kinds = true) : (t.class? id).isSome := by
  rw [isClassOf] at h
  cases hc : t.class? id with
  | none => rw [hc] at h; cases h
  | some c => rfl

/-- A class is one of its kind after steps. -/
theorem isClassOf_of_steps (h : Stable t) (hsteps : Steps K n t t') {id : ElementId}
    {kinds : List ClassKind} (hid : t.isClassOf id kinds = true) :
    t'.isClassOf id kinds = true := by
  obtain ⟨e, k, he, hnature, hk⟩ := isClassOf_iff.mp hid
  obtain ⟨e', he', hkept⟩ := kept_of_steps h hsteps he
  exact isClassOf_iff.mpr ⟨e', k, he', hkept.nature_eq.trans hnature, hk⟩

/-! ## Places -/

/-- What a step does to the places of elements. Every element stays in its
    place; or an element is made that holds nothing and is held by nothing; or
    elements made before join a slot, parameters one of a method made before; or
    a child is taken out and put into a slot, a class by a move, a property into
    the slot where it was. -/
inductive Rearranged (K : StepKind → Prop) (n : Nat) (t t' : Tree) : Prop where
  | same (h : SamePlaces t t')
  | made {e : Element} {k : StepKind} (hparent : e.parent = none)
      (hchildren : e.children = []) (hk : K k) (hmade : Made t e k)
      (hindex : e.kind ≠ .indexer) (h : t' = t.push e)
  | attached {slot : Slot} {holder : ElementId} {ids : List ElementId}
      (hi : Insertable t slot holder ids) (hids : ∀ c ∈ ids, Pending n t c)
      (hnew : slot = .parameters → n ≤ holder.index) (h : t' = t.attach holder ids)
  | relocated {holder child holder' : ElementId} {slot : Slot} {s : Tree}
      (hc : child ∈ t.children holder) (ha : Attached t holder)
      (ha' : Attached t holder') (hbefore : SamePlaces (t.detach holder child).2 s)
      (hi : Insertable s slot holder' [child])
      (hafter : SamePlaces (s.attach holder' [child]) t') (hslot : K .move
        ∧ slot.memberKind = .classDecl ∨ holder' = holder ∧ slot = .properties)

/-- What each kind of step does to places. -/
theorem rearranged_of_step (h : Stable t) (hstep : Step K n t t') :
    Rearranged K n t t' := by
  cases hstep with
  | amend hf => exact .same (h.amend hf).2.samePlaces
  | retype hf => exact .same (h.amend hf).2.samePlaces
  | @rename id name f _ _ hf =>
      exact .same ((samePlaces_rename t id name).trans
        (sameFrames_modify _ id fun e => (hf e).frame_eq).samePlaces)
  | create hparent hchildren _ _ hk hmade hindex =>
      exact .made hparent hchildren hk hmade hindex rfl
  | attach hi hids _ hnew => exact .attached hi hids hnew rfl
  | @move holder child holder' slot f hc ha ha' hi hf hk hslot =>
      have hframes := (sameFrames_modify
        ((t.detach holder child).2.attach holder' [child]) holder'
        fun e => (hf e).frame_eq).trans (sameFrames_rebindImports _ child)
      exact .relocated hc ha ha' (SamePlaces.refl _) hi hframes.samePlaces
        (Or.inl ⟨hk, hslot⟩)
  | @reinsert holder child name f hc _ ha _ hf hi =>
      have hframes :=
        sameFrames_modify (t.detach holder child).2 child fun e => (hf e).frame_eq
      have hsame := hframes.samePlaces.trans (samePlaces_rename _ child name)
      exact .relocated hc ha ha hsame hi (SamePlaces.refl _) (Or.inr ⟨rfl, rfl⟩)

/-- Only what is new gets attached in a step. -/
theorem attached_of_step (h : Stable t) (hstep : Step K n t t') {x : ElementId}
    (hx : Attached t' x) : Attached t x ∨ n ≤ x.index := by
  cases rearranged_of_step h hstep with
  | same hsame => exact Or.inl (hsame.attached_iff.mp hx)
  | made hparent _ _ _ _ heq =>
      rw [heq] at hx
      exact Or.inl ((attached_push_iff hparent).mp hx)
  | attached hi hids _ heq =>
      rw [heq, Attached, (relinked_attach t _ _).root_eq] at hx
      -- Only elements that the steps have made may be attached.
      rcases hi.within_attach_iff.mp hx with hx | ⟨c, hc, hcx, -⟩
      · exact Or.inl hx
      · exact Or.inr ((hids c hc).fresh x hcx)
  | relocated hc ha ha' hbefore hi hafter =>
      rw [hafter.attached_iff] at hx
      exact Or.inl
        ((attached_relocate_iff h.toWellLinked hc ha ha' hbefore hi).mp hx)

/-- Only what is new gets attached by steps. -/
theorem attached_of_steps (h : Stable t) (hsteps : Steps K n t t') {x : ElementId}
    (hx : Attached t' x) : Attached t x ∨ n ≤ x.index := by
  induction hsteps with
  | refl => exact Or.inl hx
  | tail hsteps hstep ih =>
      exact (attached_of_step (h.steps hsteps).1 hstep hx).elim ih Or.inr

/-- What is there after a step was there, or has been made in it. -/
theorem old_or_made_of_step (h : Stable t) (hstep : Step K n t t') {x : ElementId}
    {e' : Element} (he' : t'.get? x = some e') :
    (∃ e, t.get? x = some e) ∨ x = t.nextId ∧ e'.kind ≠ .indexer ∧ ∃ k, K k
      ∧ Made t e' k := by
  cases rearranged_of_step h hstep with
  | same hsame => exact Or.inl ((hsame.exists_get? he').imp fun _ he => he.1)
  | @made e k _ _ hk hmade hindex heq =>
      rw [heq, get?_push] at he'
      by_cases hx : x = t.nextId
      · rw [if_pos hx] at he'
        obtain rfl := Option.some.inj he'
        exact Or.inr ⟨hx, hindex, k, hk, hmade⟩
      · rw [if_neg hx] at he'
        exact Or.inl ⟨e', he'⟩
  | attached _ _ _ heq =>
      rw [heq] at he'
      exact Or.inl (((relinked_attach t _ _).exists_get? he').imp fun _ he => he.1)
  | relocated hc _ _ hbefore _ hafter =>
      obtain ⟨e₃, he₃, -⟩ := hafter.exists_get? he'
      obtain ⟨e₂, he₂, -⟩ := (relinked_attach _ _ _).exists_get? he₃
      obtain ⟨e₁, he₁, -⟩ := hbefore.exists_get? he₂
      exact Or.inl (((relinked_detach hc).exists_get? he₁).imp fun _ he => he.1)

/-! ## Links -/

/-- Of the element `x`, tree `t'` has the holder, unless it is a class, and the
    parameters, if it is a method. -/
structure SameLinks (t t' : Tree) (x : ElementId) : Prop where
  parent?_eq : t.kind? x ≠ some .classDecl → t'.parent? x = t.parent? x
  children_eq : t.kind? x = some .method → t'.children x = t.children x

/-- In their places elements have their links. -/
theorem SamePlaces.sameLinks (h : SamePlaces t t') (x : ElementId) :
    SameLinks t t' x :=
  ⟨fun _ => h.parent?_eq x, fun _ => h.children_eq x⟩

/-- An element that a method holds is a parameter. -/
theorem eq_parameters_of_holderKind {slot : Slot} (h : slot.holderKind = .method) :
    slot = .parameters := by
  cases slot <;> first | rfl | cases h

/-- A step gives another holder to classes only, and only if it is a move. -/
theorem parent?_of_step (h : Stable t) (hstep : Step K n t t') {x : ElementId}
    (hx : x.index < n) (hclass : K .move → t.kind? x ≠ some .classDecl) :
    t'.parent? x = t.parent? x := by
  cases rearranged_of_step h hstep with
  | same hsame => exact hsame.parent?_eq x
  | made hparent _ _ _ _ heq =>
      rw [heq]
      exact parent?_push hparent x
  | attached hi hids _ heq =>
      -- What is attached is new.
      rw [heq, hi.parent?_attach, if_neg]
      exact fun hmem =>
        absurd ((hids x hmem).fresh x (Or.inl rfl)) (Nat.not_le.mpr hx)
  | @relocated holder child holder' slot s hc _ _ hbefore hi hafter hslot =>
      rw [hafter.parent?_eq, hi.parent?_attach, hbefore.parent?_eq,
        parent?_detach hc]
      by_cases hxc : x = child
      · rw [if_pos (List.mem_singleton.mpr hxc), hxc,
          (h.toWellLinked.mem_children_iff holder child).mp hc]
        rcases hslot with ⟨hk, hslot⟩ | ⟨rfl, -⟩
        · refine absurd ?_ (hclass hk)
          rw [hxc, ← (relinked_detach hc).kind?_eq, ← hbefore.kind?_eq, ← hslot]
          exact hi.member_kind child (List.mem_singleton_self child)
        · rfl
      · rw [if_neg fun hmem => hxc (List.mem_singleton.mp hmem), if_neg hxc]

/-- A child that is no parameter and is taken out and put somewhere else leaves
    the parameters of methods. -/
theorem WellLinked.children_relocate (hwl : WellLinked t)
    {holder child holder' x : ElementId} {slot : Slot}
    (hc : child ∈ t.children holder)
    (hsame : SamePlaces (t.detach holder child).2 t')
    (hi : Insertable t' slot holder' [child]) (hslot : slot.memberKind ≠ .parameter)
    (hmethod : t.kind? x = some .method) :
    (t'.attach holder' [child]).children x = t.children x := by
  have hkinds : ∀ y, t'.kind? y = t.kind? y := fun y =>
    (hsame.kind?_eq y).trans ((relinked_detach hc).kind?_eq y)
  have hchild : t.kind? child = some slot.memberKind := by
    rw [← hkinds]
    exact hi.member_kind child (List.mem_singleton_self child)
  -- A method holds parameters only, so neither holder is one.
  have hx : x ≠ holder := by
    rintro rfl
    have hmay := hwl.mayHold_of_mem x child _ _ hc hmethod hchild
    exact hslot (beq_iff_eq.mp hmay)
  have hx' : x ≠ holder' := by
    rintro rfl
    have hkind := hi.holder_kind
    rw [hkinds, hmethod] at hkind
    rw [eq_parameters_of_holderKind (Option.some.inj hkind).symm] at hslot
    exact hslot rfl
  rw [hi.children_attach, if_neg hx', hsame.children_eq, children_detach hc,
    if_neg hx]

/-- A step adds, drops and moves no parameter of a method that was there. -/
theorem children_of_step (h : Stable t) (hstep : Step K n t t') {x : ElementId}
    (hx : x.index < n) (hmethod : t.kind? x = some .method) :
    t'.children x = t.children x := by
  cases rearranged_of_step h hstep with
  | same hsame => exact hsame.children_eq x
  | made _ hchildren _ _ _ heq =>
      rw [heq]
      exact children_push hchildren x
  | @attached slot holder ids hi _ hnew heq =>
      rw [heq, hi.children_attach, if_neg]
      rintro rfl
      have hkind : slot.holderKind = .method :=
        Option.some.inj (hi.holder_kind.symm.trans hmethod)
      exact absurd (hnew (eq_parameters_of_holderKind hkind)) (Nat.not_le.mpr hx)
  | relocated hc _ _ hbefore hi hafter hslot =>
      rw [hafter.children_eq]
      refine h.toWellLinked.children_relocate hc hbefore hi ?_ hmethod
      rcases hslot with ⟨-, hslot⟩ | ⟨-, rfl⟩
      · rw [hslot]
        decide
      · decide

/-- A step changes the links of an element that was there as it may at most. -/
theorem links_of_step (h : Stable t) (hstep : Step K n t t') {x : ElementId}
    (hx : x.index < n) : SameLinks t t' x :=
  ⟨fun hk => parent?_of_step h hstep hx fun _ => hk, children_of_step h hstep hx⟩

/-- Through all steps the links of what was there when the refinement began are
    the same: parameters join only methods that were made later, and only
    classes move. -/
theorem links_of_steps (h : Stable t) (hsteps : Steps K n t t') {x : ElementId}
    {e : Element} (he : t.get? x = some e) (hx : x.index < n) :
    SameLinks t t' x := by
  induction hsteps with
  | refl => exact (SamePlaces.refl t).sameLinks x
  | tail hsteps hstep ih =>
      obtain ⟨hs, hc⟩ := h.steps hsteps
      obtain ⟨hparent, hchildren⟩ := links_of_step hs hstep hx
      have hkind := hc.kind?_eq (kind?_eq_some_iff.mpr ⟨e, he, rfl⟩)
      rw [hkind, ← kind?_eq_some_iff.mpr ⟨e, he, rfl⟩] at hparent hchildren
      exact ⟨fun hk => (hparent hk).trans (ih.parent?_eq hk),
        fun hk => (hchildren hk).trans (ih.children_eq hk)⟩

/-! ## What is left of an element -/

/-- What a refinement leaves of the element `x`: it is what it was, with the
    same description; unless it is a class it has the same holder, and if it is
    a method the same parameters; and types that were bound to a declaration are
    bound to it, for one value or for many as before, but for what deserializers
    return. -/
structure Retained (t t' : Tree) (x : ElementId) (e e' : Element) :
    Prop extends SameLinks t t' x where
  nature_eq : e'.nature = e.nature
  description_eq : e'.description = e.description
  value : e.nature.isDeserializer = false → ∀ r d, e.valueType? = some r →
    r.definition? = some d → ∃ r', e'.valueType? = some r' ∧ r'.definition? = some d
    ∧ r'.isCollection = r.isCollection
  index : ∀ r d, e.indexType? = some r → r.definition? = some d →
    ∃ r', e'.indexType? = some r' ∧ r'.definition? = some d
    ∧ r'.isCollection = r.isCollection

/-- A binding is a declaration, for one value or for many. -/
theorem binding?_eq_some_iff {r : TypeRef} {d : ElementId} {many : Bool} :
    r.binding? = some (d, many) ↔
      r.definition? = some d ∧ r.isCollection = many := by
  rw [TypeRef.binding?]
  cases r.definition? <;> simp

/-- The links and the element together are what a refinement leaves. -/
theorem SameLinks.retained {x : ElementId} {e e' : Element}
    (hlinks : SameLinks t t' x) (hholds : Element.Holds e e') :
    Retained t t' x e e' where
  toSameLinks := hlinks
  nature_eq := hholds.nature_eq
  description_eq := hholds.description_eq
  value hd r d hr hdef := by
    have hb : e.valueType?.bind TypeRef.binding? = some (d, r.isCollection) := by
      rw [hr, Option.bind_some, binding?_eq_some_iff]
      exact ⟨hdef, rfl⟩
    obtain ⟨r', hr', hb'⟩ := Option.bind_eq_some_iff.mp (hholds.value hd _ hb)
    exact ⟨r', hr', binding?_eq_some_iff.mp hb'⟩
  index r d hr hdef := by
    obtain ⟨r', hr', halike⟩ := hholds.index r hr
    refine ⟨r', hr', binding?_eq_some_iff.mp ?_⟩
    rw [halike.binding?_eq, binding?_eq_some_iff]
    exact ⟨hdef, rfl⟩

end Tree

end CodeModel
