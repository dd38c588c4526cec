import CodeModel.Proofs.Copies
import CodeModel.Proofs.EditRuns

/-!
# Edits that cannot be refused

The laws of successful edits say what an edit did if it succeeded. Here is the
other half: `Succeeds m t Q` says that `m` is not refused on the tree `t`, and
that `Q` holds of what it gives and leaves. Its laws follow the shape of an
edit, from the operations up to traversals.

Main statements: `Succeeds.bind`, `succeeds_add`, a batch that is fit for a slot
goes in, and `succeeds_crawlWith`, a traversal succeeds when every visit of an
attached element does and keeps what the visits after it rely on.
-/

namespace CodeModel

open CodeModel.Tree

namespace Edit

variable {α β σ : Type} {t : Tree}

/-- The edit is not refused on `t`, and gives a result and leaves a tree of
    which `Q` holds. -/
def Succeeds (m : Edit α) (t : Tree) (Q : α → Tree → Prop) : Prop :=
  ∃ a t', m.run t = .ok a t' ∧ Q a t'

theorem succeeds_pure {a : α} {Q : α → Tree → Prop} (h : Q a t) :
    Succeeds (pure a) t Q :=
  ⟨a, t, rfl, h⟩

/-- What succeeds with one result succeeds with what follows from it. -/
theorem Succeeds.mono {m : Edit α} {Q R : α → Tree → Prop} (h : Succeeds m t Q)
    (hQR : ∀ a t', m.run t = .ok a t' → Q a t' → R a t') : Succeeds m t R := by
  obtain ⟨a, t', hrun, hQ⟩ := h
  exact ⟨a, t', hrun, hQR a t' hrun hQ⟩

/-- A sequence succeeds if its first part does and its second does after every
    result of the first. -/
theorem Succeeds.bind {m : Edit α} {f : α → Edit β} {Q : α → Tree → Prop}
    {R : β → Tree → Prop} (h : Succeeds m t Q)
    (hf : ∀ a t', Q a t' → Succeeds (f a) t' R) : Succeeds (m >>= f) t R := by
  obtain ⟨a, t', hrun, hQ⟩ := h
  obtain ⟨b, t'', hrun', hR⟩ := hf a t' hQ
  exact ⟨b, t'', run_bind_eq_ok_iff.mpr ⟨a, t', hrun, hrun'⟩, hR⟩

/-- An edit that looks at the tree first goes on with what it saw. -/
theorem succeeds_get_bind {f : Tree → Edit α} {Q : α → Tree → Prop}
    (h : Succeeds (f t) t Q) : Succeeds (get >>= f) t Q :=
  h

/-- Success does not depend on the value that is given. -/
theorem Succeeds.discard {m : Edit α} {Q : Tree → Prop}
    (h : Succeeds m t fun _ => Q) :
    Succeeds (discard m : Edit Unit) t fun _ => Q := by
  obtain ⟨a, t', hrun, hQ⟩ := h
  exact ⟨(), t', run_discard_eq_ok_iff.mpr ⟨a, hrun⟩, hQ⟩

/-! ## Operations -/

/-- A look succeeds if it finds something. -/
theorem succeeds_inspect {f : Tree → Except ModelError α} {a : α}
    {Q : α → Tree → Prop} (h : f t = .ok a) (hQ : Q a t) :
    Succeeds (inspect f) t Q :=
  ⟨a, t, run_inspect_eq_ok_iff.mpr ⟨h, rfl⟩, hQ⟩

/-- An element that is there is found. -/
theorem succeeds_element {id : ElementId} {e : Element} {Q : Element → Tree → Prop}
    (h : t.get? id = some e) (hQ : Q e t) : Succeeds (inspect (·.element id)) t Q :=
  ⟨e, t, run_element_eq_ok_iff.mpr ⟨h, rfl⟩, hQ⟩

/-- An element with a name is made. -/
theorem succeeds_create {e : Element} {Q : ElementId → Tree → Prop}
    (hname : e.name ≠ "") (hQ : Q t.nextId (t.push e.detached)) :
    Succeeds (create e) t Q := by
  refine ⟨t.nextId, t.push e.detached, run_changeWith_eq_ok_iff.mpr ?_, hQ⟩
  rw [if_neg fun hempty => hname (String.isEmpty_iff.mp hempty)]

/-- Modifying never fails. -/
theorem succeeds_modifyElement {id : ElementId} {f : Element → Element}
    {Q : Unit → Tree → Prop} (hQ : Q () (t.modify id f)) :
    Succeeds (modifyElement id f) t Q :=
  ⟨(), t.modify id f, run_modifyElement_eq_ok_iff.mpr rfl, hQ⟩

/-- A named element other than the root can be renamed. -/
theorem succeeds_setName {id : ElementId} {name : String} {e : Element}
    {Q : Unit → Tree → Prop} (hname : name ≠ "") (hroot : id ≠ t.root)
    (he : t.get? id = some e) (hQ : Q () (t.rename id name)) :
    Succeeds (setName id name) t Q := by
  refine ⟨(), t.rename id name, ?_, hQ⟩
  have hfull : ¬ name.isEmpty = true := fun h => hname (String.isEmpty_iff.mp h)
  rw [setName, run_change_eq_ok_iff, Tree.setName, if_neg hfull, if_neg hroot, he]

/-- Imports with names can be added to a block that is there. -/
theorem succeeds_addImports {id : ElementId} {new : List Import} {e : Element}
    {Q : Nat → Tree → Prop} (hne : new ≠ []) (hnames : ∀ i ∈ new, i.name ≠ "")
    (he : t.get? id = some e) (hblock : e.imports?.isSome) (hQ : ∀ k, Q k
      (t.modify id (Element.mapImports fun _ => Import.addImports e.imports new))) :
    Succeeds (addImports id new) t Q := by
  obtain ⟨block, hb⟩ := Option.isSome_iff_exists.mp hblock
  have himports : e.imports = block := by rw [Element.imports, hb, Option.getD_some]
  rw [himports] at hQ
  refine ⟨_, _, ?_, hQ ((Import.addImports block new).length - block.length)⟩
  rw [run_addImports_of_named hne hnames, he]
  simp only [hb]

/-- A batch that is fit to go into a slot goes in. -/
theorem succeeds_add {slot : Slot} {holder : ElementId} {ids : List ElementId}
    {Q : Unit → Tree → Prop} (hwl : WellLinked t) (h : Insertable t slot holder ids)
    (hne : ids ≠ []) (hQ : Q () (t.attach holder ids)) :
    Succeeds (add slot holder ids) t Q := by
  refine ⟨(), t.attach holder ids, run_add_eq_ok_iff.mpr ?_, hQ⟩
  obtain ⟨e, he, hkind⟩ := kind?_eq_some_iff.mp h.holder_kind
  refine (insert_eq_ok_iff t _ slot holder ids).mpr ⟨e, he, hkind, hne, ?_, rfl⟩
  refine checkMembers_eq_ok_iff.mpr fun before c after hsplit =>
    checkMember_eq_ok_iff.mpr ?_
  have hc : c ∈ ids := by
    rw [hsplit]
    exact List.mem_append_right _ List.mem_cons_self
  obtain ⟨ec, hec, hmember⟩ := kind?_eq_some_iff.mp (h.member_kind c hc)
  have hfree : ec.parent = none := by
    have hfree := h.free c hc
    rwa [parent?, hec] at hfree
  have hnot := h.not_within c hc
  -- What comes before a member in the batch is another element, and does not
  -- collide with it.
  have hbefore : ∀ x ∈ before, x ≠ c ∧ t.collides x c = false := by
    have hpairs := h.nodup.and h.apart_members
    rw [hsplit, List.pairwise_append] at hpairs
    exact fun x hx => hpairs.2.2 x hx c List.mem_cons_self
  refine ⟨ec, hec, hmember, h.ne_root c hc, hfree,
    fun heq => hnot (Or.inl heq.symm), ?_, ?_, ?_, ?_⟩
  · exact Bool.eq_false_iff.mpr fun ha => hnot (Or.inr (hwl.isAncestor_iff.mp ha))
  · exact fun hmem => (hbefore c hmem).1 rfl
  · intro hindexer
    obtain ⟨hnone, hlength⟩ :=
      h.one_indexer (Slot.eq_indexer_of_memberKind (hmember.symm.trans hindexer))
    have hfirst : before = [] := by
      rw [hsplit, List.length_append, List.length_cons] at hlength
      exact List.eq_nil_of_length_eq_zero (by omega)
    rw [hfirst, indexer?, hnone]
    exact ⟨rfl, fun x hx => absurd hx List.not_mem_nil⟩
  · intro x hx
    rcases List.mem_append.mp hx with hx | hx
    · exact h.apart_children c hc x hx
    · exact (hbefore x hx).2

/-- The subtree at any element but the root can be copied. -/
theorem succeeds_cloneSubtree {source : ElementId} {e : Element}
    {Q : ElementId → Tree → Prop} (hwl : WellLinked t)
    (he : t.get? source = some e) (hne : source ≠ t.root)
    (hQ : ∀ t' copy, Copied t t' source copy → Q t.nextId t') :
    Succeeds (cloneSubtree source) t Q := by
  obtain ⟨t', hclone⟩ : ∃ t', t.cloneSubtree source = .ok (t.nextId, t') := by
    rw [Tree.cloneSubtree, he]
    exact ⟨_, if_neg hne⟩
  obtain ⟨-, -, copy, hcopied⟩ := copied_of_cloneSubtree hwl hclone
  exact ⟨t.nextId, t', run_changeWith_eq_ok_iff.mpr hclone, hQ t' copy hcopied⟩

/-! ## Sequences of edits -/

/-- A list is gone through when every entry of it is accepted. -/
theorem exists_mapM_eq_ok {f : α → Except ModelError β} {items : List α}
    (h : ∀ a ∈ items, ∃ b, f a = .ok b) : ∃ bs, items.mapM f = .ok bs := by
  induction items with
  | nil => exact ⟨[], rfl⟩
  | cons a rest ih =>
      obtain ⟨b, hb⟩ := h a List.mem_cons_self
      obtain ⟨bs, hbs⟩ := ih fun x hx => h x (List.mem_cons_of_mem _ hx)
      refine ⟨b :: bs, ?_⟩
      rw [List.mapM_cons, hb, hbs]
      rfl

/-- A sequence succeeds when each step succeeds on what the steps before it
    left. -/
theorem succeeds_foldlM {I : σ → Tree → Prop} {step : σ → α → Edit σ}
    {items : List α} (hstep : ∀ s t a, a ∈ items → I s t → Succeeds (step s a) t I)
    {s : σ} (h : I s t) : Succeeds (items.foldlM step s) t I := by
  induction items generalizing s t with
  | nil => exact succeeds_pure h
  | cons a rest ih =>
      rw [List.foldlM_cons]
      refine (hstep s t a List.mem_cons_self h).bind fun s' t' h' => ?_
      exact ih (fun s t b hb => hstep s t b (List.mem_cons_of_mem _ hb)) h'

/-- A sequence succeeds when each step succeeds on what the steps before it
    made. -/
theorem succeeds_foldlM_done {I : List α → σ → Tree → Prop} {step : σ → α → Edit σ}
    {items : List α} (hstep : ∀ done a rest s t, items = done ++ a :: rest →
      I done s t → Succeeds (step s a) t (I (done ++ [a]))) {s : σ} (h : I [] s t) :
    Succeeds (items.foldlM step s) t (I items) := by
  have hgo : ∀ (rest done : List α) (s : σ) (t : Tree), items = done ++ rest →
      I done s t → Succeeds (rest.foldlM step s) t (I items) := by
    intro rest
    induction rest with
    | nil =>
        intro done s t hitems hI
        rw [List.append_nil] at hitems
        exact succeeds_pure (hitems ▸ hI)
    | cons a rest ih =>
        intro done s t hitems hI
        rw [List.foldlM_cons]
        refine (hstep done a rest s t hitems hI).bind fun s' t' hI' => ?_
        refine ih (done ++ [a]) s' t' ?_ hI'
        rw [hitems, List.append_assoc, List.singleton_append]
  exact hgo items [] s t rfl h

/-- A sequence succeeds when each edit succeeds on what the edits before it
    left, their results beside what they are of. -/
theorem succeeds_mapM {I : List (α × β) → Tree → Prop} {step : α → Edit β}
    {items : List α} (hstep : ∀ done t a, a ∈ items → I done t →
      Succeeds (step a) t fun b => I (done ++ [(a, b)])) (h : I [] t) :
    Succeeds (items.mapM step) t fun bs t' => bs.length = items.length
      ∧ I (items.zip bs) t' := by
  have hgo : ∀ (rest : List α) (done : List (α × β)) (t : Tree),
      (∀ a ∈ rest, a ∈ items) → I done t →
      Succeeds (rest.mapM step) t fun bs t' =>
        bs.length = rest.length ∧ I (done ++ rest.zip bs) t' := by
    intro rest
    induction rest with
    | nil =>
        intro done t _ hI
        rw [List.mapM_nil]
        refine succeeds_pure ⟨rfl, ?_⟩
        rw [List.zip_nil_left, List.append_nil]
        exact hI
    | cons a rest ih =>
        intro done t hmem hI
        rw [List.mapM_cons]
        refine (hstep done t a (hmem a List.mem_cons_self) hI).bind
          fun b t₁ hI₁ => ?_
        refine (ih (done ++ [(a, b)]) t₁
          (fun c hc => hmem c (List.mem_cons_of_mem _ hc)) hI₁).bind ?_
        rintro bs t₂ ⟨hlength, hI₂⟩
        rw [List.append_assoc] at hI₂
        exact succeeds_pure ⟨congrArg Nat.succ hlength, hI₂⟩
  exact hgo items [] t (fun _ ha => ha) h

/-- A traversal succeeds when every visit of an attached element below the root
    does, each on what the visits before it left. -/
theorem succeeds_crawlWith {I : σ → Tree → Prop} {visit : σ → ElementId → Edit σ}
    (hvisit : ∀ s t' id, id ∈ t.descendants t.root → I s t' →
      t'.isAttached id = true → Succeeds (visit s id) t' I) {s : σ} (h : I s t) :
    Succeeds (crawlWith s visit) t I := by
  refine succeeds_get_bind (succeeds_foldlM (fun s t' id hid hI => ?_) h)
  refine succeeds_get_bind ?_
  by_cases ha : t'.isAttached id = true
  · rw [if_pos ha]
    exact hvisit s t' id hid hI ha
  · rw [if_neg ha]
    exact succeeds_pure hI

/-- A traversal in which nothing is taken out succeeds when every visit does,
    each on what the visits before it made. -/
theorem succeeds_crawlWith_done {I : List ElementId → σ → Tree → Prop}
    {visit : σ → ElementId → Edit σ} (hattached : ∀ done a s id, I done a s →
      id ∈ t.descendants t.root → s.isAttached id = true)
    (hvisit : ∀ done id rest a s, t.descendants t.root = done ++ id :: rest →
      I done a s → Succeeds (visit a id) s (I (done ++ [id]))) {a : σ}
    (h : I [] a t) : Succeeds (crawlWith a visit) t (I (t.descendants t.root)) := by
  refine succeeds_get_bind
    (succeeds_foldlM_done (fun done id rest a s hitems hI => ?_) h)
  have hmem : id ∈ t.descendants t.root := by
    rw [hitems]
    exact List.mem_append_right _ List.mem_cons_self
  refine succeeds_get_bind ?_
  rw [if_pos (hattached done a s id hI hmem)]
  exact hvisit done id rest a s hitems hI

/-- A traversal succeeds when every visit of an attached element below the root
    does, each on what the visits before it left. -/
theorem succeeds_crawl {I : Tree → Prop} {visit : ElementId → Edit Unit}
    (hvisit : ∀ t' id, id ∈ t.descendants t.root → I t' → t'.isAttached id = true →
      Succeeds (visit id) t' fun _ => I)
    (h : I t) : Succeeds (crawl visit) t fun _ => I :=
  succeeds_crawlWith (I := fun _ => I) (fun _ t' id => hvisit t' id) h

end Edit

end CodeModel
