import CodeModel.Refine.Traversal
import CodeModel.Tree.Clone
import CodeModel.Tree.Insert
import CodeModel.Tree.Rename
import Mathlib.Tactic.SplitIfs

/-!
# What a successful edit did

An edit that succeeds is taken apart into its steps: each lemma says of one way
to build edits what a success of the whole amounts to. Proofs about edits use
these laws and never look into the state monad.

The second part is for edits that may be refused: `Keeps P m` says that `m`
leaves every tree with the property `P` with it, refused or not.

Main statements: `run_bind_eq_ok_iff`, and `crawlWith_induction`, by which what
every visit of an attached element carries on, a traversal carries on.
-/

namespace CodeModel

namespace Edit

variable {α β σ : Type}

/-! ## Successes -/

@[simp]
theorem run_pure_eq_ok_iff {a b : α} {t t' : Tree} :
    (pure a : Edit α).run t = .ok b t' ↔ a = b ∧ t = t' := by
  show EStateM.Result.ok a t = .ok b t' ↔ _
  simp

/-- A sequence of two edits runs when both do, the second where the first
    ended. -/
theorem run_bind_eq_ok_iff {m : Edit α} {f : α → Edit β} {t t'' : Tree} {b : β} :
    (m >>= f).run t = .ok b t'' ↔ ∃ a t', m.run t = .ok a t'
      ∧ (f a).run t' = .ok b t'' := by
  show EStateM.bind m f t = .ok b t'' ↔ _
  rw [EStateM.bind]
  simp only [EStateM.run]
  cases m t with
  | ok a t' =>
      constructor
      · intro h
        exact ⟨a, t', rfl, h⟩
      · rintro ⟨a', s, heq, h⟩
        obtain ⟨rfl, rfl⟩ := EStateM.Result.ok.inj heq
        exact h
  | error e t' => simp

/-- What comes after a success is run on what the success gave. -/
theorem run_bind_of_eq_ok {m : Edit α} {f : α → Edit β} {t t' : Tree} {a : α}
    (h : m.run t = .ok a t') : (m >>= f).run t = (f a).run t' := by
  show EStateM.bind m f t = _
  have happlied : m t = .ok a t' := h
  rw [EStateM.bind, happlied]
  rfl

@[simp]
theorem run_discard_eq_ok_iff {m : Edit α} {t t' : Tree} {u : Unit} :
    (discard m : Edit Unit).run t = .ok u t' ↔ ∃ a, m.run t = .ok a t' := by
  show EStateM.map (fun _ => PUnit.unit) m t = .ok u t' ↔ _
  rw [EStateM.map]
  simp only [EStateM.run]
  cases m t with
  | ok a t'' =>
      constructor
      · intro h
        obtain ⟨-, rfl⟩ := EStateM.Result.ok.inj h
        exact ⟨a, rfl⟩
      · rintro ⟨a', heq⟩
        obtain ⟨-, rfl⟩ := EStateM.Result.ok.inj heq
        rfl
  | error e t'' => simp

/-- A thrown error is no result. -/
theorem run_throw_ne_ok {e : ModelError} {t t' : Tree} {a : α} :
    (throw e : Edit α).run t ≠ .ok a t' := by
  show EStateM.Result.error e t ≠ .ok a t'
  simp

@[simp]
theorem run_inspect_eq_ok_iff {f : Tree → Except ModelError α}
    {t t' : Tree} {a : α} :
    (inspect f).run t = .ok a t' ↔ f t = .ok a ∧ t = t' := by
  simp only [inspect, EStateM.run]
  cases f t <;> simp

@[simp]
theorem run_change_eq_ok_iff {f : Tree → Except ModelError Tree} {t t' : Tree}
    {u : Unit} : (change f).run t = .ok u t' ↔ f t = .ok t' := by
  simp only [change, EStateM.run]
  cases f t <;> simp

@[simp]
theorem run_changeWith_eq_ok_iff {f : Tree → Except ModelError (α × Tree)}
    {t t' : Tree} {a : α} :
    (changeWith f).run t = .ok a t' ↔ f t = .ok (a, t') := by
  simp only [changeWith, EStateM.run]
  cases f t with
  | ok p => simp [Prod.ext_iff]
  | error e => simp

@[simp]
theorem run_modifyElement_eq_ok_iff {id : ElementId} {f : Element → Element}
    {t t' : Tree} {u : Unit} :
    (modifyElement id f).run t = .ok u t' ↔ t.modify id f = t' := by
  show EStateM.Result.ok PUnit.unit (t.modify id f) = .ok u t' ↔ _
  simp

/-- An edit that looks at the tree first is run on what it saw. -/
@[simp]
theorem run_get_bind {f : Tree → Edit α} {t : Tree} :
    (get >>= f).run t = (f t).run t :=
  rfl

/-- Whether a run succeeds with a result and a tree of some property can be
    looked up. -/
theorem exists_eq_ok {r : EStateM.Result ModelError Tree α} {P : α → Tree → Prop}
    [∀ a, DecidablePred (P a)] (h :
      (match r with | .ok a t' => decide (P a t') | .error _ _ => false) = true) :
    ∃ a t', r = .ok a t' ∧ P a t' := by
  cases r with
  | ok a t' => exact ⟨a, t', rfl, of_decide_eq_true h⟩
  | error e t' => exact absurd h Bool.false_ne_true

/-- Whether a run is refused with an error of some property can be looked up. -/
theorem exists_eq_error {r : EStateM.Result ModelError Tree α}
    {P : ModelError → Prop} [DecidablePred P]
    (h : (match r with | .ok _ _ => false | .error e _ => decide (P e)) = true) :
    ∃ e t', r = .error e t' ∧ P e := by
  cases r with
  | ok a t' => exact absurd h Bool.false_ne_true
  | error e t' => exact ⟨e, t', rfl, of_decide_eq_true h⟩

/-! ## Operations -/

/-- What `create` gives is the next element, and it has a name. -/
theorem run_create_eq_ok {e : Element} {id : ElementId} {t t' : Tree}
    (h : (create e).run t = .ok id t') :
    e.name ≠ "" ∧ id = t.nextId ∧ t' = t.push e.detached := by
  rw [create, run_changeWith_eq_ok_iff] at h
  split_ifs at h with hname
  obtain ⟨rfl, rfl⟩ := Prod.mk.inj (Except.ok.inj h)
  refine ⟨fun hempty => hname ?_, rfl, rfl⟩
  rw [hempty]
  rfl

/-- To add is to insert. -/
theorem run_add_eq_ok_iff {slot : Slot} {holder : ElementId} {ids : List ElementId}
    {t t' : Tree} {u : Unit} :
    (add slot holder ids).run t = .ok u t' ↔ t.insert slot holder ids = .ok t' :=
  run_change_eq_ok_iff

/-- What `addNew` puts into the slot is the next element. -/
theorem run_addNew_eq_ok {slot : Slot} {holder id : ElementId} {e : Element}
    {t t' : Tree} (h : (addNew slot holder e).run t = .ok id t') :
    e.name ≠ "" ∧ id = t.nextId ∧ (t.push e.detached).insert slot holder [t.nextId]
      = .ok t' := by
  rw [addNew] at h
  obtain ⟨id', t₁, hcreate, hrest⟩ := run_bind_eq_ok_iff.mp h
  obtain ⟨u, t₂, hadd, hpure⟩ := run_bind_eq_ok_iff.mp hrest
  obtain ⟨hname, rfl, rfl⟩ := run_create_eq_ok hcreate
  obtain ⟨rfl, rfl⟩ := run_pure_eq_ok_iff.mp hpure
  exact ⟨hname, rfl, run_add_eq_ok_iff.mp hadd⟩

/-- Removing leaves what `detach` leaves, whether or not something was found. -/
theorem run_remove_eq_ok {holder child : ElementId} {found : Bool} {t t' : Tree}
    (h : (remove holder child).run t = .ok found t') :
    t' = (t.detach holder child).2 := by
  rw [remove, run_changeWith_eq_ok_iff] at h
  exact congrArg Prod.snd (Except.ok.inj h).symm

/-- Imports that all have names go into the block, if there is one. -/
theorem run_addImports_of_named {target : ElementId} {new : List Import} {t : Tree}
    (hne : new ≠ []) (hnames : ∀ i ∈ new, i.name ≠ "") :
    (addImports target new).run t =
      match t.get? target with
      | none => .error (.missing "target") t
      | some e =>
          match e.imports? with
          | none => .error (.noImportBlock e.name) t
          | some block =>
              .ok ((Import.addImports block new).length - block.length)
                (t.modify target
                  (Element.mapImports fun _ => Import.addImports block new)) := by
  have hsome : ¬ new.isEmpty = true := fun h => hne (List.isEmpty_iff.mp h)
  have hfull : ¬ (new.any fun i => i.name.isEmpty) = true := by
    intro h
    obtain ⟨i, hi, hempty⟩ := List.any_eq_true.mp h
    exact hnames i hi (String.isEmpty_iff.mp hempty)
  simp only [addImports, changeWith, EStateM.run, if_neg hsome, if_neg hfull]
  cases t.get? target with
  | none => rfl
  | some e => cases hblock : e.imports? <;> simp only [hblock]

/-- Adding imports changes one block, which has to be there. -/
theorem run_addImports_eq_ok {target : ElementId} {new : List Import} {k : Nat}
    {t t' : Tree} (h : (addImports target new).run t = .ok k t') :
    ∃ e, t.get? target = some e ∧ e.imports?.isSome
      ∧ t' = t.modify target
        (Element.mapImports fun _ => Import.addImports e.imports new) := by
  rw [addImports, run_changeWith_eq_ok_iff] at h
  split_ifs at h
  cases he : t.get? target with
  | none => simp [he] at h
  | some e =>
      cases hi : e.imports? with
      | none => simp [he, hi] at h
      | some block =>
          simp only [he, hi, Except.ok.injEq, Prod.mk.injEq] at h
          refine ⟨e, rfl, by rw [hi]; rfl, ?_⟩
          rw [Element.imports, hi, Option.getD_some]
          exact h.2.symm

/-- Only named and existing elements other than the root are renamed. -/
theorem run_setName_eq_ok {id : ElementId} {name : String} {t t' : Tree} {u : Unit}
    (h : (setName id name).run t = .ok u t') :
    name ≠ "" ∧ id ≠ t.root ∧ (∃ e, t.get? id = some e)
      ∧ t' = t.rename id name := by
  rw [setName, run_change_eq_ok_iff] at h
  rw [Tree.setName] at h
  split_ifs at h with hname hroot
  cases he : t.get? id with
  | none => simp [he] at h
  | some e =>
      simp only [he, Except.ok.injEq] at h
      refine ⟨fun hempty => hname ?_, hroot, ⟨e, rfl⟩, h.symm⟩
      rw [hempty]
      rfl

theorem run_rebindImports_eq_ok {scope : ElementId} {k : Nat} {t t' : Tree}
    (h : (rebindImports scope).run t = .ok k t') : t' = t.rebindImports scope := by
  rw [rebindImports, run_changeWith_eq_ok_iff] at h
  exact congrArg Prod.snd (Except.ok.inj h).symm

theorem run_element_eq_ok_iff {id : ElementId} {e : Element} {t t' : Tree} :
    (inspect (·.element id)).run t = .ok e t' ↔ t.get? id = some e ∧ t = t' := by
  rw [run_inspect_eq_ok_iff]
  rw [Tree.element]
  cases t.get? id <;> simp

/-! ## Sequences of edits -/

/-- What each step of a sequence carries on, the sequence carries on. -/
theorem foldlM_induction {I : σ → Tree → Prop} {step : σ → α → Edit σ}
    {items : List α} (hstep : ∀ s t a s' t', a ∈ items → I s t →
      (step s a).run t = .ok s' t' → I s' t') {s s' : σ} {t t' : Tree} (h : I s t)
    (hrun : (items.foldlM step s).run t = .ok s' t') : I s' t' := by
  induction items generalizing s t with
  | nil =>
      rw [List.foldlM_nil, run_pure_eq_ok_iff] at hrun
      obtain ⟨rfl, rfl⟩ := hrun
      exact h
  | cons a rest ih =>
      rw [List.foldlM_cons, run_bind_eq_ok_iff] at hrun
      obtain ⟨s₁, t₁, hfirst, hrest⟩ := hrun
      refine ih ?_ (hstep s t a s₁ t₁ List.mem_cons_self h hfirst) hrest
      exact fun s t b s' t' hb => hstep s t b s' t' (List.mem_cons_of_mem _ hb)

/-- What each edit of a sequence carries on, the sequence carries on. -/
theorem forM_induction {I : Tree → Prop} {step : α → Edit Unit} {items : List α}
    (hstep : ∀ t a t', a ∈ items → I t → (step a).run t = .ok () t' → I t')
    {t t' : Tree} {u : Unit} (h : I t) (hrun : (items.forM step).run t = .ok u t') :
    I t' := by
  rw [List.forM_eq_forM] at hrun
  induction items generalizing t with
  | nil =>
      rw [List.forM_nil, run_pure_eq_ok_iff] at hrun
      exact hrun.2 ▸ h
  | cons a rest ih =>
      rw [List.forM_cons, run_bind_eq_ok_iff] at hrun
      obtain ⟨_, t₁, hfirst, hrest⟩ := hrun
      refine ih ?_ (hstep t a t₁ List.mem_cons_self h hfirst) hrest
      exact fun t b t' hb => hstep t b t' (List.mem_cons_of_mem _ hb)

/-- What each edit of a sequence carries on with the results so far, each beside
    what it is of, the sequence carries on. -/
theorem mapM_zip_induction {I : List (α × β) → Tree → Prop} {step : α → Edit β}
    {items : List α} (hstep : ∀ done t a b t', a ∈ items → I done t →
      (step a).run t = .ok b t' → I (done ++ [(a, b)]) t') {t t' : Tree}
    {bs : List β} (h : I [] t) (hrun : (items.mapM step).run t = .ok bs t') :
    bs.length = items.length ∧ I (items.zip bs) t' := by
  have hgo : ∀ (items : List α) (done : List (α × β)) (t : Tree) (bs : List β),
      (∀ done t a b t', a ∈ items → I done t → (step a).run t = .ok b t' →
        I (done ++ [(a, b)]) t') →
      I done t → (items.mapM step).run t = .ok bs t' →
      bs.length = items.length ∧ I (done ++ items.zip bs) t' := by
    intro items
    induction items with
    | nil =>
        intro done t bs _ hI hrun
        rw [List.mapM_nil, run_pure_eq_ok_iff] at hrun
        obtain ⟨rfl, rfl⟩ := hrun
        rw [List.zip_nil_left, List.append_nil]
        exact ⟨rfl, hI⟩
    | cons a rest ih =>
        intro done t bs hstep hI hrun
        rw [List.mapM_cons, run_bind_eq_ok_iff] at hrun
        obtain ⟨b, t₁, hfirst, hrun⟩ := hrun
        obtain ⟨bs', t₂, hrest, hrun⟩ := run_bind_eq_ok_iff.mp hrun
        obtain ⟨rfl, rfl⟩ := run_pure_eq_ok_iff.mp hrun
        obtain ⟨hlength, hI'⟩ := ih (done ++ [(a, b)]) t₁ bs'
          (fun done t c d t' hc => hstep done t c d t' (List.mem_cons_of_mem _ hc))
          (hstep done t a b t₁ List.mem_cons_self hI hfirst) hrest
        rw [List.append_assoc] at hI'
        exact ⟨congrArg Nat.succ hlength, hI'⟩
  exact hgo items [] t bs hstep h hrun

/-- What each edit of a sequence carries on with the results so far, the
    sequence carries on. -/
theorem mapM_induction {I : List β → Tree → Prop} {step : α → Edit β}
    {items : List α} (hstep : ∀ bs t a b t', a ∈ items → I bs t →
      (step a).run t = .ok b t' → I (bs ++ [b]) t') {t t' : Tree} {bs : List β}
    (h : I [] t) (hrun : (items.mapM step).run t = .ok bs t') : I bs t' := by
  obtain ⟨hlength, hI⟩ := mapM_zip_induction (I := fun done => I (done.map (·.2)))
    (fun done t a b t' ha hI hone => by
      rw [List.map_append]
      exact hstep _ t a b t' ha hI hone) h hrun
  rwa [List.map_snd_zip (Nat.le_of_eq hlength)] at hI

/-- A turn of a traversal visits an element that is attached. -/
theorem run_visitAttached_of_attached {visit : σ → ElementId → Edit σ} {s : σ}
    {id : ElementId} {t : Tree} (h : t.isAttached id = true) :
    (visitAttached visit s id).run t = (visit s id).run t := by
  rw [visitAttached, run_get_bind, if_pos h]

/-- A turn of a traversal passes over an element that is not attached. -/
theorem run_visitAttached_of_not_attached {visit : σ → ElementId → Edit σ} {s : σ}
    {id : ElementId} {t : Tree} (h : ¬ t.isAttached id = true) :
    (visitAttached visit s id).run t = .ok s t := by
  rw [visitAttached, run_get_bind, if_neg h]
  rfl

/-- What each visit of an attached element carries on, a turn of a traversal
    carries on. -/
theorem visitAttached_induction {I : σ → Tree → Prop}
    {visit : σ → ElementId → Edit σ} (hvisit : ∀ s t id s' t', I s t →
      t.isAttached id = true → (visit s id).run t = .ok s' t' → I s' t') {s s' : σ}
    {id : ElementId} {t t' : Tree} (h : I s t)
    (hrun : (visitAttached visit s id).run t = .ok s' t') : I s' t' := by
  by_cases hattached : t.isAttached id = true
  · rw [run_visitAttached_of_attached hattached] at hrun
    exact hvisit s t id s' t' h hattached hrun
  · rw [run_visitAttached_of_not_attached hattached] at hrun
    obtain ⟨rfl, rfl⟩ := EStateM.Result.ok.inj hrun
    exact h

/-- What each visit of an attached element carries on, a traversal carries on. -/
theorem crawlWith_induction {I : σ → Tree → Prop} {visit : σ → ElementId → Edit σ}
    (hvisit : ∀ s t id s' t', I s t → t.isAttached id = true →
      (visit s id).run t = .ok s' t' → I s' t') {s s' : σ} {t t' : Tree} (h : I s t)
    (hrun : (crawlWith s visit).run t = .ok s' t') : I s' t' := by
  rw [crawlWith, run_get_bind] at hrun
  refine foldlM_induction ?_ h hrun
  intro s t id s' t' _ hI hturn
  exact visitAttached_induction hvisit hI hturn

/-- What each visit of an attached element carries on, a traversal carries on. -/
theorem crawl_induction {I : Tree → Prop} {visit : ElementId → Edit Unit}
    (hvisit : ∀ t id t', I t → t.isAttached id = true →
      (visit id).run t = .ok () t' → I t') {t t' : Tree} {u : Unit} (h : I t)
    (hrun : (crawl visit).run t = .ok u t') : I t' :=
  crawlWith_induction (I := fun _ => I) (fun _ t id _ t' => hvisit t id t') h hrun

/-- What each step of a sequence makes of the steps before it, the sequence
    makes of all of them. -/
theorem foldlM_done_induction {I : List α → σ → Tree → Prop} {step : σ → α → Edit σ}
    {items : List α} (hstep : ∀ done a rest s t s' t', items = done ++ a :: rest →
      I done s t → (step s a).run t = .ok s' t' → I (done ++ [a]) s' t') {s s' : σ}
    {t t' : Tree} (h : I [] s t) (hrun : (items.foldlM step s).run t = .ok s' t') :
    I items s' t' := by
  have hgo : ∀ (rest done : List α) (s : σ) (t : Tree), items = done ++ rest →
      I done s t → (rest.foldlM step s).run t = .ok s' t' → I items s' t' := by
    intro rest
    induction rest with
    | nil =>
        intro done s t hitems hI hrun
        rw [List.foldlM_nil, run_pure_eq_ok_iff] at hrun
        obtain ⟨rfl, rfl⟩ := hrun
        rw [hitems, List.append_nil]
        exact hI
    | cons a rest ih =>
        intro done s t hitems hI hrun
        rw [List.foldlM_cons, run_bind_eq_ok_iff] at hrun
        obtain ⟨s₁, t₁, hfirst, hrest⟩ := hrun
        refine ih (done ++ [a]) s₁ t₁ ?_
          (hstep done a rest s t s₁ t₁ hitems hI hfirst) hrest
        rw [hitems, List.append_assoc, List.singleton_append]
  exact hgo items [] s t rfl h hrun

/-- A traversal in which nothing is taken out visits everything that was below
    the root when it began. -/
theorem crawlWith_done_induction {I : List ElementId → σ → Tree → Prop}
    {visit : σ → ElementId → Edit σ} {t t' : Tree}
    (hattached : ∀ done a s id, I done a s → id ∈ t.descendants t.root →
      s.isAttached id = true)
    (hvisit : ∀ done id rest a s a' s', t.descendants t.root = done ++ id :: rest →
      I done a s → (visit a id).run s = .ok a' s' → I (done ++ [id]) a' s')
    {a a' : σ} (h : I [] a t) (hrun : (crawlWith a visit).run t = .ok a' t') :
    I (t.descendants t.root) a' t' := by
  rw [crawlWith, run_get_bind] at hrun
  refine foldlM_done_induction ?_ h hrun
  intro done id rest a s a' s' hitems hI hrun
  have hmem : id ∈ t.descendants t.root := by
    rw [hitems]
    exact List.mem_append_right _ List.mem_cons_self
  refine hvisit done id rest a s a' s' hitems hI ?_
  rw [run_visitAttached_of_attached (hattached done a s id hI hmem)] at hrun
  exact hrun

/-- A traversal in which nothing is taken out visits everything that was below
    the root when it began. -/
theorem crawl_done_induction {I : List ElementId → Tree → Prop}
    {visit : ElementId → Edit Unit} {t t' : Tree} (hattached : ∀ done s id, I done
      s → id ∈ t.descendants t.root → s.isAttached id = true)
    (hvisit : ∀ done id rest s s', t.descendants t.root = done ++ id :: rest →
      I done s → (visit id).run s = .ok () s' → I (done ++ [id]) s') (h : I [] t)
    {u : Unit} (hrun : (crawl visit).run t = .ok u t') :
    I (t.descendants t.root) t' :=
  crawlWith_done_induction (I := fun done _ => I done)
    (fun done _ => hattached done)
    (fun done id rest _ s _ => hvisit done id rest s) h hrun

/-! ## Edits that may be refused -/

/-- A change of the tree as a whole changes nothing when it is refused. -/
theorem eq_of_run_change_eq_error {f : Tree → Except ModelError Tree}
    {err : ModelError} {t t' : Tree} (h : (change f).run t = .error err t') :
    t' = t := by
  obtain ⟨s, -, hrun⟩ | ⟨e, -, hrun⟩ :=
    run_change f t <;> rw [hrun] at h <;> cases h
  rfl

/-- Refused or not, the edit leaves a tree of the property with it. -/
def Keeps (P : Tree → Prop) (m : Edit α) : Prop :=
  ∀ t, P t → P (treeOf (m.run t))

section Keeps

variable {P : Tree → Prop}

/-- To give a value keeps everything. -/
theorem Keeps.pure (a : α) : Keeps P (pure a : Edit α) := fun _ h => h

theorem Keeps.throw (e : ModelError) : Keeps P (throw e : Edit α) := fun _ h => h

theorem Keeps.get : Keeps P (get : Edit Tree) := fun _ h => h

/-- What both parts keep the sequence keeps. -/
theorem Keeps.bind {m : Edit α} {f : α → Edit β} (hm : Keeps P m)
    (hf : ∀ a, Keeps P (f a)) : Keeps P (m >>= f) := by
  intro t h
  show P (treeOf (EStateM.bind m f t))
  have h₁ := hm t h
  rw [EStateM.bind]
  simp only [EStateM.run] at h₁
  cases hr : m t with
  | ok a t' =>
      rw [hr] at h₁
      exact hf a t' h₁
  | error e t' =>
      rw [hr] at h₁
      exact h₁

/-- To look keeps everything. -/
theorem Keeps.inspect (f : Tree → Except ModelError α) : Keeps P (inspect f) := by
  intro t h
  obtain ⟨a, -, hr⟩ | ⟨e, -, hr⟩ := run_inspect f t <;> rw [hr] <;> exact h

/-- A change keeps what each of its results has. -/
theorem Keeps.change {f : Tree → Except ModelError Tree}
    (hf : ∀ t t', P t → f t = .ok t' → P t') : Keeps P (change f) := by
  intro t h
  obtain ⟨t', hok, hr⟩ | ⟨e, -, hr⟩ := run_change f t
  · rw [hr]
    exact hf t t' h hok
  · rw [hr]
    exact h

theorem Keeps.changeWith {f : Tree → Except ModelError (α × Tree)}
    (hf : ∀ t a t', P t → f t = .ok (a, t') → P t') : Keeps P (changeWith f) := by
  intro t h
  obtain ⟨a, t', hok, hr⟩ | ⟨e, -, hr⟩ := run_changeWith f t
  · rw [hr]
    exact hf t a t' h hok
  · rw [hr]
    exact h

/-- A fold keeps what every turn keeps. -/
theorem Keeps.foldlM {step : σ → α → Edit σ} (hstep : ∀ s a, Keeps P (step s a))
    (items : List α) (s : σ) : Keeps P (items.foldlM step s) := by
  induction items generalizing s with
  | nil => exact Keeps.pure s
  | cons a rest ih =>
      rw [List.foldlM_cons]
      exact (hstep s a).bind ih

/-- A loop keeps what every turn keeps. -/
theorem Keeps.forM {step : α → Edit Unit} (hstep : ∀ a, Keeps P (step a))
    (items : List α) : Keeps P (items.forM step) := by
  rw [List.forM_eq_forM]
  induction items with
  | nil => exact Keeps.pure PUnit.unit
  | cons a rest ih =>
      rw [List.forM_cons]
      exact (hstep a).bind fun _ => ih

/-- A crawl keeps what every visit keeps. -/
theorem Keeps.crawl {visit : ElementId → Edit Unit}
    (hvisit : ∀ id, Keeps P (visit id)) : Keeps P (crawl visit) :=
  fun _ h => run_crawlWith_keeps (fun _ id t hP _ => hvisit id t hP) () h

/-- What an edit keeps holds after a success. -/
theorem Keeps.of_run {m : Edit α} (hm : Keeps P m) {t t' : Tree} {a : α} (h : P t)
    (hrun : m.run t = .ok a t') : P t' := by
  have hkept := hm t h
  rwa [hrun] at hkept

end Keeps

end Edit

end CodeModel
