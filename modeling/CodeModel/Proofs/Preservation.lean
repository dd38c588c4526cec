import CodeModel.Proofs.InheritedProperties
import CodeModel.Proofs.PipelineSteps

/-!
# What every refinement keeps

A pipeline takes a tree by steps, so it keeps what steps keep: every element is
left what it was, where it was unless it is a class, with its types bound as
they were and under its name on the wire.

That a copied property goes by the name of its source says something of a run
that the tree after the run does not show. So there is a run that notes its
copies: `Pipeline.runNoting` does what `Pipeline.run` does
(`run_eq_ok_iff_runNoting`), and gives the copies made besides. All that
flattening adds to a tree is noted, and is like what the note says was copied
(`covered_of_flattenNoting`).

Main statements: `Pipeline.retained_of_run` and `Pipeline.wireNames_of_run`.
-/

namespace CodeModel

open CodeModel.Tree

/-- A property that was copied, its copy, and what it was called on the wire
    then. -/
structure CopyNote where
  source : ElementId
  copy : ElementId
  wireName : Option String
deriving DecidableEq

namespace Edit

/-- Copies what every class inherits into it and drops the inheritance, and
    notes the copies. -/
def flattenNoting : Edit (List CopyNote) :=
  crawlWith [] fun notes id => do
    let t ← get
    if (t.parentClass? id).isNone then return notes
    let sources := t.inheritedProperties id
    let copies ← sources.mapM cloneSubtree
    inherit id copies
    return notes ++ (sources.zip copies).map fun q => ⟨q.1, q.2, t.wireName? q.1⟩

end Edit

namespace Pass

/-- The edit that a pass stands for, with the copies that it makes of
    properties. -/
def applyNoting : Pass → Edit (List CopyNote)
  | flattenInheritance => Edit.flattenNoting
  | pass => do
      pass.apply
      return []

end Pass

namespace Pipeline

/-- Runs passes one after another and notes the copies that they make. -/
def runPassesNoting (language : Language) : List Pass → Refinement (List CopyNote)
  | [] => return []
  | pass :: rest => do
      let notes ← pass.applyNoting.adaptExcept (.passFailed language pass.name)
      let more ← runPassesNoting language rest
      return notes ++ more

/-- Runs the passes one after another on a tree whose references are bound, and
    notes their copies. -/
def runNoting (p : Pipeline) : Refinement (List CopyNote) := do
  (Edit.inspect Tree.validateReferences).adaptExcept .model
  runPassesNoting p.language p.passes

end Pipeline

namespace Edit

variable {t t' : Tree} {u : Unit}

/-- A traversal that hands on a value does to the tree what one does whose
    visits do the same and hand on nothing. -/
theorem run_crawl_eq_ok_iff {σ : Type} {visit : ElementId → Edit Unit}
    {noting : σ → ElementId → Edit σ}
    (hvisit : ∀ s id t t', (visit id).run t = .ok () t' ↔
      ∃ s', (noting s id).run t = .ok s' t') (s : σ) :
    (crawl visit).run t = .ok u t' ↔
      ∃ s', (crawlWith s noting).run t = .ok s' t' := by
  have hone : ∀ (s : σ) (id : ElementId) (t t' : Tree),
      (visitAttached (fun _ id => visit id) () id).run t = .ok () t' ↔
        ∃ s', (visitAttached noting s id).run t = .ok s' t' := by
    intro s id t t'
    simp only [visitAttached, run_get_bind]
    split
    · exact hvisit s id t t'
    · simp
  have hgo : ∀ (ids : List ElementId) (s : σ) (t : Tree),
      (ids.foldlM (visitAttached fun _ id => visit id) ()).run t = .ok () t' ↔
        ∃ s', (ids.foldlM (visitAttached noting) s).run t = .ok s' t' := by
    intro ids
    induction ids with
    | nil =>
        intro s t
        simp
    | cons id rest ih =>
        intro s t
        simp only [List.foldlM_cons, run_bind_eq_ok_iff]
        constructor
        · rintro ⟨_, t₁, hfirst, hrest⟩
          obtain ⟨s₁, hfirst⟩ := (hone s id t t₁).mp hfirst
          obtain ⟨s', hrest⟩ := (ih s₁ t₁).mp hrest
          exact ⟨s', s₁, t₁, hfirst, hrest⟩
        · rintro ⟨s', s₁, t₁, hfirst, hrest⟩
          exact ⟨(), t₁, (hone s id t t₁).mpr ⟨s₁, hfirst⟩,
            (ih s₁ t₁).mpr ⟨s', hrest⟩⟩
  exact hgo _ s t

/-- The instrumented pass comes to the same tree, and fails where the pass
    fails. -/
theorem run_flattenInheritance_eq_ok_iff :
    flattenInheritance.run t = .ok u t' ↔
      ∃ notes, flattenNoting.run t = .ok notes t' := by
  refine run_crawl_eq_ok_iff (fun notes id t t' => ?_) []
  simp only [run_get_bind]
  split
  · simp
  · constructor
    · intro hrun
      obtain ⟨copies, t₁, hclone, hrest⟩ := run_bind_eq_ok_iff.mp hrun
      have hinherit : (inherit id copies).run t₁ = .ok () t' := hrest
      exact ⟨_, run_bind_eq_ok_iff.mpr ⟨copies, t₁, hclone, run_bind_eq_ok_iff.mpr
        ⟨(), t', hinherit, run_pure_eq_ok_iff.mpr ⟨rfl, rfl⟩⟩⟩⟩
    · rintro ⟨notes', hrun⟩
      obtain ⟨copies, t₁, hclone, hrest⟩ := run_bind_eq_ok_iff.mp hrun
      obtain ⟨_, t₂, hinherit, hpure⟩ := run_bind_eq_ok_iff.mp hrest
      obtain ⟨-, rfl⟩ := run_pure_eq_ok_iff.mp hpure
      exact run_bind_eq_ok_iff.mpr ⟨copies, t₁, hclone, hinherit⟩

end Edit

namespace Pipeline

variable {t t' : Tree} {u : Unit}

theorem run_apply_eq_ok_iff (pass : Pass) :
    pass.apply.run t = .ok u t' ↔
      ∃ notes, pass.applyNoting.run t = .ok notes t' := by
  cases pass with
  | flattenInheritance => exact Edit.run_flattenInheritance_eq_ok_iff
  | _ =>
      refine Iff.trans ?_ (exists_congr fun notes => Edit.run_bind_eq_ok_iff).symm
      constructor
      · intro h
        exact ⟨[], (), t', h, Edit.run_pure_eq_ok_iff.mpr ⟨rfl, rfl⟩⟩
      · rintro ⟨notes, _, t₁, h, hpure⟩
        obtain ⟨-, rfl⟩ := Edit.run_pure_eq_ok_iff.mp hpure
        exact h

theorem run_pure_eq_ok_iff {α : Type} {a b : α} :
    (pure a : Refinement α).run t = .ok b t' ↔ a = b ∧ t = t' := by
  show EStateM.Result.ok a t = .ok b t' ↔ _
  simp

/-- One pass and those after it are run one after another, and so are their
    notes. -/
theorem runPassesNoting_cons_eq_ok_iff {language : Language} {pass : Pass}
    {rest : List Pass} {notes : List CopyNote} :
    (runPassesNoting language (pass :: rest)).run t = .ok notes t' ↔
      ∃ own s more, pass.applyNoting.run t = .ok own s
        ∧ (runPassesNoting language rest).run s = .ok more t'
        ∧ own ++ more = notes := by
  rw [runPassesNoting, run_bind_eq_ok_iff]
  constructor
  · rintro ⟨own, s, hpass, hrest⟩
    obtain ⟨more, _, hmore, hpure⟩ := run_bind_eq_ok_iff.mp hrest
    obtain ⟨hnotes, rfl⟩ := run_pure_eq_ok_iff.mp hpure
    exact ⟨own, s, more, run_adaptExcept_eq_ok_iff.mp hpass, hmore, hnotes⟩
  · rintro ⟨own, s, more, hpass, hmore, hnotes⟩
    exact ⟨own, s, run_adaptExcept_eq_ok_iff.mpr hpass, run_bind_eq_ok_iff.mpr
      ⟨more, t', hmore, run_pure_eq_ok_iff.mpr ⟨hnotes, rfl⟩⟩⟩

theorem run_forM_eq_ok_iff {language : Language} {passes : List Pass} :
    (passes.forM (runPass language)).run t = .ok u t' ↔
      ∃ notes, (runPassesNoting language passes).run t = .ok notes t' := by
  induction passes generalizing t with
  | nil =>
      rw [List.forM_eq_forM, List.forM_nil, run_pure_eq_ok_iff]
      simp only [runPassesNoting, run_pure_eq_ok_iff]
      simp
  | cons pass rest ih =>
      rw [run_forM_cons_eq_ok_iff]
      simp only [runPassesNoting_cons_eq_ok_iff]
      constructor
      · rintro ⟨s, hfirst, hrest⟩
        obtain ⟨notes, hfirst⟩ := (run_apply_eq_ok_iff pass).mp hfirst
        obtain ⟨more, hrest⟩ := ih.mp hrest
        exact ⟨_, notes, s, more, hfirst, hrest, rfl⟩
      · rintro ⟨_, notes, s, more, hfirst, hrest, -⟩
        exact ⟨s, (run_apply_eq_ok_iff pass).mpr ⟨notes, hfirst⟩,
          ih.mpr ⟨more, hrest⟩⟩

/-- The run that notes its copies does to a tree what the run does that notes
    nothing. -/
theorem run_eq_ok_iff_runNoting {p : Pipeline} :
    p.run.run t = .ok u t' ↔ ∃ notes, p.runNoting.run t = .ok notes t' := by
  rw [run_eq_ok_iff, run_forM_eq_ok_iff]
  simp only [runNoting, run_bind_eq_ok_iff, run_adaptExcept_eq_ok_iff,
    Edit.run_inspect_eq_ok_iff]
  constructor
  · rintro ⟨hok, notes, hpasses⟩
    exact ⟨notes, (), t, ⟨hok, rfl⟩, hpasses⟩
  · rintro ⟨notes, _, _, ⟨hok, rfl⟩, hpasses⟩
    exact ⟨hok, notes, hpasses⟩

/-! ## Notes -/

/-- Every note is of a property and a copy that go by the name noted on the
    wire. -/
def Honoured (t : Tree) (notes : List CopyNote) : Prop :=
  ∀ note ∈ notes, SameWireName t note.wireName note.source note.copy

/-- Notes of two lists are honoured when those of both are. -/
theorem Honoured.append {notes more : List CopyNote} (h : Honoured t notes)
    (h' : Honoured t more) : Honoured t (notes ++ more) :=
  fun note hnote =>
  (List.mem_append.mp hnote).elim (h note) (h' note)

/-- What is honoured stays so through every step. -/
theorem Honoured.steps {K : StepKind → Prop} {n : Nat} {notes : List CopyNote}
    (hs : Stable t) (hsteps : Steps K n t t') (h : Honoured t notes) :
    Honoured t' notes :=
  fun note hnote =>
  (h note hnote).steps hs hsteps

/-- The notes of the pass are honoured at its end: each is taken when the copy
    is made, and the turns that follow are steps. -/
theorem honoured_of_flattenNoting (h : Stable t) {notes : List CopyNote}
    (hrun : Edit.flattenNoting.run t = .ok notes t') : Honoured t' notes := by
  have hdone : Stable t' ∧ Honoured t' notes := by
    refine Edit.crawlWith_induction (I := fun notes s => Stable s
      ∧ Honoured s notes) ?_
      ⟨h, fun note hnote => absurd hnote List.not_mem_nil⟩ hrun
    rintro notes s id notes' s' ⟨hs, hnotes⟩ ha hvisit
    rw [Edit.run_get_bind] at hvisit
    split at hvisit
    · obtain ⟨rfl, rfl⟩ := Edit.run_pure_eq_ok_iff.mp hvisit
      exact ⟨hs, hnotes⟩
    next hparent =>
      obtain ⟨copies, s₁, hclone, hrest⟩ := Edit.run_bind_eq_ok_iff.mp hvisit
      obtain ⟨_, s₂, hinherit, hpure⟩ := Edit.run_bind_eq_ok_iff.mp hrest
      obtain ⟨rfl, rfl⟩ := Edit.run_pure_eq_ok_iff.mp hpure
      obtain ⟨hsteps, hnew⟩ := steps_inherit (K := fun _ => True) trivial trivial
        trivial hs (Nat.le_refl _)
        (hs.toWellLinked.isAttached_iff.mp ha) hparent hclone hinherit
      refine ⟨(hs.steps hsteps).1,
        (hnotes.steps hs hsteps).append fun note hnote => ?_⟩
      obtain ⟨q, hq, rfl⟩ := List.mem_map.mp hnote
      exact hnew q hq
  exact hdone.2

/-- Other passes take no notes. -/
theorem honoured_of_applyNoting (pass : Pass) (h : Stable t) {notes : List CopyNote}
    (hrun : pass.applyNoting.run t = .ok notes t') : Honoured t' notes := by
  cases pass with
  | flattenInheritance => exact honoured_of_flattenNoting h hrun
  | _ =>
      -- No other pass makes a note.
      obtain ⟨_, t₁, -, hpure⟩ := Edit.run_bind_eq_ok_iff.mp hrun
      obtain ⟨rfl, -⟩ := Edit.run_pure_eq_ok_iff.mp hpure
      exact fun note hnote => absurd hnote List.not_mem_nil

/-- Through a list of passes the notes of each are honoured at its end, and
    after it. -/
theorem honoured_of_runPassesNoting {language : Language} {passes : List Pass}
    (h : Stable t) {notes : List CopyNote}
    (hrun : (runPassesNoting language passes).run t = .ok notes t') :
    Honoured t' notes := by
  induction passes generalizing t notes with
  | nil =>
      obtain ⟨rfl, -⟩ := run_pure_eq_ok_iff.mp hrun
      exact fun note hnote => absurd hnote List.not_mem_nil
  | cons pass rest ih =>
      obtain ⟨first, s, more, hfirst, hrest, rfl⟩ :=
        runPassesNoting_cons_eq_ok_iff.mp hrun
      have happly : pass.apply.run t = .ok () s :=
        (run_apply_eq_ok_iff pass).mpr ⟨first, hfirst⟩
      have hs := (pass.stable_apply h happly).1
      -- The passes after it leave alone what the notes of this one say.
      have hafter := steps_of_forM (K := fun _ => True) (fun _ _ _ _ => trivial) hs
        (run_forM_eq_ok_iff (u := ()).mpr ⟨more, hrest⟩) (Nat.le_refl _)
      exact ((honoured_of_applyNoting pass h hfirst).steps hs hafter).append
        (ih hs hrest)

/-- Every element that `s'` has and `s` has not is a copy that is noted, and a
    property like its source. -/
def Covered (s s' : Tree) (notes : List CopyNote) : Prop :=
  ∀ x, s.size ≤ x.index → (s'.get? x).isSome →
    ∃ note ∈ notes, note.copy = x ∧ Reproduces s' note.source s' x

/-- A class that is given what it inherits adds its copies to what is covered. -/
theorem Covered.inherited {s s' : Tree} {id : ElementId} {copies : List ElementId}
    {notes : List CopyNote} (hcovered : Covered t s notes) (hwl : WellLinked s)
    (hclass : s.kind? id = some .classDecl) (h : Inherited s id copies s')
    (wireName : ElementId → Option String) :
    Covered t s' (notes ++
      ((s.inheritedProperties id).zip copies).map
        fun q => ⟨q.1, q.2, wireName q.1⟩) := by
  intro x hx hsome
  rcases Nat.lt_or_ge x.index s.size with hold | hnew
  · obtain ⟨note, hnote, rfl, hlike⟩ :=
      hcovered x hx ((get?_isSome_iff s x).mpr hold)
    refine ⟨note, List.mem_append_left _ hnote, rfl,
      h.reproduces hclass (hlike.of_get?_eq ?_)⟩
    refine h.get?_other _ hold ?_
    -- It is a property, and what is given copies is a class.
    rintro rfl
    rw [hlike.kind?] at hclass
    cases hclass
  · obtain ⟨p, hp, hq⟩ := exists_mem_zip h.length_eq (h.eq_copy x hnew hsome)
    have hself := reproduces_self (kind?_of_mem_inheritedProperties hp)
    exact ⟨_, List.mem_append_right _ (List.mem_map.mpr ⟨_, hq, rfl⟩), rfl,
      h.reproduces hclass (hself.image h (flattened_nil hwl) hq)⟩

/-- Whatever flattening adds is noted. -/
theorem covered_of_flattenNoting (hwl : WellLinked t) {notes : List CopyNote}
    (hrun : Edit.flattenNoting.run t = .ok notes t') : Covered t t' notes := by
  have hdone : WellLinked t' ∧ Covered t t' notes := by
    refine Edit.crawlWith_induction (I := fun notes s => WellLinked s
      ∧ Covered t s notes) ?_
      ⟨hwl, fun x hx hsome =>
        absurd ((get?_isSome_iff t x).mp hsome) (Nat.not_lt.mpr hx)⟩ hrun
    rintro notes s id notes' s' ⟨hs, hcovered⟩ - hvisit
    rw [Edit.run_get_bind] at hvisit
    split at hvisit
    · obtain ⟨rfl, rfl⟩ := Edit.run_pure_eq_ok_iff.mp hvisit
      exact ⟨hs, hcovered⟩
    next hparent =>
      obtain ⟨copies, s₁, hclone, hrest⟩ := Edit.run_bind_eq_ok_iff.mp hvisit
      obtain ⟨_, s₂, hinherit, hpure⟩ := Edit.run_bind_eq_ok_iff.mp hrest
      obtain ⟨rfl, rfl⟩ := Edit.run_pure_eq_ok_iff.mp hpure
      obtain ⟨p, hp⟩ :=
        Option.ne_none_iff_exists'.mp (mt Option.isNone_iff_eq_none.mpr hparent)
      have hclass := isSome_class?_iff.mp (parentClass?_eq_some hp).1
      have hinherited := inherited_of_run hs hclass hclone hinherit
      exact ⟨hinherited.wellLinked, hcovered.inherited hs hclass hinherited _⟩
  exact hdone.2

/-- The notes of some passes and of those after them are the notes of all. -/
theorem runPassesNoting_append_eq_ok_iff {language : Language}
    {before after : List Pass} {notes : List CopyNote} :
    (runPassesNoting language (before ++ after)).run t = .ok notes t' ↔
      ∃ first s rest, (runPassesNoting language before).run t = .ok first s
        ∧ (runPassesNoting language after).run s = .ok rest t'
        ∧ first ++ rest = notes := by
  induction before generalizing t notes with
  | nil =>
      simp only [List.nil_append, runPassesNoting, run_pure_eq_ok_iff]
      constructor
      · intro hrun
        exact ⟨[], t, notes, ⟨rfl, rfl⟩, hrun, rfl⟩
      · rintro ⟨_, _, rest, ⟨rfl, rfl⟩, hrun, rfl⟩
        exact hrun
  | cons pass before ih =>
      rw [List.cons_append, runPassesNoting_cons_eq_ok_iff]
      constructor
      · rintro ⟨own, s, more, hpass, hmore, rfl⟩
        obtain ⟨first, s₁, rest, hbefore, hafter, rfl⟩ := ih.mp hmore
        exact ⟨own ++ first, s₁, rest, runPassesNoting_cons_eq_ok_iff.mpr
          ⟨own, s, first, hpass, hbefore, rfl⟩, hafter, List.append_assoc _ _ _⟩
      · rintro ⟨_, s₁, rest, hall, hafter, rfl⟩
        obtain ⟨own, s, first, hpass, hbefore, rfl⟩ :=
          runPassesNoting_cons_eq_ok_iff.mp hall
        exact ⟨own, s, first ++ rest, hpass, ih.mpr
          ⟨first, s₁, rest, hbefore, hafter, rfl⟩, (List.append_assoc _ _ _).symm⟩

/-- Where flattening comes in a run, its notes are among those of the run. -/
theorem exists_flattening {language : Language}
    {before after : List Pass} (h : Stable t) {notes : List CopyNote}
    (hrun : (runPassesNoting language (before ++ .flattenInheritance :: after)).run
      t = .ok notes t') :
    ∃ s s', (before.forM (runPass language)).run t = .ok () s
      ∧ Edit.flattenInheritance.run s = .ok () s'
      ∧ (after.forM (runPass language)).run s' = .ok () t'
      ∧ ∀ x, s.size ≤ x.index → (s'.get? x).isSome → ∃ note ∈ notes, note.copy = x
        ∧ Reproduces s' note.source s' x
        ∧ s'.wireName? note.source = note.wireName := by
  obtain ⟨first, s, rest, hbefore, hrest, rfl⟩ :=
    runPassesNoting_append_eq_ok_iff.mp hrun
  obtain ⟨own, s', more, hflatten, hafter, rfl⟩ :=
    runPassesNoting_cons_eq_ok_iff.mp hrest
  have hfirst := run_forM_eq_ok_iff (u := ()).mpr ⟨first, hbefore⟩
  have hs := (stable_of_forM h hfirst).1
  refine ⟨s, s', hfirst, Edit.run_flattenInheritance_eq_ok_iff.mpr ⟨own, hflatten⟩,
    run_forM_eq_ok_iff.mpr ⟨more, hafter⟩, fun x hx hsome => ?_⟩
  obtain ⟨note, hnote, hcopy, hlike⟩ :=
    covered_of_flattenNoting hs.toWellLinked hflatten x hx hsome
  have hhonoured := honoured_of_flattenNoting hs hflatten note hnote
  exact ⟨note, List.mem_append_right _ (List.mem_append_left _ hnote), hcopy, hlike,
    hhonoured.2.1⟩

/-! ## Runs -/

/-- Refinement loses and rebinds nothing: whatever the passes of a pipeline,
    their order and their parameters, if it succeeds on a well-formed tree,
    everything that was attached is attached, and every element of the tree is
    left what it was. -/
theorem retained_of_run {p : Pipeline} (hwf : WellFormed t)
    (hrun : p.run.run t = .ok u t') :
    (∀ x, Attached t x → Attached t' x)
      ∧ ∀ x e, t.get? x = some e → ∃ e', t'.get? x = some e'
      ∧ Retained t t' x e e' := by
  obtain ⟨h, hsteps⟩ := steps_of_run hwf hrun
  refine ⟨fun x hx => (h.steps hsteps).2.attached hx, fun x e he => ?_⟩
  obtain ⟨e', he', hkept⟩ := kept_of_steps h hsteps he
  exact ⟨e', he',
    (links_of_steps h hsteps he (index_lt_of_get? he)).retained hkept.toHolds⟩

/-- A tree with a builder that bears the name of a namespace beside it, its
    query class, and a property of a union type. -/
def ordersBuilder : Tree :=
  Operation.runAll
    [.addNamespace ⟨0⟩ "orders",
      .addNew .classes ⟨0⟩ (.classDecl "Orders" .requestBuilder),
      .addNew .classes ⟨0⟩ (.classDecl "OrdersQuery" .queryParameters),
      .addNew .methods ⟨2⟩
        (.asynchronous (.method "get" .requestExecutor (.external "string"))),
      .addNew .parameters ⟨4⟩
        (.parameter "query" .queryParameter (.declared "OrdersQuery" ⟨3⟩)),
      .addNew .properties ⟨2⟩
        (.property "value" .custom
          (.union "Value" [.external "string", .external "int"]))]
    initial

theorem wellFormed_ordersBuilder : WellFormed ordersBuilder :=
  (Operation.fullyNamed_runAll _ fullyNamed_initial).wellFormed

/-- The builder moves into the namespace and the query class into the builder,
    with all that they hold. -/
theorem retained_of_run_ordersBuilder :
    ∃ t',
      (⟨.csharp, [.moveIntoNamesakes, .wrapUnions .innerClasses, .nestQueryClasses,
          .addAsyncSuffix "Async"]⟩ : Pipeline).run.run ordersBuilder = .ok () t'
      ∧ t'.parent? ⟨2⟩ = some ⟨1⟩ ∧ t'.parent? ⟨3⟩ = some ⟨2⟩
      ∧ (∀ x, Attached ordersBuilder x → Attached t' x)
      ∧ ∀ x e, ordersBuilder.get? x = some e → ∃ e', t'.get? x = some e'
      ∧ Retained ordersBuilder t' x e e' := by
  obtain ⟨t', hrun, hbuilder, hquery⟩ :
      ∃ t', (⟨.csharp,
        [.moveIntoNamesakes, .wrapUnions .innerClasses, .nestQueryClasses,
            .addAsyncSuffix "Async"]⟩ : Pipeline).run.run ordersBuilder = .ok () t'
        ∧ t'.parent? ⟨2⟩ = some ⟨1⟩ ∧ t'.parent? ⟨3⟩ = some ⟨2⟩ :=
          exists_eq_ok (by decide +kernel)
  exact ⟨t', hrun, hbuilder, hquery, retained_of_run wellFormed_ordersBuilder hrun⟩

/-- Names on the wire survive: whatever the passes of a pipeline, their order
    and their parameters, if it succeeds on a well-formed tree, every class and
    property goes by the name it had, and every property that was copied goes by
    the name that its source had when it was copied, as does its source.
    Wherever flattening comes in the run, all that it adds are copies that are
    noted, and each is like the property noted as its source, which goes by the
    noted name then. -/
theorem wireNames_of_run {p : Pipeline} (hwf : WellFormed t)
    (hrun : p.run.run t = .ok u t') :
    (∀ x w, t.wireName? x = some w → t'.wireName? x = some w)
      ∧ ∃ notes, p.runNoting.run t = .ok notes t'
        ∧ (∀ note ∈ notes, note.wireName.isSome
          ∧ t'.wireName? note.copy = note.wireName
          ∧ t'.wireName? note.source = note.wireName)
        ∧ ∀ before after, p.passes = before ++ .flattenInheritance :: after →
          ∃ s s', (before.forM (runPass p.language)).run t = .ok () s
            ∧ Edit.flattenInheritance.run s = .ok () s'
            ∧ (after.forM (runPass p.language)).run s' = .ok () t'
            ∧ ∀ x, s.size ≤ x.index → (s'.get? x).isSome →
              ∃ note ∈ notes, note.copy = x
              ∧ Reproduces s' note.source s' x
              ∧ s'.wireName? note.source = note.wireName := by
  obtain ⟨h, hsteps⟩ := steps_of_run hwf hrun
  constructor
  · intro x w hw
    obtain ⟨e, he, hwire⟩ := Option.bind_eq_some_iff.mp hw
    obtain ⟨e', he', hkept⟩ := kept_of_steps h hsteps he
    rw [wireName?, he', Option.bind_some, hkept.wireName?_eq, hwire]
  · obtain ⟨notes, hnoting⟩ := run_eq_ok_iff_runNoting.mp hrun
    obtain ⟨_, s, hcheck, hpasses⟩ := run_bind_eq_ok_iff.mp hnoting
    obtain ⟨-, rfl⟩ :=
      Edit.run_inspect_eq_ok_iff.mp (run_adaptExcept_eq_ok_iff.mp hcheck)
    refine ⟨notes, hnoting, fun note hnote => ?_, fun before after hpasses' => ?_⟩
    · obtain ⟨hsome, hsource, hcopy⟩ :=
        honoured_of_runPassesNoting h hpasses note hnote
      exact ⟨hsome, hcopy, hsource⟩
    · exact exists_flattening h (hpasses' ▸ hpasses)

/-- A tree of a class with a property under a reserved name and a class that
    inherits from it. -/
def reservedPair : Tree :=
  Operation.runAll
    [.addNew .classes ⟨0⟩ (.classDecl "Base" .model),
      .addNew .properties ⟨1⟩ (.property "class" .custom (.external "string")),
      .addNew .classes ⟨0⟩
        (.inheriting (.classDecl "Derived" .model) (.declared "Base" ⟨1⟩))]
    initial

theorem wellFormed_reservedPair : WellFormed reservedPair :=
  (Operation.fullyNamed_runAll _ fullyNamed_initial).wellFormed

/-- A property that is escaped before it is copied, and its copy, go by the name
    that it had at first. -/
theorem wireNames_of_run_reservedPair :
    ∃ t' notes, (⟨.go, [.escapeReservedNames (.ofList ["class"])
      (.suffix "Escaped"), .flattenInheritance]⟩ :
          Pipeline).runNoting.run reservedPair = .ok notes t'
      ∧ notes = [⟨⟨2⟩, ⟨4⟩, some "class"⟩] ∧ t'.name? ⟨4⟩ = some "classEscaped"
      ∧ t'.wireName? ⟨2⟩ = some "class" ∧ t'.wireName? ⟨4⟩ = some "class" := by
  obtain ⟨t', hrun, hnoting, hname⟩ :
      ∃ t', (⟨.go, [.escapeReservedNames (.ofList ["class"]) (.suffix "Escaped"),
        .flattenInheritance]⟩ :
            Pipeline).run.run reservedPair = .ok () t'
        ∧ (⟨.go, [.escapeReservedNames (.ofList ["class"]) (.suffix "Escaped"),
          .flattenInheritance]⟩ :
            Pipeline).runNoting.run reservedPair = .ok [⟨⟨2⟩, ⟨4⟩, some "class"⟩] t'
        ∧ t'.name? ⟨4⟩ = some "classEscaped" := ⟨_, rfl, rfl, rfl⟩
  obtain ⟨hkeep, notes, hnotes, hcopies, -⟩ :=
    wireNames_of_run wellFormed_reservedPair hrun
  obtain ⟨rfl, -⟩ := EStateM.Result.ok.inj (hnotes.symm.trans hnoting)
  obtain ⟨-, hcopy, -⟩ := hcopies _ (List.mem_singleton_self _)
  exact ⟨t', _, hnoting, rfl, hname, hkeep ⟨2⟩ "class" rfl, hcopy⟩

end Pipeline

end CodeModel
