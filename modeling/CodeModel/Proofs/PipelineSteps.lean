import CodeModel.Proofs.MakingSteps
import CodeModel.Proofs.Operations
import CodeModel.Refine.Pipeline

/-!
# Pipelines as steps

A pipeline that succeeds has found its tree bound and then taken it by steps
from pass to pass. So whatever a step keeps, every pipeline keeps, for any list
of passes with any parameters.

Main statements: `steps_of_run`, and `wellFormed_of_run`, a well-formed tree
leaves every pipeline well formed and bound.
-/

namespace CodeModel

open CodeModel.Tree

/-- The kinds of steps that a pass takes. -/
def Pass.stepKinds : Pass → List StepKind
  | seedImports _ | implementInModels _ _ | replaceBinary _
      _ | makeEnumPropertiesNullable | correctTypes _
  | resolveImportPaths => [.amend]
  | importReferenced _ => [.amend, .link]
  | moveIntoNamesakes | nestQueryClasses => [.move]
  | wrapUnions _ => [.make, .attach, .retype]
  | flattenInheritance => [.copy, .attach, .amend]
  | addAsyncSuffix _ | capitalizeNamespaces | escapeReservedNames _ _ => [.rename]
  | disambiguateProperties _ => [.reinsert]
  | addConstructors _ => [.construct, .attach]

/-- A pass that succeeds on a stable tree has taken it to another by steps of
    its kinds. -/
theorem Pass.steps_apply (pass : Pass) {t t' : Tree} {n : Nat} {K : StepKind → Prop}
    {u : Unit} (hK : ∀ k ∈ pass.stepKinds, K k) (h : Stable t) (hn : n ≤ t.size)
    (hrun : pass.apply.run t = .ok u t') : Steps K n t t' := by
  cases pass with
  | seedImports defaults =>
      exact steps_seedImports (hK _ (by simp [stepKinds])) h hn hrun
  | moveIntoNamesakes =>
      exact steps_moveIntoNamesakes (hK _ (by simp [stepKinds])) h hn hrun
  | wrapUnions placement =>
      exact steps_wrapUnions (hK _ (by simp [stepKinds]))
        (hK _ (by simp [stepKinds]))
        (hK _ (by simp [stepKinds])) h hn hrun
  | flattenInheritance =>
      exact steps_flattenInheritance (hK _ (by simp [stepKinds]))
        (hK _ (by simp [stepKinds]))
        (hK _ (by simp [stepKinds])) h hn hrun
  | importReferenced ownNamespaceToo =>
      exact steps_importReferenced (hK _ (by simp [stepKinds]))
        (hK _ (by simp [stepKinds])) h hn hrun
  | addAsyncSuffix suffix =>
      exact steps_addAsyncSuffix (hK _ (by simp [stepKinds])) h hn hrun
  | nestQueryClasses =>
      exact steps_nestQueryClasses (hK _ (by simp [stepKinds])) h hn hrun
  | implementInModels interface spec =>
      exact steps_implementInModels (hK _ (by simp [stepKinds])) h hn hrun
  | capitalizeNamespaces =>
      exact steps_capitalizeNamespaces (hK _ (by simp [stepKinds])) h hn hrun
  | replaceBinary typeName spec =>
      exact steps_replaceBinary (hK _ (by simp [stepKinds])) h hn hrun
  | makeEnumPropertiesNullable =>
      exact steps_makeEnumPropertiesNullable (hK _ (by simp [stepKinds])) h hn hrun
  | escapeReservedNames reserved style =>
      exact steps_escapeReservedNames (hK _ (by simp [stepKinds])) h hn hrun
  | disambiguateProperties suffix =>
      exact steps_disambiguateProperties (hK _ (by simp [stepKinds])) h hn hrun
  | addConstructors inheritingToo =>
      exact steps_addConstructors (hK _ (by simp [stepKinds]))
        (hK _ (by simp [stepKinds])) h hn hrun
  | correctTypes corrections =>
      exact steps_correctTypes (hK _ (by simp [stepKinds])) h hn hrun
  | resolveImportPaths =>
      exact steps_resolveImportPaths (hK _ (by simp [stepKinds])) h hn hrun

/-- Whatever a pass does, it leaves a stable tree and keeps what is attached. -/
theorem Pass.stable_apply (pass : Pass) {t t' : Tree} {u : Unit} (h : Stable t)
    (hrun : pass.apply.run t = .ok u t') : Stable t' ∧ Carries t t' :=
  h.steps (pass.steps_apply (K := fun _ => True)
    (fun _ _ => trivial) h (Nat.le_refl _) hrun)

namespace Pipeline

variable {t t' : Tree} {u : Unit} {language : Language}

/-- A success with another account of refusals is the success itself. -/
theorem run_adaptExcept_eq_ok_iff {α : Type} {m : Edit α}
    {f : ModelError → RefineError} {a : α} :
    (m.adaptExcept f : Refinement α).run t = .ok a t' ↔ m.run t = .ok a t' := by
  show EStateM.adaptExcept f m t = .ok a t' ↔ _
  rw [EStateM.adaptExcept]
  simp only [EStateM.run]
  cases m t <;> simp

/-- A sequence of two refinements runs when both do. -/
theorem run_bind_eq_ok_iff {α β : Type} {m : Refinement α}
    {f : α → Refinement β} {b : β} :
    (m >>= f).run t = .ok b t' ↔ ∃ a s, m.run t = .ok a s
      ∧ (f a).run s = .ok b t' := by
  show EStateM.bind m f t = .ok b t' ↔ _
  rw [EStateM.bind]
  simp only [EStateM.run]
  cases m t with
  | ok a s =>
      constructor
      · intro h
        exact ⟨a, s, rfl, h⟩
      · rintro ⟨a', s', heq, h⟩
        obtain ⟨rfl, rfl⟩ := EStateM.Result.ok.inj heq
        exact h
  | error e s => simp

/-- A list of passes that succeeds has run each of them on what the ones before
    left. -/
theorem run_forM_cons_eq_ok_iff {pass : Pass} {rest : List Pass} :
    ((pass :: rest).forM (runPass language)).run t = .ok u t' ↔
      ∃ s, pass.apply.run t = .ok () s
        ∧ (rest.forM (runPass language)).run s = .ok u t' := by
  rw [List.forM_eq_forM, List.forM_cons, run_bind_eq_ok_iff]
  constructor
  · rintro ⟨a, s, hfirst, hrest⟩
    exact ⟨s, run_adaptExcept_eq_ok_iff.mp hfirst, hrest⟩
  · rintro ⟨s, hfirst, hrest⟩
    exact ⟨(), s, run_adaptExcept_eq_ok_iff.mpr hfirst, hrest⟩

/-- Two lists of passes that succeed one after the other. -/
theorem run_forM_append_eq_ok_iff {first rest : List Pass} :
    ((first ++ rest).forM (runPass language)).run t = .ok u t' ↔
      ∃ s, (first.forM (runPass language)).run t = .ok () s
        ∧ (rest.forM (runPass language)).run s = .ok u t' := by
  rw [List.forM_eq_forM, List.forM_append, run_bind_eq_ok_iff]
  constructor
  · rintro ⟨_, s, hfirst, hrest⟩
    exact ⟨s, hfirst, hrest⟩
  · rintro ⟨s, hfirst, hrest⟩
    exact ⟨(), s, hfirst, hrest⟩

/-- No passes change nothing. -/
theorem run_forM_nil_eq_ok_iff :
    (([] : List Pass).forM (runPass language)).run t = .ok u t' ↔ t' = t := by
  constructor
  · intro hrun
    obtain ⟨-, rfl⟩ := EStateM.Result.ok.inj hrun
    rfl
  · rintro rfl
    rfl

/-- A list of passes is a sequence of steps of the kinds that its passes take,
    by induction over the list. -/
theorem steps_of_forM {passes : List Pass} {K : StepKind → Prop}
    (hK : ∀ pass ∈ passes, ∀ k ∈ pass.stepKinds, K k) (h : Stable t)
    (hrun : (passes.forM (runPass language)).run t = .ok u t') {n : Nat}
    (hn : n ≤ t.size) : Steps K n t t' := by
  induction passes generalizing t with
  | nil =>
      obtain ⟨-, rfl⟩ := EStateM.Result.ok.inj hrun
      exact .refl
  | cons pass rest ih =>
      obtain ⟨s, hfirst, hrest⟩ := run_forM_cons_eq_ok_iff.mp hrun
      have hsteps := pass.steps_apply (hK pass List.mem_cons_self) h hn hfirst
      obtain ⟨hs, hc⟩ := h.steps hsteps
      exact hsteps.trans (ih (fun p hp => hK p (List.mem_cons_of_mem _ hp)) hs hrest
        (Nat.le_trans hn hc.size_le))

theorem stable_of_forM {passes : List Pass} (h : Stable t)
    (hrun : (passes.forM (runPass language)).run t = .ok u t') :
    Stable t' ∧ Carries t t' :=
  h.steps (steps_of_forM (K := fun _ => True) (fun _ _ _ _ => trivial) h hrun
    (Nat.le_refl _))

/-- A pipeline that succeeds has run its passes on a tree that is accepted. -/
theorem run_eq_ok_iff {p : Pipeline} :
    p.run.run t = .ok u t' ↔
      t.validateReferences = .ok ()
        ∧ (p.passes.forM (runPass p.language)).run t = .ok u t' := by
  rw [run, run_bind_eq_ok_iff]
  constructor
  · rintro ⟨a, s, hcheck, hrest⟩
    obtain ⟨hok, rfl⟩ :=
      Edit.run_inspect_eq_ok_iff.mp (run_adaptExcept_eq_ok_iff.mp hcheck)
    exact ⟨hok, hrest⟩
  · rintro ⟨hok, hrest⟩
    exact ⟨(), t, run_adaptExcept_eq_ok_iff.mpr
      (Edit.run_inspect_eq_ok_iff.mpr ⟨hok, rfl⟩), hrest⟩

/-- A pipeline that succeeds on a well-formed tree has taken a stable tree by
    steps of some kinds. -/
theorem steps_of_run {p : Pipeline} (hwf : WellFormed t)
    (hrun : p.run.run t = .ok u t') :
    Stable t ∧ Steps (fun _ => True) t.size t t' := by
  obtain ⟨hok, hpasses⟩ := run_eq_ok_iff.mp hrun
  have h : Stable t :=
    stable_iff.mpr ⟨hwf, hwf.toWellLinked.validateReferences_iff.mp hok⟩
  exact ⟨h, steps_of_forM (fun _ _ _ _ => trivial) h hpasses (Nat.le_refl _)⟩

/-- Passes never break a model: whatever the passes of a pipeline, their order
    and their parameters, if it succeeds on a well-formed tree, the tree it
    leaves is well formed and its references are bound. -/
theorem wellFormed_of_run {p : Pipeline} (hwf : WellFormed t)
    (hrun : p.run.run t = .ok u t') :
    WellFormed t' ∧ t'.validateReferences = .ok () := by
  obtain ⟨h, hsteps⟩ := steps_of_run hwf hrun
  obtain ⟨hwf', hbound⟩ := stable_iff.mp (h.steps hsteps).1
  exact ⟨hwf', hwf'.toWellLinked.validateReferences_iff.mpr hbound⟩

/-- Whether a run succeeds and leaves a tree of some property can be looked up. -/
theorem exists_eq_ok {r : EStateM.Result RefineError Tree Unit}
    {P : Tree → Prop} [DecidablePred P]
    (h : (match r with | .ok _ t' => decide (P t') | .error _ _ => false) = true) :
    ∃ t', r = .ok () t' ∧ P t' := by
  cases r with
  | ok u t' => exact ⟨t', rfl, of_decide_eq_true h⟩
  | error e t' => exact absurd h Bool.false_ne_true

/-- The tree of a class with a property and a class that inherits from it. -/
def inheritingPair : Tree :=
  Operation.runAll
    [.addNew .classes ⟨0⟩ (.classDecl "Base" .model),
      .addNew .properties ⟨1⟩ (.property "id" .custom (.external "string")),
      .addNew .classes ⟨0⟩
        (.inheriting (.classDecl "Derived" .model) (.declared "Base" ⟨1⟩))]
    initial

theorem wellFormed_inheritingPair : WellFormed inheritingPair :=
  (Operation.fullyNamed_runAll _ fullyNamed_initial).wellFormed

/-- Flattening gives the inheriting class a property of its own, in a tree that
    is well formed again. -/
theorem wellFormed_of_run_inheritingPair :
    ∃ t', (⟨.go, [.importReferenced true, .flattenInheritance]⟩ : Pipeline).run.run
      inheritingPair = .ok () t'
      ∧ t'.children ⟨3⟩ = [⟨4⟩] ∧ WellFormed t'
      ∧ t'.validateReferences = .ok () := by
  obtain ⟨t', hrun, hchildren⟩ :
      ∃ t', (⟨.go, [.importReferenced true, .flattenInheritance]⟩ :
        Pipeline).run.run inheritingPair = .ok () t'
        ∧ t'.children ⟨3⟩ = [⟨4⟩] := ⟨_, rfl, rfl⟩
  exact ⟨t', hrun, hchildren, wellFormed_of_run wellFormed_inheritingPair hrun⟩

end Pipeline

namespace Configuration

/-- A refinement that succeeds is a run of the pipeline of its configuration. -/
theorem run_of_refine {c : Configuration} {t t' : Tree} {u : Unit}
    (hrun : (refine c).run t = .ok u t') :
    (Pipeline.ofConfiguration c).run.run t = .ok u t' := by
  rw [refine] at hrun
  cases hv : c.validate with
  | ok _ =>
      rw [hv] at hrun
      exact hrun
  | error cause =>
      rw [hv] at hrun
      cases hrun

/-- Only for a valid configuration a refinement succeeds. -/
theorem validate_of_refine {c : Configuration} {t t' : Tree} {u : Unit}
    (hrun : (refine c).run t = .ok u t') : c.validate = .ok () := by
  rw [refine] at hrun
  cases hv : c.validate with
  | ok _ => rfl
  | error cause =>
      rw [hv] at hrun
      cases hrun

/-- Refining for a valid configuration is running its pipeline. -/
theorem run_refine_eq {c : Configuration} (hvalid : c.validate = .ok ())
    (t : Tree) :
    (refine c).run t = (Pipeline.ofConfiguration c).run.run t := by
  rw [refine, hvalid]

/-- A refinement that succeeds has run its first passes on a stable tree, and
    the rest on what they left. -/
theorem exists_runs_of_refine {c : Configuration} {t t' : Tree}
    {u : Unit} (hwf : WellFormed t) (hrun : (refine c).run t = .ok u t')
    {before rest : List Pass} (hpasses : c.passes = before ++ rest) :
    Stable t ∧ ∃ s, (before.forM (Pipeline.runPass c.language)).run t = .ok () s
      ∧ Stable s
      ∧ (rest.forM (Pipeline.runPass c.language)).run s = .ok u t' := by
  obtain ⟨h, -⟩ := Pipeline.steps_of_run hwf (run_of_refine hrun)
  obtain ⟨-, hall⟩ := Pipeline.run_eq_ok_iff.mp (run_of_refine hrun)
  have hsplit : (Pipeline.ofConfiguration c).passes = before ++ rest := hpasses
  rw [hsplit, Pipeline.run_forM_append_eq_ok_iff] at hall
  obtain ⟨s, hbefore, hrest⟩ := hall
  exact ⟨h, s, hbefore, (Pipeline.stable_of_forM h hbefore).1, hrest⟩

/-- A refinement that succeeds has run each of its passes on a stable tree, and
    the passes after it on what it left. -/
theorem exists_run_of_refine {c : Configuration} {t t' : Tree} {u : Unit}
    (hwf : WellFormed t) (hrun : (refine c).run t = .ok u t')
    {before after : List Pass} {pass : Pass}
    (hpasses : c.passes = before ++ pass :: after) :
    ∃ s m, Stable s ∧ pass.apply.run s = .ok () m ∧ Stable m
      ∧ (after.forM (Pipeline.runPass c.language)).run m = .ok u t' := by
  obtain ⟨-, s, -, hs, hrest⟩ := exists_runs_of_refine hwf hrun hpasses
  obtain ⟨m, hpass, hafter⟩ := Pipeline.run_forM_cons_eq_ok_iff.mp hrest
  exact ⟨s, m, hs, hpass, (pass.stable_apply hs hpass).1, hafter⟩

end Configuration

end CodeModel
