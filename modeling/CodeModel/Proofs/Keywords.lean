import CodeModel.Proofs.PipelineSteps
import Mathlib.Data.String.Basic

/-!
# Keywords

The keywords of every language are listed in lower case and in ascending order,
so the set of its reserved names holds them as they are listed, and what a
refinement does with the set it does with the list.

Main statements: `reservedNames_eq`, and `exists_run_eq_ok` and
`exists_refine_eq_ok`, by which the outcome of a run is looked up without
sorting the keywords.
-/

namespace CodeModel

namespace Language

/-- Keywords are in lower case. -/
theorem lowercase_keyword (l : Language) :
    ∀ keyword ∈ l.keywords, Text.lowercase keyword = keyword := by
  cases l <;> decide +kernel

/-- Keywords stand in ascending order, so no two of them are the same. -/
theorem isChain_keywords (l : Language) : l.keywords.IsChain (· < ·) := by
  cases l <;> decide +kernel

theorem ascending_keywords (l : Language) : Ascending (l.keywords.map (·, ())) :=
  List.pairwise_map.mpr (List.isChain_iff_pairwise.mp l.isChain_keywords)

/-- The keywords as they are listed. -/
def listedNames (l : Language) : ReservedNames :=
  ⟨⟨l.keywords.map (·, ()), l.ascending_keywords⟩⟩

/-- The reserved names of a language are its keywords as they are listed. -/
theorem reservedNames_eq (l : Language) : l.reservedNames = l.listedNames := by
  have hlower : l.keywords.map Text.lowercase = l.keywords :=
    (List.map_congr_left l.lowercase_keyword).trans (List.map_id' _)
  rw [reservedNames, ReservedNames.ofList, hlower, ReservedNames.ofStored,
    listedNames]
  exact congrArg ReservedNames.mk
    (NameMap.ext (NameMap.entries_ofList l.ascending_keywords))

end Language

/-- The pass with given names in place of those that it escapes. -/
def Pass.withReserved (reserved : ReservedNames) : Pass → Pass
  | .escapeReservedNames _ style => .escapeReservedNames reserved style
  | pass => pass

namespace Configuration

/-- The pipeline of a configuration with the keywords as they are listed. -/
def listedPipeline (c : Configuration) : Pipeline :=
  ⟨c.language, c.passes.map (Pass.withReserved
    (c.language.listedNames.withAdditional c.additionalReservedNames))⟩

/-- No pipeline escapes other names than those that are reserved. -/
theorem map_withReserved_passes (c : Configuration) :
    c.passes.map (Pass.withReserved c.reservedNames) = c.passes := by
  have hflattening : c.flattening.map (Pass.withReserved c.reservedNames)
      = c.flattening := by
    rw [flattening]
    split <;> rfl
  have hasync : c.asyncSuffix.map (Pass.withReserved c.reservedNames)
      = c.asyncSuffix := by
    rw [asyncSuffix]
    split <;> rfl
  rw [passes]
  split <;> simp [csharpPasses, javaPasses, typescriptPasses, goPasses, hflattening,
    hasync, Pass.withReserved]

/-- Keywords stand in order already, so the pipeline that enters them one by one
    is the one that lists them. -/
theorem ofConfiguration_eq (c : Configuration) :
    Pipeline.ofConfiguration c = c.listedPipeline := by
  rw [Pipeline.ofConfiguration, listedPipeline, ← Language.reservedNames_eq,
    ← reservedNames, map_withReserved_passes]

/-- Whether the pipeline of a configuration succeeds and leaves a tree of some
    property can be looked up in the run of the keywords as they are listed. -/
theorem exists_run_eq_ok {c : Configuration} {t : Tree} {P : Tree → Prop}
    [DecidablePred P]
    (h : (match c.listedPipeline.run.run t with
      | .ok _ t' => decide (P t')
      | .error _ _ => false) = true) :
    ∃ t', (Pipeline.ofConfiguration c).run.run t = .ok () t' ∧ P t' := by
  rw [ofConfiguration_eq]
  exact Pipeline.exists_eq_ok h

/-- So can whether a refinement does. -/
theorem exists_refine_eq_ok {c : Configuration} {t : Tree} {P : Tree → Prop}
    [DecidablePred P] (hvalid : c.validate = .ok ())
    (h : (match c.listedPipeline.run.run t with
      | .ok _ t' => decide (P t')
      | .error _ _ => false) = true) :
    ∃ t', (refine c).run t = .ok () t' ∧ P t' := by
  rw [run_refine_eq hvalid]
  exact exists_run_eq_ok h

end Configuration

end CodeModel
