import CodeModel.Refine.Targets
import CodeModel.Tree.Bindings

/-!
# Pipelines

A pipeline is the ordered passes of one target. It runs only on a tree whose
references are bound, and the first pass that fails ends it. Refining for
several targets gives each its own copy of the tree.
-/

namespace CodeModel

/-- The passes of one target, in order. -/
structure Pipeline where
  language : Language
  passes : List Pass
deriving DecidableEq

/-- Why a refinement failed: a pass was refused, the configuration is wrong, or
    the tree is not fit to be refined. -/
inductive RefineError where
  | passFailed (language : Language) (pass : String) (cause : ModelError)
  | config (cause : ConfigError)
  | model (cause : ModelError)
deriving DecidableEq, Repr

namespace RefineError

/-- The refusal of the model behind a failure. -/
def cause? : RefineError → Option ModelError
  | passFailed _ _ cause => some cause
  | config _ => none
  | model cause => some cause

/-- The message of a failure; a configuration that cannot be read has none. -/
def message? : RefineError → Option String
  | passFailed language pass cause =>
      some s!"{language.name} refiner pass `{pass}` failed: {cause.message}"
  | config cause => cause.message?
  | model cause => some s!"Core error: {cause.message}"

end RefineError

/-- A change to a tree by a refinement. -/
abbrev Refinement := EStateM RefineError Tree

namespace Pipeline

/-- The pipeline of a configuration. -/
def ofConfiguration (c : Configuration) : Pipeline :=
  ⟨c.language, c.passes⟩

/-- The names of the passes. -/
def passNames (p : Pipeline) : List String :=
  p.passes.map (·.name)

/-- Runs one pass for a target. -/
def runPass (language : Language) (pass : Pass) : Refinement Unit :=
  pass.apply.adaptExcept (.passFailed language pass.name)

/-- Runs the passes one after another on a tree whose references are bound. -/
def run (p : Pipeline) : Refinement Unit := do
  (Edit.inspect Tree.validateReferences).adaptExcept .model
  p.passes.forM (runPass p.language)

end Pipeline

/-- Refines a tree for the target of a configuration, which must be valid. -/
def refine (c : Configuration) : Refinement Unit := do
  match c.validate with
  | .error cause => throw (.config cause)
  | .ok () => (Pipeline.ofConfiguration c).run

/-- What became of a tree for one target: the refined tree, or why there is
    none. -/
structure TargetOutput where
  language : Language
  result : Except RefineError Tree

/-- Refines copies of a tree for several targets. -/
def refineTargets (source : Tree) (configurations : List Configuration) :
    List TargetOutput :=
  configurations.map fun c =>
    match (refine c).run source with
    | .ok () t => ⟨c.language, .ok t⟩
    | .error e _ => ⟨c.language, .error e⟩

end CodeModel
