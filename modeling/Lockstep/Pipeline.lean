import Lockstep.Linear.Linearize
import Lockstep.Loop.Normalize
import Lockstep.Reduction.Fold

/-!
# The pipeline

`Vectorizer.linearize` makes the control flow of the region uniform: divergent loops are
normalized, masks are made, divergent branches are straightened. `Vectorizer.vectorize` runs the
remaining stages, those from outside at their slots. `Vectorizer.runPipeline` runs both, and
gives back what it was given if one of them fails.
-/

namespace Lockstep

/-- Where a stage from outside runs. -/
inductive StageSlot where
  | structOpt | srov | irPolish
  deriving DecidableEq, Repr, Inhabited

/-- What a pipeline did. -/
structure PipelineStats where
  normalizedLoops : Nat := 0
  linearizedRegions : Nat := 0
  linearizedBlocks : Nat := 0
  scalarizedCalls : Nat := 0
  optimizedReductions : Nat := 0
  deriving DecidableEq, Repr, Inhabited

/-- A vectorizer with its settings. -/
structure Vectorizer where
  config : Config := {}
  markers : Markers
  /-- The stages from outside. -/
  external : StageSlot → Option (StageM Unit) := fun _ => none

/-- What a pipeline works on, and the stages from outside that it ran. -/
structure Job where
  stage : Stage
  ran : List StageSlot := []
  deriving Inhabited

/-- A part of a pipeline, which may fail. -/
abbrev JobM := ExceptT VectorizeError (StateM Job)

/-- Runs a stage as a part of a pipeline. -/
def JobM.ofStage {α : Type} (m : StageM α) : JobM α :=
  fun j =>
    let (r, stage) := m j.stage
    (r, { j with stage })

namespace Vectorizer

/-- Makes the control flow of the region uniform. -/
def linearize (v : Vectorizer) : StageM PipelineStats := do
  modify fun s => { s with masks := {} }
  let normalizedLoops ←
    Stage.normalizeLoops v.markers Loop.singleExit (.ofFunc (← get).func)
  Stage.expandMasks (.ofFunc (← get).func)
  let stats ← Stage.linearize v.markers v.config
  return {
    normalizedLoops
    linearizedRegions := stats.regions
    linearizedBlocks := stats.blocks
    scalarizedCalls := stats.scalarizedCalls }

/-- Folds the reductions of the region once. -/
def foldReductions : StageM Nat := do
  let f := (← get).func
  Stage.foldReductions (Reduction.findAll f (Analyses.ofFunc f).loops)

/-- Runs the stage from outside at a slot, if it is enabled and there is one. -/
def runExternal (v : Vectorizer) (slot : StageSlot) (enabled : Bool) : JobM Unit :=
  match enabled, v.external slot with
  | true, some stage => do
    modify fun j => { j with ran := j.ran ++ [slot] }
    JobM.ofStage stage
  | _, _ => return

/-- Runs the stages after linearization. -/
def vectorize (v : Vectorizer) : JobM PipelineStats := do
  v.runExternal .structOpt v.config.structOpt
  v.runExternal .srov v.config.srov
  let optimizedReductions ←
    if v.config.reductionOpt then JobM.ofStage foldReductions else pure 0
  v.runExternal .irPolish v.config.irPolish
  return { optimizedReductions }

/-- Runs all stages, without undoing anything on failure. -/
def tryPipeline (v : Vectorizer) : JobM PipelineStats := do
  let stats ← if v.config.controlFlow then JobM.ofStage v.linearize else pure {}
  let rest ← v.vectorize
  return { stats with optimizedReductions := rest.optimizedReductions }

/-- Runs all stages. On failure function and knowledge are as they were. -/
def runPipeline (v : Vectorizer) : JobM PipelineStats :=
  fun j =>
    match v.tryPipeline j with
    | (.ok stats, j) => (.ok stats, j)
    | (.error e, failed) => (.error e, { failed with stage := j.stage })

end Vectorizer

end Lockstep
