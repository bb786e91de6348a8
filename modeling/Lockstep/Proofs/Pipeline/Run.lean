import Lockstep.Pipeline
import Lockstep.Proofs.Eval.Simulation

/-!
# Pipelines without stages from outside

Where there are no stages from outside and no reduction is folded, all that a pipeline does is done
by linearizing (`runPipeline_of_ok`, `runPipeline_of_error`).
-/

namespace Lockstep

namespace Vectorizer

variable {v : Vectorizer} {j : Job}

theorem runExternal_of_none {slot : StageSlot} (h : v.external slot = none) (enabled : Bool) :
    v.runExternal slot enabled j = (.ok (), j) := by
  unfold runExternal
  rw [h]
  cases enabled <;> rfl

/-- Without a region there is no reduction to fold. -/
theorem foldReductions_of_region_eq_none {s : Stage} (h : s.info.region = none) :
    foldReductions s = (.ok 0, s) := by
  have hfold : ∀ rs, Stage.foldReductions rs s = (.ok 0, s) := by
    intro rs
    unfold Stage.foldReductions
    refine (bind_run_eq (a := s) rfl).trans ?_
    rw [if_pos (by rw [h]; rfl)]
    rfl
  have hget : ∀ rs : Stage → List Reduction,
      (MonadState.get >>= fun s => Stage.foldReductions (rs s) : StageM Nat) s = (.ok 0, s) :=
    fun rs => (bind_run_eq (x := (MonadState.get : StageM Stage))
      (k := fun s => Stage.foldReductions (rs s)) (a := s)
      (rfl : (MonadState.get : StageM Stage) s = (.ok s, s))).trans (hfold (rs s))
  unfold foldReductions
  exact hget fun s => Reduction.findAll s.func (Analyses.ofFunc s.func).loops

/-- Nothing is done after linearizing. -/
theorem vectorize_of_none (hext : ∀ slot, v.external slot = none)
    (hred : v.config.reductionOpt = true → j.stage.info.region = none) :
    v.vectorize j = (.ok {}, j) := by
  unfold vectorize
  refine (bind_run_eq (runExternal_of_none (hext _) _)).trans ?_
  refine (bind_run_eq (runExternal_of_none (hext _) _)).trans ?_
  have hend : (do
      v.runExternal .irPolish v.config.irPolish
      return {} : JobM PipelineStats) j = (.ok {}, j) :=
    bind_run_eq (runExternal_of_none (hext _) _)
  by_cases h : v.config.reductionOpt = true
  · rw [if_pos h]
    have hfold : JobM.ofStage foldReductions j = (.ok 0, j) := by
      unfold JobM.ofStage
      rw [foldReductions_of_region_eq_none (hred h)]
    exact (bind_run_eq hfold).trans hend
  · rw [if_neg h]
    exact (bind_run_eq (a := 0) rfl).trans hend

variable {s : Stage} {r : PipelineStats} {e : VectorizeError}

/-- Once the loops are normalized, masks are made and branches are made straight. -/
theorem linearize_of_normalizeLoops {n : Nat} {t : Stage} (h : Stage.normalizeLoops v.markers
    Loop.singleExit (.ofFunc s.func) { s with masks := {} } = (.ok n, t)) : v.linearize s = (do
      Stage.expandMasks (.ofFunc (← get).func)
      let stats ← Stage.linearize v.markers v.config
      return {
        normalizedLoops := n
        linearizedRegions := stats.regions
        linearizedBlocks := stats.blocks
        scalarizedCalls := stats.scalarizedCalls } : StageM PipelineStats) t := by
  have hset : (modify fun s => { s with masks := {} } : StageM Unit) s =
      (.ok (), { s with masks := {} }) := rfl
  have hget : (get : StageM Stage) { s with masks := {} } =
      (.ok { s with masks := {} }, { s with masks := {} }) := rfl
  unfold linearize
  exact (bind_run_eq hset).trans ((bind_run_eq hget).trans (bind_run_eq h))

/-- A pipeline succeeds with what linearizing has made. -/
theorem runPipeline_of_ok (hflow : v.config.controlFlow = true)
    (hext : ∀ slot, v.external slot = none)
    (hred : v.config.reductionOpt = true → s.info.region = none)
    (h : v.linearize j.stage = (.ok r, s)) :
    v.runPipeline j = (.ok { r with optimizedReductions := 0 }, { j with stage := s }) := by
  have hlin : JobM.ofStage v.linearize j = (.ok r, { j with stage := s }) := by
    unfold JobM.ofStage
    rw [h]
  have htry : v.tryPipeline j = (.ok { r with optimizedReductions := 0 }, { j with stage := s }) := by
    unfold tryPipeline
    rw [if_pos hflow]
    refine (bind_run_eq hlin).trans ?_
    exact bind_run_eq (vectorize_of_none hext hred)
  unfold runPipeline
  rw [htry]

/-- A pipeline fails as linearizing does. -/
theorem runPipeline_of_error (hflow : v.config.controlFlow = true)
    (h : v.linearize j.stage = (.error e, s)) : v.runPipeline j = (.error e, j) := by
  have hlin : JobM.ofStage v.linearize j = (.error e, { j with stage := s }) := by
    unfold JobM.ofStage
    rw [h]
  have htry : v.tryPipeline j = (.error e, { j with stage := s }) := by
    unfold tryPipeline
    rw [if_pos hflow]
    exact bind_run_eq_error hlin
  unfold runPipeline
  rw [htry]

end Vectorizer

end Lockstep
