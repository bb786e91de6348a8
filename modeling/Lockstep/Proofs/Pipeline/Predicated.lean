import Lockstep.Proofs.Eval.ActiveLanes
import Lockstep.Proofs.Func.Check
import Lockstep.Proofs.Linear.Guard
import Lockstep.Proofs.Pipeline.Run
import Lockstep.Proofs.Pipeline.Uniform

/-!
# Effects are predicated

After the pipeline a load, store or call in a block of the region acts only in lanes in which the
predicate of the block is true, unless it had a mask of its own: such a mask is kept, and what it
lets through the predicate does not stop.
-/

namespace Lockstep

namespace Vectorizer

variable {v : Vectorizer} {s : Stage}

/-! ## Linearization -/

/-- The effects of a function with the masks of `s` have been guarded, and nothing else has been
done. -/
def GuardedFrom (markers : Markers) (s u : Stage) : Prop :=
  ∃ t : Stage, t.func.Coherent ∧ s.func.KeepsMasks t.func ∧ t.info.region = s.info.region ∧
    Stage.Guarded markers t.func.layout t u

/-- Where nothing is made lane by lane, linearizing ends with guarding the effects. -/
theorem triple_linearize_guarded (hs : s.func.Coherent) (hcalls : v.config.cascadeCalls = false) :
    TripleOk (· = s) v.linearize fun _ => GuardedFrom v.markers s := by
  refine triple_linearize_of hs ?_
  unfold Stage.linearize
  refine TripleOk.bind TripleOk.get fun t => ?_
  refine TripleOk.bind (R := fun _ u => u.func.Coherent ∧ s.func.KeepsMasks u.func ∧
    u.info.region = s.info.region) ?_ fun n => ?_
  · rintro u n u' ⟨rfl, hu⟩ e
    have h := Stage.triple_linearizeBranches hu.valid hu.later t n u' rfl e
    exact ⟨h.valid.func, h.later.keepsMasks, h.region.trans hu.region⟩
  refine TripleOk.bind (R := fun _ => GuardedFrom v.markers s) (TripleOk.lift ?_) fun _ => ?_
  · rintro u _ u' ⟨hc, hk, hr⟩ e
    exact ⟨u, hc, hk, hr, Stage.triple_maskEffects_guarded hc u _ u' rfl e⟩
  rw [hcalls]
  refine TripleOk.bind (R := fun _ => GuardedFrom v.markers s) (TripleOk.pure fun u hu => hu)
    fun k => ?_
  refine TripleOk.bind (TripleOk.lift (Stage.triple_modifyFunc
    (Q := fun _ => GuardedFrom v.markers s) ?_)) fun _ => TripleOk.pure fun u hu => hu
  rintro u ⟨t, hc, hk, hr, hg⟩
  exact ⟨t, hc, hk, hr, hg.info, hg.blocks, hg.inst⟩

/-! ## The lanes that act -/

/-- After a pipeline that makes nothing lane by lane, a load, store or call in a block of the region
acts only in lanes in which the predicate of the block is true, if it had no mask. If it had one, it
still has, and acts only in lanes in which that is true; the mask is the one that it had, unless that
was computed by an instruction, whose value may have been replaced. -/
theorem actsWithin_of_runPipeline {j j' : Job} {stats : PipelineStats}
    (hf : j.stage.func.Coherent) (hflow : v.config.controlFlow = true)
    (hcalls : v.config.cascadeCalls = false) (hext : ∀ slot, v.external slot = none)
    (hred : v.config.reductionOpt = true → j.stage.info.region = none)
    (h : v.runPipeline j = (.ok stats, j')) {b : BlockId} {i : InstId} {p : Value}
    (hr : j'.stage.info.inRegion b = true) (hp : j'.stage.info.predicate? b = some p)
    (hi : i ∈ j'.stage.func.body b)
    (hd : Stage.needsMask v.markers (j'.stage.func.inst i) = true) (s : Setup) (m : Machine) :
    ((j.stage.func.inst i).mask = none →
      Run.ActsWithin s j'.stage.func i (m.IsTrueIn s.width p) m) ∧
    ∀ q, (j.stage.func.inst i).mask = some q →
      ∃ q', (j'.stage.func.inst i).mask = some q' ∧ (q.inst? = none → q' = q) ∧
        Run.ActsWithin s j'.stage.func i (m.IsTrueIn s.width q') m := by
  have heffect : (j'.stage.func.inst i).op.hasSideEffects = true := (Bool.and_eq_true_iff.mp hd).1
  -- a pipeline that succeeds has linearized, and has done nothing else
  rcases hlin : v.linearize j.stage with ⟨r, u⟩
  cases r with
  | error e =>
    rw [runPipeline_of_error hflow hlin] at h
    cases h
  | ok r =>
    obtain ⟨t, hc, hkeeps, hregion, hg⟩ := triple_linearize_guarded hf hcalls j.stage r u rfl hlin
    have hred' (hopt : v.config.reductionOpt = true) : u.info.region = none := by
      rw [hg.info, hregion]
      exact hred hopt
    rw [runPipeline_of_ok hflow hext hred' hlin] at h
    obtain rfl : u = j'.stage := by
      cases h
      rfl
    rw [hg.info] at hr hp
    rw [hg.body] at hi
    have hblock : b ∈ t.func.layout := (hc.layout b).mpr (t.func.lt_of_mem_body hi)
    have hinst := hg.inst b i hi
    rw [if_pos hblock] at hinst
    refine ⟨fun hnone => ?_, fun q hq => ?_⟩
    · have hmask : (t.func.inst i).mask = none := by
        rw [← Option.isNone_iff_eq_none, ← Option.not_isSome, (hkeeps i).isSome, hnone]
        rfl
      rw [hinst, Stage.needsMask_guardedIn] at hd
      rcases Stage.mask_guardedIn_of_none hr hp hd hmask with htrue | hmask
      · exact Run.actsWithin_of_bool? heffect htrue m
      · exact Run.actsWithin_of_mask heffect (hinst ▸ hmask) m
    · have hsome : (t.func.inst i).mask.isSome = true := by
        rw [(hkeeps i).isSome, hq]
        rfl
      rw [Stage.guardedIn_of_isSome hsome] at hinst
      obtain ⟨q', hq'⟩ := Option.isSome_iff_exists.mp hsome
      refine ⟨q', hinst ▸ hq', fun hconst => ?_, Run.actsWithin_of_mask heffect (hinst ▸ hq') m⟩
      exact Option.some.inj (hq'.symm.trans ((hkeeps i).fixed q hq hconst))

/-! ## Two runs -/

/-- A divergent branch around a store, which may have a mask. -/
def storeUnder (mask : Option Value) : Job where
  stage.func := {
    params := [.bool, .bool, .ptr (.int 32)]
    retTy := .void
    blocks := #[
      { term := .brIf (.param 0) 1 2 },
      { insts := [0], term := .br 2 },
      { term := .ret none }]
    insts := #[{ op := .apply .store [.param 2, .ofInt (.int 32) 7], ty := .void, mask, block := 1 }]
    layout := [0, 1, 2] }
  stage.info := { width := 2 }

/-- Two lanes, of which only the second takes the branch to the store. -/
def twoLanes : Machine where
  params := [[.bool false, .bool true], [.bool true, .bool true], [.int 0, .int 1]]
  values := #[[.undefined, .undefined]]
  memory := #[.int 3, .int 4]

/-- A store without a mask acts only in the lanes that take the branch to it. -/
theorem actsWithin_storeUnder_none :
    Run.ActsWithin { width := 2, limit := 10 } (bare.runPipeline (storeUnder none)).2.stage.func 0
      (twoLanes.IsTrueIn 2 (.param 0)) twoLanes := by
  have hrun : (bare.runPipeline (storeUnder none)).1 =
      .ok { linearizedRegions := 1, linearizedBlocks := 2 } := by decide +kernel
  exact (actsWithin_of_runPipeline (b := 1) (by decide +kernel) rfl rfl
    (fun _ => rfl) (fun _ => rfl) (Prod.fst_eq_iff.mp hrun) (by decide +kernel) (by decide +kernel)
    (by decide +kernel) (by decide +kernel) { width := 2, limit := 10 } twoLanes).1 rfl

/-- A store with a mask keeps it, and acts in a lane in which the predicate of its block is false. -/
theorem not_actsWithin_storeUnder_some :
    (storeUnder (some (.param 1))).stage.func.Checks ∧
      (bare.runPipeline (storeUnder (some (.param 1)))).1.isOk = true ∧
      (bare.runPipeline (storeUnder (some (.param 1)))).2.stage.info.predicate? 1 =
        some (.param 0) ∧
      0 ∈ (bare.runPipeline (storeUnder (some (.param 1)))).2.stage.func.body 1 ∧
      ¬ Run.ActsWithin { width := 2, limit := 10 }
        (bare.runPipeline (storeUnder (some (.param 1)))).2.stage.func 0
        (twoLanes.IsTrueIn 2 (.param 0)) twoLanes := by
  refine ⟨by decide +kernel, by decide +kernel, by decide +kernel, by decide +kernel, fun h => ?_⟩
  let after := Run.instr { width := 2, limit := 10 }
    (bare.runPipeline (storeUnder (some (.param 1)))).2.stage.func 0 twoLanes
  have hok : after.1 = .ok () := by decide +kernel
  have hwritten : after.2.memory[0]? ≠ twoLanes.memory[0]? := by decide +kernel
  have hinputs : ((bare.runPipeline (storeUnder (some (.param 1)))).2.stage.func.inst 0).inputs =
      [.param 2, .ofInt (.int 32) 7] := by decide +kernel
  obtain ⟨address, ⟨l, hl, htrue, haddress⟩, hzero⟩ :=
    (h.ok after.2 (Prod.fst_eq_iff.mp hok)).1.memory 0 hwritten
  rw [hinputs] at haddress
  have hl : l < 2 := hl
  obtain rfl | rfl : l = 0 ∨ l = 1 := by omega
  · exact Bool.false_ne_true htrue
  · have haddress : Scalar.int 1 = .int address := haddress
    cases haddress
    exact absurd hzero (by decide)

end Vectorizer

end Lockstep
