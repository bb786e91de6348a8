import Lockstep.Proofs.Pipeline.Acyclic

/-!
# What a pipeline returns

What the pipeline makes of a function without cycles and without effects returns in each lane what the
function returns there on its own (`exists_ret_of_acyclic`). With loops it need not
(`run_loopsInTurn`): behind a loop, a lane that has not entered the loop has no mask.
-/

namespace Lockstep

open Run

/-- What a lane returns is known of the value that it returns. -/
theorem Doings.knows_returned {ι : Type} {s : Setup} {f : Func} {start n : ι → Machine}
    {ret : ι → Option Lanes} {tr : ι → List BlockId} (h : ∀ l, Ended s f (start l) (n l) (ret l) (tr l))
    (l : ι) : ∃ z v, z ∈ tr l ∧ f.term z = .ret v ∧ ret l = v.map ((n l).value s.width) ∧
      ∀ x ∈ v, (ofRuns f tr n).known.Knows l x (((n l).value 1 x).lane 0) := by
  obtain ⟨z, v, hz, hv, hret⟩ := (h l).trail.exists_last
  have hmem := List.mem_of_getLast? hz
  refine ⟨z, v, hmem, hv, hret, fun x hx => ?_⟩
  refine knows_of_availableAt h hmem (fun j hj => hj)
    ((h l).wellFormed.exit z ((h l).reachable hmem) x ?_)
  rw [hv, Option.mem_def.mp hx]
  exact List.mem_singleton_self x

namespace Vectorizer

variable {v : Vectorizer} {j j' : Job} {stats : PipelineStats}

/-- What the pipeline makes of a function without cycles and without effects returns in each lane what the
function returns there. -/
theorem exists_ret_of_acyclic {W : Nat} (hconfig : v.config = {}) (hext : ∀ slot, v.external slot = none)
    (hW : 1 ≤ W) (hW' : W ≤ Lanes.maxCount) (hinfo : j.stage.info = { width := W })
    (hf : j.stage.func.WellFormed) (hacyclic : j.stage.func.Acyclic) (htyped : j.stage.func.WellTyped)
    (hpure : ∀ b, ∀ i ∈ j.stage.func.body b,
      (j.stage.func.inst i).mask = none ∧ (j.stage.func.inst i).op.hasSideEffects = false)
    (htargets : ∀ b, (j.stage.func.term b).targets.Nodup)
    (hexits : ∀ b, ∀ x ∈ (j.stage.func.term b).uses, x.IsTyped)
    (h : v.runPipeline j = (.ok stats, j')) {s s₁ : Setup} (hw : s.width = W)
    (hlimit : j.stage.func.blocks.size ≤ s.limit) (hw₁ : s₁.width = 1) {args : List Lanes}
    (hlen : ∀ xs ∈ args, xs.length = W) (hargs : ArgsTyped j.stage.func args) {memory : Array Scalar}
    {ret : Fin W → Option Lanes} {m : Fin W → Machine}
    (hrun : ∀ l : Fin W, j.stage.func.run s₁ (args.map fun xs => [xs.lane l]) memory =
      (.ok (ret l), m l)) :
    ∃ ret' m', j'.stage.func.run s args memory = (.ok ret', m') ∧
      ∀ l : Fin W, ret'.map (·.lane l) = (ret l).map (·.lane 0) := by
  have : Nonempty (Fin W) := ⟨⟨0, hW⟩⟩
  have hplain : j.stage.func.Plain :=
    ⟨fun b i hi => (hpure b i hi).1, fun b i hi callee args hop => by
      have := (hpure b i hi).2
      rw [hop] at this
      cases this⟩
  have hends := ended_of_run hf hacyclic htyped hplain hw₁ hargs hrun fun l =>
    outsideTyped_of_pure fun b _ i hi => (hpure b i (Func.mem_body_of_mem_nonPhis hi)).2
  have hapart : Run.Apart s₁ j.stage.func fun l : Fin W => laneStart s₁ j.stage.func args memory l := by
    rintro l l' k - ⟨i, xs, n, a, hop, ⟨-, b, -, -, before, after, -, -, esplit, -⟩, -⟩
    have hi : i ∈ j.stage.func.nonPhis b := by rw [esplit]; simp
    have := (hpure b i (Func.mem_body_of_mem_nonPhis hi)).2
    rw [hop] at this
    cases this
  obtain ⟨P, K, t, x, m', hlowered, e, hm', -, hx⟩ := exists_lowered_run hconfig hext hW hW' hinfo
    htargets hexits h hw hlimit hlen (length_args hW hrun) hends
    (Doings.separate_ofRuns hends (fun _ => rfl) hapart)
  refine ⟨_, m', e, fun l => ?_⟩
  obtain ⟨z', hz', hv'⟩ := hx l
  obtain ⟨z, y, hz, hy, hret, hknown⟩ := Doings.knows_returned hends l
  rw [hret, hw₁]
  cases hlowered.returned hm' hz hy hz' hv' with
  | none => rfl
  | some hk => exact congrArg some (hk _ (hknown _ rfl))

/-- A choice within a choice, with all ways joined by one phi. -/
def chooseTwice : Job where
  stage.func := {
    params := [.bool, .bool, .int 32]
    retTy := .int 32
    blocks := #[
      { term := .brIf (.param 0) 1 4 },
      { insts := [0], term := .brIf (.param 1) 2 3 },
      { insts := [1], term := .br 4 },
      { term := .br 4 },
      { insts := [2], term := .ret (some (.inst 2)) }]
    insts := #[
      { op := .apply (.binary .add) [.param 2, .ofInt (.int 32) 1], ty := .int 32, block := 1 },
      { op := .apply (.binary .mul) [.inst 0, .inst 0], ty := .int 32, block := 2 },
      { op := .phi [(0, .ofInt (.int 32) 0), (2, .inst 1), (3, .inst 0)], ty := .int 32, block := 4 }]
    layout := [0, 1, 2, 3, 4] }
  stage.info := { width := 3 }

/-- Arguments for three lanes, of which each goes another way. -/
def threeWays : List Lanes :=
  [[.bool false, .bool true, .bool true], [.bool false, .bool true, .bool false],
    [.int 5, .int 6, .int 7]]

theorem exists_ret_chooseTwice : ∃ ret m',
    (bare.runPipeline chooseTwice).2.stage.func.run { width := 3, limit := 5 } threeWays #[] =
      (.ok ret, m') ∧
    ∀ l : Fin 3, ret.map (·.lane l) = some (Lanes.lane [.int 0, .int 49, .int 8] l) := by
  let f := chooseTwice.stage.func
  let s₁ : Setup := { width := 1, limit := 5 }
  let m (l : Fin 3) := (f.run s₁ (threeWays.map fun xs => [xs.lane l]) #[]).2
  have hchecks : f.Checks := by decide +kernel
  have hpure : ∀ i, (f.inst i).mask = none ∧ (f.inst i).op.hasSideEffects = false :=
    forall_inst (P := fun d => d.mask = none ∧ d.op.hasSideEffects = false) (by decide) (by decide)
  have hexits : ∀ b, ∀ x ∈ (f.term b).uses, x.IsTyped :=
    forall_term (P := fun t => ∀ x ∈ t.uses, x.IsTyped) (by decide) (by decide)
  have hpipe : (bare.runPipeline chooseTwice).1 =
      .ok { linearizedRegions := 2, linearizedBlocks := 7 } := by
    decide +kernel
  have hrun : ∀ l : Fin 3, (f.run s₁ (threeWays.map fun xs => [xs.lane l]) #[]).1 =
      .ok (some [Lanes.lane [.int 0, .int 49, .int 8] l]) := by
    decide +kernel
  obtain ⟨ret, m', e, hret⟩ := exists_ret_of_acyclic (m := m) rfl (fun _ => rfl) (by decide) (by decide)
    rfl hchecks.wellFormed (Func.acyclic_of_lt (by decide)) hchecks.wellTyped (fun _ i _ => hpure i)
    hchecks.nodup_targets hexits (Prod.fst_eq_iff.mp hpipe) (s := { width := 3, limit := 5 }) rfl (by decide)
    (show s₁.width = 1 from rfl) (by decide) (argsTyped_of_forall₂ (by decide +kernel))
    fun l => Prod.fst_eq_iff.mp (hrun l)
  exact ⟨ret, m', e, hret⟩

/-! ## Loops -/

/-- Two loops that are run one after the other where a condition is true. -/
def loopsInTurn : Job where
  stage.func := {
    params := [.bool, .int 32, .int 32]
    retTy := .int 32
    blocks := #[
      { term := .brIf (.param 0) 1 7 },
      { term := .br 2 },
      { insts := [0, 1, 2], term := .brIf (.inst 2) 2 3 },
      { term := .br 4 },
      { insts := [3, 4, 5], term := .brIf (.inst 5) 4 5 },
      { term := .br 6 },
      { insts := [6], term := .ret (some (.inst 6)) },
      { term := .br 6 }]
    insts := #[
      { op := .phi [(1, .ofInt (.int 32) 0), (2, .inst 1)], ty := .int 32, block := 2 },
      { op := .apply (.binary .add) [.inst 0, .ofInt (.int 32) 1], ty := .int 32, block := 2 },
      { op := .apply (.cmp .slt) [.inst 1, .param 1], ty := .bool, block := 2 },
      { op := .phi [(3, .ofInt (.int 32) 0), (4, .inst 4)], ty := .int 32, block := 4 },
      { op := .apply (.binary .add) [.inst 3, .ofInt (.int 32) 1], ty := .int 32, block := 4 },
      { op := .apply (.cmp .slt) [.inst 4, .param 2], ty := .bool, block := 4 },
      { op := .phi [(5, .inst 4), (7, .ofInt (.int 32) 99)], ty := .int 32, block := 6 }]
    layout := [0, 1, 2, 3, 4, 5, 6, 7] }
  stage.info := { width := 2 }

/-- Arguments for two lanes, of which only the first comes to the loops. -/
def oneAround : List Lanes := [[.bool true, .bool false], [.int 2, .int 3], [.int 3, .int 1]]

theorem innerToOuter_loopsInTurn :
    (Analyses.ofFunc loopsInTurn.stage.func).loops.innerToOuter = [0, 1] := by
  have hids : (Analyses.ofFunc loopsInTurn.stage.func).loops.ids = [0, 1] ∧
      (Analyses.ofFunc loopsInTurn.stage.func).loops.ids.Pairwise fun a b =>
        decide (((Analyses.ofFunc loopsInTurn.stage.func).loops.get b).depth ≤
          ((Analyses.ofFunc loopsInTurn.stage.func).loops.get a).depth) = true := by decide +kernel
  exact (List.mergeSort_of_pairwise hids.2).trans hids.1

theorem normalizeLoops_loopsInTurn : (Stage.normalizeLoops bare.markers Loop.singleExit
    (.ofFunc loopsInTurn.stage.func) loopsInTurn.stage).1 = .ok 2 := by
  unfold Stage.normalizeLoops Stage.divergentLoops
  rw [innerToOuter_loopsInTurn]
  decide +kernel

/-- The second loop is entered under the mask that the first one is left with. In the lane that comes to
neither that mask is undefined, and so is what is returned there. -/
theorem run_loopsInTurn :
    loopsInTurn.stage.func.WellFormed ∧ loopsInTurn.stage.func.WellTyped ∧
      loopsInTurn.stage.info = { width := 2 } ∧
      (∀ l < 2, (loopsInTurn.stage.func.run { width := 1, limit := 20 }
        (oneAround.map fun xs => [xs.lane l]) #[]).1 = .ok (some [Lanes.lane [.int 3, .int 99] l])) ∧
      (bare.runPipeline loopsInTurn).1.isOk = true ∧
      ((bare.runPipeline loopsInTurn).2.stage.func.run
        { width := 2, limit := 20, marker? := bare.markers.kindOf? } oneAround #[]).1 =
          .ok (some [.int 3, .undefined]) := by
  have hf : loopsInTurn.stage.func.Checks := by decide +kernel
  have hlin := linearize_of_normalizeLoops (v := bare) (s := loopsInTurn.stage)
    (Prod.fst_eq_iff.mp normalizeLoops_loopsInTurn)
  unfold Stage.normalizeLoops Stage.divergentLoops at hlin
  rw [innerToOuter_loopsInTurn] at hlin
  have hok : (bare.linearize loopsInTurn.stage).1 = .ok {
      normalizedLoops := 2, linearizedRegions := 1, linearizedBlocks := 7 } := by
    rw [hlin]
    decide +kernel
  have hregion : (bare.linearize loopsInTurn.stage).2.info.region = none := by
    rw [hlin]
    decide +kernel
  have hpipe := runPipeline_of_ok rfl (fun _ => rfl) (fun _ => hregion) (Prod.fst_eq_iff.mp hok)
  refine ⟨hf.wellFormed, hf.wellTyped, rfl, by decide +kernel, by rw [hpipe]; rfl, ?_⟩
  rw [hpipe, hlin]
  decide +kernel

end Vectorizer

end Lockstep
