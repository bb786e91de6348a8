import Lockstep.Proofs.Func.Check
import Lockstep.Proofs.Linear.NoDefect
import Lockstep.Proofs.Loop.NormalizeStep
import Lockstep.Proofs.Pipeline.Run
import Lockstep.Proofs.Pipeline.Uniform

/-!
# A pipeline reports no defect

Without a region, a pipeline on a well-formed function succeeds, or it gives a reason that lies in the
function: it never finds one of its own invariants broken (`runPipeline_ne_bug`). Masks are made for
the edges between reachable blocks, so that a phi of a reachable block must not have an entry for an
unreachable predecessor: its mask is asked for when the phi is merged, and there is none
(`runPipeline_joinedFromNowhere_eq_bug`).
-/

namespace Lockstep

namespace Func

/-- What counts of the edges of a graph is where branches lead. -/
theorem EntersAlong.congr {f g k : Func} {b : BlockId} (hf : f.Closed) (hg : g.Closed)
    (ht : ∀ b c, c ∈ (g.term b).targets ↔ c ∈ (f.term b).targets)
    (h : k.EntersAlong (.ofFunc f) b) : k.EntersAlong (.ofFunc g) b := by
  intro i hi e he
  obtain ⟨hr, hb⟩ := (Cfg.mem_preds hf).mp (h i hi e he)
  refine (Cfg.mem_preds hg).mpr ⟨?_, (ht _ _).mpr hb⟩
  exact hr.closed (P := g.Reachable) g.reachable_entry fun u hu v hv => hu.step ((ht _ _).mpr hv)

/-- In a well-formed function a phi has entries for edges of the graph if their sources are
reachable. -/
theorem WellFormed.entersAlong {f : Func} (hf : f.WellFormed) {b : BlockId} (hb : f.Reachable b)
    (hr : ∀ phi ∈ f.phis b, ∀ e ∈ (f.inst phi).incoming, f.Reachable e.1) :
    f.EntersAlong (.ofFunc f) b := by
  intro i hi e he
  rw [← f.phis_append_nonPhis b] at hi
  rcases List.mem_append.mp hi with hphi | hop
  · have hpred := (hf.entries b hb i hphi).pred e.1 (List.mem_map_of_mem he)
    exact (Cfg.mem_preds hf.toClosed).mpr ⟨hr i hphi e he, hpred⟩
  · have hnone := sources_of_isPhi_eq_false (hf.phis_first b i hop)
    have hmem : e.1 ∈ f.sources i := List.mem_map_of_mem he
    rw [hnone] at hmem
    cases hmem

end Func

namespace Stage

variable {s t : Stage}

/-! ## Before straightening -/

/-- A stage without a region, whose reachable phis have entries for edges of the graph. -/
structure Orderly (t : Stage) : Prop where
  valid : t.Valid
  once : t.func.ListsOnce
  entries : ∀ b, t.func.Reachable b → t.func.EntersAlong (.ofFunc t.func) b
  region : t.info.region = none

theorem Orderly.congr (h : Orderly s) (hv : t.Valid) (ho : t.func.ListsOnce)
    (ht : ∀ b c, c ∈ (t.func.term b).targets ↔ c ∈ (s.func.term b).targets)
    (he : ∀ b, s.func.EntersAlong (.ofFunc s.func) b → t.func.EntersAlong (.ofFunc s.func) b)
    (hr : t.info.region = s.info.region) : Orderly t where
  valid := hv
  once := ho
  entries b hb := by
    have hb' : s.func.Reachable b := hb.closed s.func.reachable_entry fun u hu v hv =>
      hu.step ((ht u v).mp hv)
    exact (he b (h.entries b hb')).congr h.valid.func.toClosed hv.func.toClosed ht
  region := hr.trans h.region

/-- Normalizing loops fails only on a loop that is rejected. -/
theorem tripleAll_normalizeLoops_orderly {markers : Markers} (hs : Orderly s) :
    TripleAll (· = s) (normalizeLoops markers Loop.singleExit (.ofFunc s.func))
      (fun _ => Orderly) fun e _ => e.Expected := by
  have hprepared : TripleOk (· = s) (normalizeLoops markers Loop.singleExit (.ofFunc s.func))
      fun _ => Prepared s [] := triple_normalizeLoops hs.valid
  refine (((tripleAll_normalizeLoops hs.valid.func).and hprepared).mono (fun u hu => ⟨hu, hu⟩) ?_).mono_error ?_
  · rintro n t ⟨⟨loops, -, hrun, -⟩, hprepared⟩
    exact hs.congr hprepared.valid (hrun.listsOnce hs.once) (fun b c => hrun.mem_targets)
      (fun b hb => hrun.entersAlong hs.once.placed hb) hrun.region
  · rintro e t ⟨header, reason, rfl⟩ r hr
    cases hr

/-- Making all masks makes those that straightening asks for. -/
theorem triple_expandMasks_informed (hs : Orderly s) :
    Triple (· = s) (expandMasks (.ofFunc s.func))
      fun _ t => t.Valid ∧ Informed t.func.Reachable [] t ∧ t.info.region = none := by
  rintro u a t rfl e
  have hc := hs.valid.func.toClosed
  have hprepared := (triple_expandMasks (.ofFunc u.func) 0 u a t
    ⟨.refl hs.valid, Nat.zero_le _⟩ e).1
  obtain ⟨hsteps, hmasks⟩ := takesMaskSteps_expandMasks (n := 0) u u a t (.refl (Nat.zero_le _)) e
  -- seen as steps of normalizing a loop, whatever loop it is
  have hnormal : NormalizeSteps (.ofFunc u.func) default 0 u t := hsteps.normalize
  have ht : Orderly t := hs.congr hprepared.valid (hnormal.listsOnce hs.once)
    (fun b c => by rw [hnormal.targets]) (fun b hb => hnormal.entersAlong hs.once.placed hb)
    hprepared.region
  have hc' := ht.valid.func.toClosed
  have hreach : ∀ b, t.func.Reachable b → b ∈ (Cfg.ofFunc u.func).rpo := fun b hb =>
    (Cfg.mem_rpo hc).mpr (hb.closed u.func.reachable_entry fun b hb c hc =>
      hb.step (hnormal.targets b ▸ hc))
  have hregion : ∀ b, t.info.inRegion b = true := fun b => by
    rw [VectorInfo.inRegion, ht.region]
    rfl
  refine ⟨ht.valid, ⟨ht.once, fun b hb => (hmasks b (hreach b hb) (hregion b)).1,
    fun b hb i hi p hp => .inl ?_⟩, ht.region⟩
  obtain ⟨e, he, rfl⟩ := List.mem_map.mp hp
  obtain ⟨hr, hb'⟩ := (Cfg.mem_preds hc').mp (ht.entries b hb i hi e he)
  refine (hmasks e.1 (hreach e.1 hr) (hregion e.1)).2 b ?_
  rw [Cfg.mem_succs hc, ← Cfg.mem_rpo hc, ← hnormal.targets]
  exact ⟨hreach e.1 hr, hb'⟩

end Stage

namespace Vectorizer

variable {v : Vectorizer} {s : Stage}

/-! ## Linearizing -/

theorem tripleAll_linearize_expected (hf : s.func.Coherent) (ho : s.func.ListsOnce)
    (he : ∀ b, s.func.Reachable b → s.func.EntersAlong (.ofFunc s.func) b)
    (hr : s.info.region = none) :
    TripleAll (· = s) v.linearize (fun _ t => t.info.region = none) fun e _ => e.Expected := by
  let s₀ : Stage := { s with masks := {} }
  have hs₀ : s₀.Orderly :=
    ⟨⟨hf, fun b m hm => (by cases hm), fun p q m hm => (by cases hm)⟩, ho, he, hr⟩
  unfold linearize
  refine TripleAll.bind (R := fun _ t => t = s₀) (TripleAll.modify ?_) fun _ => ?_
  · rintro t rfl
    rfl
  refine TripleAll.bind TripleAll.get fun t => ?_
  refine TripleAll.bind (R := fun _ => Stage.Orderly) (TripleAll.of_eq ?_) fun n => ?_
  · rintro u ⟨rfl, rfl⟩
    exact Stage.tripleAll_normalizeLoops_orderly hs₀
  refine TripleAll.bind TripleAll.get fun t => ?_
  refine TripleAll.bind (R := fun _ t => t.Valid ∧ Stage.Informed t.func.Reachable [] t ∧
    t.info.region = none) (TripleAll.lift ?_) fun _ => ?_
  · rintro u a u' ⟨rfl, hu⟩ e
    exact Stage.triple_expandMasks_informed hu t a u' rfl e
  refine TripleAll.bind (R := fun _ t => t.info.region = none) (TripleAll.of_eq ?_) fun stats =>
    TripleAll.pure fun u hu => hu
  rintro u ⟨hv, hi, hr⟩
  exact Stage.tripleAll_linearize hv hi hr

/-! ## The whole pipeline -/

/-- A stage from outside that makes no region and reports no defect. -/
def IsSound (stage : StageM Unit) : Prop :=
  TripleAll (fun s => s.info.region = none) stage (fun _ s => s.info.region = none) fun e _ =>
    e.Expected

theorem tripleAll_ofStage {α : Type} {P : Stage → Prop} {m : StageM α} {Q : α → Stage → Prop}
    {E : VectorizeError → Stage → Prop} (h : TripleAll P m Q E) :
    TripleAll (fun j => P j.stage) (JobM.ofStage m) (fun a j => Q a j.stage)
      fun e j => E e j.stage where
  ok j a j' hj e := by
    unfold JobM.ofStage at e
    rcases hm : m j.stage with ⟨r, t⟩
    rw [hm] at e
    cases e
    exact h.ok j.stage a t hj hm
  error j x j' hj e := by
    unfold JobM.ofStage at e
    rcases hm : m j.stage with ⟨r, t⟩
    rw [hm] at e
    cases e
    exact h.error j.stage x t hj hm

/-- Whether a job has no region. -/
def IsWhole (j : Job) : Prop := j.stage.info.region = none

theorem tripleAll_runExternal (hext : ∀ slot stage, v.external slot = some stage → IsSound stage)
    (slot : StageSlot) (enabled : Bool) :
    TripleAll IsWhole (v.runExternal slot enabled) (fun _ => IsWhole) fun e _ => e.Expected := by
  unfold runExternal
  split
  · rename_i stage hstage
    refine TripleAll.bind (R := fun _ => IsWhole) (TripleAll.modify fun j hj => hj) fun _ => ?_
    exact tripleAll_ofStage (hext slot stage hstage)
  · exact TripleAll.pure fun j hj => hj

theorem tripleAll_vectorize (hext : ∀ slot stage, v.external slot = some stage → IsSound stage) :
    TripleAll IsWhole v.vectorize (fun _ => IsWhole) fun e _ => e.Expected := by
  unfold vectorize
  refine TripleAll.bind (tripleAll_runExternal hext _ _) fun _ => ?_
  refine TripleAll.bind (tripleAll_runExternal hext _ _) fun _ => ?_
  have hfold : TripleAll IsWhole (JobM.ofStage foldReductions) (fun _ => IsWhole)
      fun e _ => e.Expected := by
    refine tripleAll_ofStage (P := fun s => s.info.region = none)
      (Q := fun _ s => s.info.region = none) (E := fun e _ => e.Expected) ⟨?_, ?_⟩
    · intro s a s' hs e
      rw [foldReductions_of_region_eq_none hs] at e
      cases e
      exact hs
    · intro s x s' hs e
      rw [foldReductions_of_region_eq_none hs] at e
      cases e
  have hend : ∀ n : Nat, TripleAll IsWhole (do
      v.runExternal .irPolish v.config.irPolish
      return { optimizedReductions := n } : JobM PipelineStats) (fun _ => IsWhole)
      fun e _ => e.Expected := fun n =>
    TripleAll.bind (tripleAll_runExternal hext _ _) fun _ => TripleAll.pure fun j hj => hj
  split
  · exact TripleAll.bind hfold hend
  · exact TripleAll.bind (TripleAll.pure fun j hj => hj) hend

/-- On a well-formed function without a region, the phis of whose reachable blocks have entries for
reachable predecessors only, a pipeline does not report that an invariant of its own is broken. -/
theorem runPipeline_ne_bug {j : Job}
    (hext : ∀ slot stage, v.external slot = some stage → IsSound stage)
    (hf : j.stage.func.WellFormed) (hlayout : j.stage.func.layout.Nodup)
    (hr : j.stage.info.region = none)
    (hentries : ∀ b, j.stage.func.Reachable b → ∀ phi ∈ j.stage.func.phis b,
      ∀ e ∈ (j.stage.func.inst phi).incoming, j.stage.func.Reachable e.1)
    (reason : BrokenInvariant) : (v.runPipeline j).1 ≠ .error (.bug reason) := by
  have hc := hf.toCoherent
  have hlin : TripleAll (· = j) (JobM.ofStage v.linearize) (fun _ => IsWhole) fun e _ =>
      e.Expected := by
    refine (tripleAll_ofStage (tripleAll_linearize_expected hc ⟨hlayout, hc.placed_body, hf.nodup⟩
      (fun b hb => hf.entersAlong hb (hentries b hb)) hr)).mono ?_ fun _ _ h => h
    rintro _ rfl
    rfl
  have htry : TripleAll (· = j) v.tryPipeline (fun _ => IsWhole) fun e _ => e.Expected := by
    unfold tryPipeline
    have hend : ∀ stats : PipelineStats, TripleAll IsWhole (do
        let rest ← v.vectorize
        return { stats with optimizedReductions := rest.optimizedReductions } : JobM PipelineStats)
        (fun _ => IsWhole) fun e _ => e.Expected := fun stats =>
      TripleAll.bind (tripleAll_vectorize hext) fun _ => TripleAll.pure fun j hj => hj
    split
    · exact TripleAll.bind hlin hend
    · refine TripleAll.bind (TripleAll.pure ?_) hend
      rintro _ rfl
      exact hr
  intro hbug
  unfold runPipeline at hbug
  rcases h : v.tryPipeline j with ⟨r, j'⟩
  rw [h] at hbug
  cases r with
  | ok stats => cases hbug
  | error e =>
    cases hbug
    exact htry.error j _ j' rfl h reason rfl

/-! ## Two runs -/

/-- A divergent branch around a block, and a block that is not reachable. If `joins` is true, it leads
to the block in the branch as well, and the phi there has an entry for it. -/
def joinedFromNowhere (joins : Bool) : Job where
  stage.func := {
    params := [.bool, .int 32]
    retTy := .int 32
    blocks := #[
      { term := .brIf (.param 0) 1 2 },
      { insts := [0], term := .br 3 },
      { term := .br 3 },
      { insts := [1], term := .ret (some (.inst 1)) },
      { term := if joins then .br 1 else .unreachable }]
    insts := #[
      { op := .phi ((0, .param 1) :: if joins then [(4, .ofInt (.int 32) 0)] else []), ty := .int 32,
        block := 1 },
      { op := .phi [(1, .inst 0), (2, .ofInt (.int 32) 0)], ty := .int 32, block := 3 }]
    layout := [0, 1, 2, 3, 4] }
  stage.info := { width := 2 }

/-- Where the unreachable block leads nowhere, the phi is merged. -/
theorem runPipeline_joinedFromNowhere_ne_bug :
    (bare.runPipeline (joinedFromNowhere false)).1 =
        .ok { linearizedRegions := 1, linearizedBlocks := 3 } ∧
      ∀ reason, (bare.runPipeline (joinedFromNowhere false)).1 ≠ .error (.bug reason) := by
  let f := (joinedFromNowhere false).stage.func
  have hf : f.Checks := by decide +kernel
  have h0 : f.Reachable 0 := f.reachable_entry
  have h1 : f.Reachable 1 := h0.step (by decide +kernel)
  have h2 : f.Reachable 2 := h0.step (by decide +kernel)
  have hsources : ∀ b < 5, ∀ phi ∈ f.phis b, ∀ e ∈ (f.inst phi).incoming, e.1 ∈ [0, 1, 2] := by
    decide +kernel
  refine ⟨by decide +kernel, runPipeline_ne_bug (fun slot stage h => by cases h) hf.wellFormed
    (by decide) rfl fun b hb phi hphi e he => ?_⟩
  have hmem := hsources b (hb.lt hf.coherent.toClosed) phi hphi e he
  rcases List.mem_cons.mp hmem with h | hmem
  · exact h ▸ h0
  rcases List.mem_pair.mp hmem with h | h
  · exact h ▸ h1
  · exact h ▸ h2

/-- Where it leads to the block in the branch, the mask of the edge from there is asked for, although
it has not been made. The phis have one entry for each predecessor. -/
theorem runPipeline_joinedFromNowhere_eq_bug :
    (joinedFromNowhere true).stage.func.WellFormed ∧
      (joinedFromNowhere true).stage.func.layout.Nodup ∧
      (joinedFromNowhere true).stage.info.region = none ∧
      (∀ b < 5, ∀ phi ∈ (joinedFromNowhere true).stage.func.phis b, ∀ p < 5,
        b ∈ ((joinedFromNowhere true).stage.func.term p).targets ↔
          p ∈ ((joinedFromNowhere true).stage.func.inst phi).incoming.map Prod.fst) ∧
      (bare.runPipeline (joinedFromNowhere true)).1 = .error (.bug (.edgeMaskMissing 4 1)) :=
  ⟨Func.Checks.wellFormed (by decide +kernel), by decide, rfl, by decide +kernel,
    by decide +kernel⟩

end Vectorizer

end Lockstep
