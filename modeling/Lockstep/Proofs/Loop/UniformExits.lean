import Lockstep.Proofs.Cfg.LoopUnique
import Lockstep.Proofs.Func.Check
import Lockstep.Proofs.Loop.NormalizeStep

/-!
# No lane leaves a loop before the others

After loops have been normalized, the loops of the region are left by uniform branches
(`exists_uniform_exit_of_normalizeLoops`). A divergent loop gets an exit test that is uniform, and the
exit test of another loop stays what it is, except where it asks for a value of a divergent loop from
outside (`AsksInside`): the value is replaced by a tracker, which is not uniform.
-/

namespace Lockstep

namespace Stage

variable {s t : Stage} {markers : Markers} {n : Nat} {l' : Loop}

/-- Whether a block whose branch is recorded as uniform asks for a value of a divergent loop only from
inside that loop. -/
def AsksInside (s : Stage) (b : BlockId) : Prop :=
  ∀ i, (s.func.term b).cond? = some (.inst i) → s.info.isUniform (.inst i) = true →
    ∀ k ∈ (Analyses.ofFunc s.func).loops.loops, s.IsDivergentLoop k →
      (s.func.inst i).block ∈ k.blocks → b ∈ k.blocks

/-- A loop that is left by a varying branch is divergent, so that the branches out of any other loop of
the region are uniform. -/
theorem isUniform_cond_of_not_divergent {l : Loop} (hne : l.header ≠ s.info.entry s.func)
    (hr : s.info.inRegion l.header = true) (hl : ¬ s.IsDivergentLoop l) {x y a b : BlockId} {c : Value}
    (he : (x, y) ∈ l.exitEdges) (ht : s.func.term x = .brIf c a b) : s.info.isUniform c = true := by
  by_contra hc
  refine hl ⟨hne, hr, List.any_eq_true.mpr ⟨(x, y), he, ?_⟩⟩
  simp only [ht]
  exact (Bool.not_eq_true' _).mpr (Bool.eq_false_iff.mpr hc)

/-- Where the loops to normalize are known, every exit of a loop asks a uniform question afterwards. -/
theorem NormalizeRun.asksUniform_exit {loops : List (Loop × SingleExitLoop)} (hf : s.func.Coherent)
    (hloops : divergentLoops Loop.singleExit (.ofFunc s.func) s = .ok loops)
    (h : NormalizeRun (.ofFunc s.func) loops s t)
    (hasks : ∀ e ∈ loops, t.AsksUniform loops e.2.exiting) {l : Loop}
    (hl : l ∈ (Analyses.ofFunc s.func).loops.loops) (hne : l.header ≠ s.info.entry s.func)
    (hr : s.info.inRegion l.header = true) {x y : BlockId} (he : (x, y) ∈ l.exitEdges)
    (hx : s.AsksInside x) : t.AsksUniform loops x := by
  by_cases hd : s.IsDivergentLoop l
  · obtain ⟨e, hmem, rfl⟩ := exists_mem_divergentLoops hloops hl hd
    have hexit := (of_mem_divergentLoops hloops hmem).2.exitEdges
    rw [hexit] at he
    cases List.mem_singleton.mp he
    exact hasks e hmem
  · obtain ⟨c, a, b, hterm⟩ := LoopForest.exists_brIf_of_mem_exitEdges hf.toClosed hl he
    have huniform := isUniform_cond_of_not_divergent hne hr hd he hterm
    refine h.asksUniform ⟨c, a, b, hterm, huniform, ?_⟩
    rintro i rfl
    refine ⟨(s.func.inst i).block, ⟨hf.defines_cond hterm, rfl⟩, fun e hmem hin => ?_⟩
    obtain ⟨⟨hk, hdk⟩, -⟩ := of_mem_divergentLoops hloops hmem
    exact hx i (by rw [hterm]; rfl) huniform e.1 hk hdk hin

/-- If loops are normalized, every loop of the resulting function whose header lies in the region, and
is not its entry, is left by uniform branches only, provided that the cycles around are reducible and
that none of these branches asked for a value of a divergent loop from outside. -/
theorem exists_uniform_exit_of_normalizeLoops (hf : s.func.Coherent)
    (h : normalizeLoops markers Loop.singleExit (.ofFunc s.func) s = (.ok n, t))
    (hl' : l' ∈ (Analyses.ofFunc t.func).loops.loops) (hr : t.info.inRegion l'.header = true)
    (hne : l'.header ≠ t.info.entry t.func)
    (hred : ∀ l ∈ (Analyses.ofFunc s.func).loops.loops, l'.header ∈ l.blocks → l.reducible = true)
    {x y : BlockId} (he : (x, y) ∈ l'.exitEdges) (hx : s.AsksInside x) :
    ∃ c a b, t.func.term x = .brIf c a b ∧ t.info.isUniform c = true := by
  obtain ⟨loops, hloops, hrun, hasks⟩ := (tripleAll_normalizeLoops hf).ok s n t rfl h
  have hc' := hrun.closed hf.toClosed
  have hentry : t.info.entry t.func = s.info.entry s.func := by
    rw [VectorInfo.entry, hrun.region]
    rfl
  have hregion : t.info.inRegion l'.header = s.info.inRegion l'.header := by
    rw [VectorInfo.inRegion, hrun.region]
    rfl
  rw [hregion] at hr
  rw [hentry] at hne
  -- it suffices that the loop was there before
  suffices hsame : ∃ l ∈ (Analyses.ofFunc s.func).loops.loops, l.header = l'.header ∧
      ∀ b, b ∈ l.blocks ↔ b ∈ l'.blocks by
    obtain ⟨l, hl, hheader, hblocks⟩ := hsame
    obtain ⟨hin, hreach, htarget, hout⟩ := LoopForest.of_mem_exitEdges hc' hl' he
    have hreach' := hreach.closed (P := s.func.Reachable) s.func.reachable_entry
      fun u hu v hv => hu.step (hrun.mem_targets.mp hv)
    have he' := LoopForest.mem_exitEdges hf.toClosed hl hreach' ((hblocks x).mpr hin)
      (fun h => hout ((hblocks y).mp h)) (hrun.mem_targets.mp htarget)
    obtain ⟨c, a, b, hterm, huniform, -⟩ := hrun.asksUniform_exit hf hloops hasks hl
      (hheader ▸ hne) (hheader ▸ hr) he' hx
    exact ⟨c, a, b, hterm, huniform⟩
  rcases hsearch : LoopSearch.run (Cfg.ofFunc s.func) with e | found
  · -- no loop is found in a graph that the search gives up on, and nothing is normalized
    have hempty : (Analyses.ofFunc s.func).loops = {} := LoopForest.eq_empty_of_run hsearch _
    have hnone : ∀ l, l ∉ (Analyses.ofFunc s.func).loops.loops := by
      intro l hl
      rw [hempty] at hl
      exact absurd hl List.not_mem_nil
    obtain rfl : loops = [] := List.eq_nil_iff_forall_not_mem.mpr fun e hmem =>
      hnone e.1 (of_mem_divergentLoops hloops hmem).1.1
    obtain rfl := hrun.eq_of_nil
    exact absurd hl' (hnone l')
  · exact LoopForest.exists_same_loop (fun b c => hrun.mem_targets) hf.toClosed hc' hl' hred hsearch

/-- Two loops one after the other. Lanes leave the first at different times; the second is left when
`test` is false. -/
def loopTwice (test : Value) : Stage where
  func := {
    params := [.bool, .bool]
    retTy := .void
    blocks := #[
      { term := .br 1 },
      { insts := [0], term := .brIf (.param 0) 1 2 },
      { term := .br 3 },
      { term := .brIf test 3 4 },
      { term := .ret none }]
    insts := #[{ op := .apply (.binary .or) [.param 1, .param 1], ty := .bool, block := 1 }]
    layout := [0, 1, 2, 3, 4] }
  info := { width := 2, shapes := (Table.empty.set (.param 1) .uni).set (.inst 0) .uni }

/-- The two loops with the first normalized, for an empty module. -/
def loopTwiceNormalized (test : Value) : Except VectorizeError Nat × Stage :=
  normalizeLoops (Markers.declare default).1 Loop.singleExit (.ofFunc (loopTwice test).func)
    (loopTwice test)

theorem innerToOuter_loopTwice (test : Value) (h : test = .param 1 ∨ test = .inst 0) :
    (Analyses.ofFunc (loopTwice test).func).loops.innerToOuter = [0, 1] := by
  have hids : ∀ test ∈ [Value.param 1, .inst 0],
      (Analyses.ofFunc (loopTwice test).func).loops.ids = [0, 1] ∧
        (Analyses.ofFunc (loopTwice test).func).loops.ids.Pairwise fun a b =>
          decide (((Analyses.ofFunc (loopTwice test).func).loops.get b).depth ≤
            ((Analyses.ofFunc (loopTwice test).func).loops.get a).depth) = true := by decide +kernel
  obtain ⟨e, hsorted⟩ := hids test (List.mem_pair.mpr h)
  exact (List.mergeSort_of_pairwise hsorted).trans e

theorem checks_loopTwice :
    let t := (loopTwiceNormalized (.param 1)).2
    (loopTwiceNormalized (.param 1)).1 = .ok 1 ∧ (Analyses.ofFunc t.func).loops.loops.length = 2 ∧
      ∀ l ∈ (Analyses.ofFunc t.func).loops.loops, t.info.inRegion l.header = true ∧
        l.header ≠ t.info.entry t.func := by
  unfold loopTwiceNormalized normalizeLoops divergentLoops
  rw [innerToOuter_loopTwice _ (.inl rfl)]
  decide +kernel

theorem asksInside_loopTwice (b : BlockId) : (loopTwice (.param 1)).AsksInside b := by
  have hconds : ∀ b < (loopTwice (.param 1)).func.blocks.size,
      (((loopTwice (.param 1)).func.term b).cond?.bind Value.inst?) = none := by decide +kernel
  intro i hi
  by_cases hb : b < (loopTwice (.param 1)).func.blocks.size
  · have hnone := hconds b hb
    rw [hi] at hnone
    cases hnone
  · rw [Cfg.term_of_size_le (Nat.le_of_not_lt hb)] at hi
    cases hi

/-- Both loops are left by uniform branches if the second asks for a parameter. -/
theorem exists_uniform_exit_loopTwice :
    let t := (loopTwiceNormalized (.param 1)).2
    (Analyses.ofFunc t.func).loops.loops.length = 2 ∧
      ∀ l ∈ (Analyses.ofFunc t.func).loops.loops, ∀ e ∈ l.exitEdges,
        ∃ c a b, t.func.term e.1 = .brIf c a b ∧ t.info.isUniform c = true := by
  obtain ⟨hn, hlength, hheaders⟩ := checks_loopTwice
  have hred : ∀ l ∈ (Analyses.ofFunc (loopTwice (.param 1)).func).loops.loops,
      l.reducible = true := by decide +kernel
  refine ⟨hlength, fun l hl e he => ?_⟩
  exact exists_uniform_exit_of_normalizeLoops (s := loopTwice (.param 1)) (by decide +kernel)
    (Prod.ext hn rfl) hl (hheaders l hl).1 (hheaders l hl).2 (fun k hk _ => hred k hk) he
    (asksInside_loopTwice e.1)

/-- The proviso is needed: a branch of the second loop on a value of the first loop, which is recorded
as uniform, asks for the tracker of the value afterwards. -/
theorem not_isUniform_exit_loopTwice :
    (loopTwice (.inst 0)).func.WellFormed ∧ (loopTwiceNormalized (.inst 0)).1 = .ok 1 ∧
      let t := (loopTwiceNormalized (.inst 0)).2
      ∃ l ∈ (Analyses.ofFunc t.func).loops.loops, t.info.inRegion l.header = true ∧
        l.header ≠ t.info.entry t.func ∧ (3, 4) ∈ l.exitEdges ∧
        t.func.term 3 = .brIf (.inst 8) 3 4 ∧ t.info.isUniform (.inst 8) = false := by
  refine ⟨Func.Checks.wellFormed (by decide +kernel), ?_⟩
  unfold loopTwiceNormalized normalizeLoops divergentLoops
  rw [innerToOuter_loopTwice _ (.inr rfl)]
  decide +kernel

end Stage

end Lockstep
