import Lockstep.Pipeline
import Lockstep.Proofs.Linear.Linearize
import Lockstep.Proofs.Loop.Normalize

/-!
# Only uniform branches are left

Linearizing makes the control flow of the region uniform: a block of the region that is still
reachable asks a uniform question, provided that no phi that was recorded as uniform had to be merged.
The proviso is needed: the branches to straighten are listed once, so that a branch on such a phi is
not looked at again when the merge that takes the place of the phi turns out to vary.
-/

namespace Lockstep

namespace Vectorizer

/-- Loops are normalized and masks are made before branches are straightened. -/
theorem triple_linearize_of {v : Vectorizer} {s : Stage} {K : Stage → Prop} (hs : s.func.Coherent)
    (h : TripleOk (Stage.Prepared { s with masks := {} } []) (Stage.linearize v.markers v.config)
      fun _ => K) : TripleOk (· = s) v.linearize fun _ => K := by
  let s₀ : Stage := { s with masks := {} }
  have hvalid : s₀.Valid := ⟨hs, fun b m hm => (by cases hm), fun p q m hm => (by cases hm)⟩
  unfold linearize
  refine TripleOk.bind (R := fun _ t => t = s₀) (TripleOk.modify ?_) fun _ => ?_
  · rintro t rfl
    rfl
  refine TripleOk.bind TripleOk.get fun t => ?_
  refine TripleOk.bind (R := fun _ => Stage.Prepared s₀ []) ?_ fun n => ?_
  · rintro u n u' ⟨rfl, rfl⟩ e
    exact Stage.triple_normalizeLoops hvalid s₀ n u' rfl e
  refine TripleOk.bind TripleOk.get fun t => ?_
  refine TripleOk.bind (R := fun _ => Stage.Prepared s₀ []) (TripleOk.lift ?_) fun _ =>
    TripleOk.bind h fun _ => TripleOk.pure fun u hu => hu
  exact (Stage.triple_expandMasks (.ofFunc t.func) 0).mono
    (fun u hu => ⟨hu.2, Nat.zero_le _⟩) fun _ u hu => hu.1

/-- After a linearization no reachable block of the region ends in a divergent branch, unless a phi
that was recorded as uniform is no longer in its block. -/
theorem isUniform_cond_of_linearize {v : Vectorizer} {s s' : Stage} {stats : PipelineStats}
    (hs : s.func.Coherent) (h : v.linearize s = (.ok stats, s'))
    (keep : ∀ p, s.func.isPhi p = true → s.info.isUniform (.inst p) = true →
      s.func.Attached p → s'.func.Attached p)
    {b x y : BlockId} {c : Value} (hb : s'.func.Reachable b) (hr : s'.info.inRegion b = true)
    (ht : s'.func.term b = .brIf c x y) : s'.info.isUniform c = true := by
  let s₀ : Stage := { s with masks := {} }
  have hrun : TripleOk (· = s) v.linearize fun _ t => ∃ R, Stage.Straight s₀ R t := by
    refine triple_linearize_of hs ?_
    intro u stats u' hu e
    exact Stage.triple_linearize hu.valid hu.later u stats u' rfl e
  obtain ⟨R, hR⟩ := hrun s stats s' rfl h
  refine hR.isUniform hb hr ht ?_
  rintro ⟨p, h1, h2, h3, h4⟩
  exact h4 (keep p h1 h2 h3)

/-! ## Two runs -/

/-- A vectorizer with the markers of an empty module. -/
def bare : Vectorizer := { markers := (Markers.declare default).1 }

/-- A uniform branch around a divergent one; the phi where the outer branch joins is recorded as
uniform, and kept. -/
def nestedBranches : Stage where
  func := {
    params := [.bool, .bool]
    retTy := .int 32
    blocks := #[
      { term := .brIf (.param 0) 1 5 },
      { term := .brIf (.param 1) 2 3 },
      { term := .br 4 },
      { term := .br 4 },
      { insts := [0], term := .br 5 },
      { insts := [1], term := .ret (some (.inst 1)) }]
    insts := #[
      { op := .phi [(2, .ofInt (.int 32) 1), (3, .ofInt (.int 32) 2)], ty := .int 32, block := 4 },
      { op := .phi [(0, .ofInt (.int 32) 0), (4, .inst 0)], ty := .int 32, block := 5 }]
    layout := [0, 1, 2, 3, 4, 5] }
  info := {
    width := 4
    shapes := (Table.empty.set (.param 0) .uni).set (.inst 1) .uni }

theorem isUniform_cond_nestedBranches :
    (bare.linearize nestedBranches).2.info.isUniform (.param 0) = true := by
  have hrun : bare.linearize nestedBranches = (.ok { linearizedRegions := 1, linearizedBlocks := 3 },
      (bare.linearize nestedBranches).2) := Prod.ext (by decide +kernel) rfl
  refine isUniform_cond_of_linearize (b := 0) (x := 1) (y := 5) (by decide +kernel) hrun
    (fun p hphi hu _ => ?_) (Func.reachable_entry _) (by decide +kernel) (by decide +kernel)
  have hp : p < 2 := Func.lt_of_isPhi _ hphi
  rcases Nat.le_one_iff_eq_zero_or_eq_one.mp (Nat.le_of_lt_succ hp) with rfl | rfl
  · exact absurd hu (by decide)
  · exact ⟨5, by decide +kernel⟩

/-- A uniform branch on a phi that is recorded as uniform, where a divergent branch joins. -/
def uniformJoin : Stage where
  func := {
    params := [.bool, .bool]
    retTy := .int 32
    blocks := #[
      { insts := [0], term := .brIf (.param 0) 1 2 },
      { term := .br 3 },
      { term := .br 3 },
      { insts := [1], term := .brIf (.inst 1) 4 5 },
      { term := .ret (some (.ofInt (.int 32) 1)) },
      { term := .ret (some (.ofInt (.int 32) 2)) }]
    insts := #[
      { op := .apply (.binary .or) [.param 1, .param 1], ty := .bool, block := 0 },
      { op := .phi [(1, .param 1), (2, .inst 0)], ty := .bool, block := 3 }]
    layout := [0, 1, 2, 3, 4, 5] }
  info := {
    width := 2
    shapes := ((Table.empty.set (.param 1) .uni).set (.inst 0) .uni).set (.inst 1) .uni }

/-- The proviso is needed: the phi is merged into a choice that varies, and the branch on it stays
as it is. -/
theorem not_isUniform_cond_uniformJoin :
    uniformJoin.func.Coherent ∧ (bare.linearize uniformJoin).1.isOk = true ∧
      (bare.linearize uniformJoin).2.func.Reachable 3 ∧
      (bare.linearize uniformJoin).2.info.inRegion 3 = true ∧
      (bare.linearize uniformJoin).2.func.term 3 = .brIf (.inst 7) 4 5 ∧
      (bare.linearize uniformJoin).2.info.isUniform (.inst 7) = false := by
  have hstep : ∀ b c, (bare.linearize uniformJoin).2.func.term b = .br c →
      (bare.linearize uniformJoin).2.func.Reachable b →
      (bare.linearize uniformJoin).2.func.Reachable c := by
    intro b c h hb
    exact hb.step (by rw [h]; exact List.mem_singleton_self c)
  have h1 := hstep 0 1 (by decide +kernel) (Func.reachable_entry _)
  have h2 := hstep 1 2 (by decide +kernel) h1
  have h3 := hstep 2 3 (by decide +kernel) h2
  exact ⟨by decide +kernel, by decide +kernel, h3, by decide +kernel, by decide +kernel,
    by decide +kernel⟩

end Vectorizer

end Lockstep
