import Lockstep.Loop.Remainder
import Lockstep.Pipeline
import Lockstep.Proofs.Triple
import Mathlib.Data.List.Basic
import Mathlib.Data.Prod.Basic

/-!
# Failures change nothing

A transformation finds out whether it can be done before it changes anything, so that one that fails,
or that says that there was nothing to do, leaves function, knowledge and masks as they were
(`Stage.ChecksFirst`). A pipeline may fail when some of its stages are through, and gives back what it
was given.
-/

namespace Lockstep

namespace Stage

variable {α : Type} {m : StageM α} {changes : α → Prop} {s t : Stage}

/-- A run that fails leaves the stage as it was, and so does a run whose result does not say that
something was changed. -/
def ChecksFirst (m : StageM α) (changes : α → Prop) : Prop :=
  ∀ s, TripleAll (· = s) m (fun a t => changes a ∨ t = s) fun _ t => t = s

theorem ChecksFirst.eq_of_error (h : ChecksFirst m changes) {e : VectorizeError}
    (hm : m s = (.error e, t)) : t = s := (h s).error s e t rfl hm

theorem ChecksFirst.eq_of_ok (h : ChecksFirst m changes) {a : α} (hm : m s = (.ok a, t))
    (ha : ¬ changes a) : t = s := ((h s).ok s a t rfl hm).resolve_left ha

/-- A change to a stage does not fail. -/
theorem tripleAll_change {P : Stage → Prop} {E : VectorizeError → Stage → Prop} {m : StateM Stage α} :
    TripleAll P (liftM m : StageM α) (fun _ _ => True) E :=
  TripleAll.lift fun _ _ _ _ _ => trivial

/-- All loops are accepted before the first of them gets its masks. -/
theorem checksFirst_normalizeLoops (markers : Markers) (check : LoopCheck) (a : Analyses) :
    ChecksFirst (normalizeLoops markers check a) fun _ => True := by
  unfold normalizeLoops
  refine fun s => TripleAll.get_bind ?_
  rintro s rfl
  split
  · exact TripleAll.throw fun _ h => h
  · rename_i loops _
    refine TripleAll.bind (R := fun _ _ => True) ?_ fun masks => ?_
    · refine (TripleAll.mapM (J := fun _ _ _ => True) loops (fun x rest done _ => ?_) []).mono
        (fun _ _ => trivial) fun _ _ h => h
      exact TripleAll.bind tripleAll_change fun _ => TripleAll.pure fun _ _ => trivial
    · refine TripleAll.bind (R := fun _ _ => True) ?_ fun _ => TripleAll.pure fun _ _ => .inl trivial
      refine TripleAll.forIn (J := fun _ _ => True) masks fun x rest _ => ?_
      exact TripleAll.bind tripleAll_change fun _ => TripleAll.pure fun _ _ => ⟨rfl, trivial⟩

/-- The neutral element and the chain are found before the chain is restarted. -/
theorem checksFirst_foldReduction (r : Reduction) : ChecksFirst (foldReduction r) (· = true) := by
  unfold foldReduction
  refine fun s => TripleAll.get_bind ?_
  rintro s rfl
  split
  · exact TripleAll.pure fun _ h => .inr h
  · split
    · exact TripleAll.pure fun _ h => .inr h
    · split
      · exact TripleAll.throw fun _ h => h
      · exact TripleAll.bind tripleAll_change fun _ => TripleAll.pure fun _ _ => .inl rfl

/-- The call, its mask and its place are found before the first block of the cascade is made. -/
theorem checksFirst_scalarizeCall (markers : Markers) (call : InstId) :
    ChecksFirst (scalarizeCall markers call) (· = true) := by
  unfold scalarizeCall
  refine fun s => TripleAll.get_bind ?_
  rintro s rfl
  dsimp only
  split
  · split
    · split
      · exact TripleAll.pure fun _ h => .inr h
      · split
        · refine TripleAll.bind (TripleAll.set (Q := fun _ _ => True) fun _ _ => trivial) fun _ => ?_
          refine TripleAll.bind tripleAll_change fun made => ?_
          exact TripleAll.bind tripleAll_change fun _ => TripleAll.pure fun _ _ => .inl rfl
        · exact TripleAll.throw fun _ h => h
    · exact TripleAll.pure fun _ h => .inr h
  · exact TripleAll.throw fun _ h => h

end Stage

/-- A loop that cannot be split is found out before its preheader computes anything. -/
theorem Loop.eq_of_splitOff_eq_none {a : Analyses} {l : Loop} {width tripAlignment : Nat}
    {s t : Loop.Splitting} (h : l.splitOff a width tripAlignment s = (none, t)) : t = s := by
  rw [Loop.splitOff_eq] at h
  cases hsplit : l.split? s.func a s.uniform width tripAlignment with
  | none =>
    rw [hsplit] at h
    cases h
    rfl
  | some r =>
    rw [hsplit] at h
    cases h

/-- A pipeline undoes what its stages did before one of them failed. -/
theorem Vectorizer.stage_eq_of_runPipeline_eq_error {v : Vectorizer} {j j' : Job} {e : VectorizeError}
    (h : v.runPipeline j = (.error e, j')) : j'.stage = j.stage := by
  unfold Vectorizer.runPipeline at h
  split at h
  · cases h
  · cases h
    rfl

/-- Failures change nothing: a rejected loop is not normalized and none of the others is, a loop that
cannot be split keeps its preheader, a reduction that is not folded keeps its chain, a call that is
not made lane by lane stays where it is, and a pipeline that fails gives back what it was given. -/
theorem unchanged_of_failure :
    (∀ markers check a s e t, Stage.normalizeLoops markers check a s = (.error e, t) → t = s) ∧
    (∀ a (l : Loop) width tripAlignment s t,
      l.splitOff a width tripAlignment s = (none, t) → t = s) ∧
    (∀ r s res t, Stage.foldReduction r s = (res, t) → res ≠ .ok true → t = s) ∧
    (∀ markers call s res t, Stage.scalarizeCall markers call s = (res, t) → res ≠ .ok true → t = s) ∧
    ∀ (v : Vectorizer) j e j', v.runPipeline j = (.error e, j') → j'.stage = j.stage := by
  have key : ∀ {m : StageM Bool} (_ : Stage.ChecksFirst m (· = true)) {s : Stage} {res t},
      m s = (res, t) → res ≠ .ok true → t = s := by
    intro m h s res t hm hres
    cases res with
    | error e => exact h.eq_of_error hm
    | ok done => exact h.eq_of_ok hm fun e => hres (congrArg Except.ok e)
  exact ⟨fun markers check a s e t h => (Stage.checksFirst_normalizeLoops markers check a).eq_of_error h,
    fun _ _ _ _ _ _ => Loop.eq_of_splitOff_eq_none,
    fun r s res t => key (Stage.checksFirst_foldReduction r),
    fun markers call s res t => key (Stage.checksFirst_scalarizeCall markers call),
    fun _ _ _ _ => Vectorizer.stage_eq_of_runPipeline_eq_error⟩

/-! ## Five failures -/

/-- Two loops that lanes leave at different times, the second without a preheader of its own. Its phi is
given no value in the loop, and the result of its call is used. -/
def secondRejected : Stage where
  func := {
    params := [.bool, .bool]
    retTy := .void
    blocks := #[
      { term := .br 1 },
      { term := .brIf (.param 0) 1 2 },
      { term := .brIf (.param 1) 3 4 },
      { insts := [0, 1, 2], term := .brIf (.param 0) 3 4 },
      { term := .ret none }]
    insts := #[
      { op := .phi [(2, .ofInt (.int 32) 0), (3, .ofInt (.int 32) 1)], ty := .int 32, block := 3 },
      { op := .apply (.call 0) [], ty := .int 32, mask := some (.param 0), block := 3 },
      { op := .apply (.binary .add) [.inst 1, .inst 1], ty := .int 32, block := 3 }]
    layout := [0, 1, 2, 3, 4] }
  info := { width := 2 }

/-- A vectorizer with a stage from outside that cuts the function off and gives up. -/
def givesUp : Vectorizer where
  config := { controlFlow := false }
  markers := (Markers.declare default).1
  external _ := some do
    Stage.modifyFunc (·.setTerm 0 .unreachable)
    throw (.unsupportedBranch 0 .neverJoins)

/-- The chain of the phi, if it had one. -/
def chainless : Reduction := { kind := .add, phi := 0, latchValue := .ofInt (.int 32) 1, elements := [0] }

theorem normalizeLoops_secondRejected :
    (Stage.normalizeLoops givesUp.markers Loop.singleExit (.ofFunc secondRejected.func)
      secondRejected).1 = .error (.unsupportedLoop 3 .noPreheader) := by
  have hids : (Analyses.ofFunc secondRejected.func).loops.ids = [0, 1] ∧
      (Analyses.ofFunc secondRejected.func).loops.ids.Pairwise fun a b =>
        decide (((Analyses.ofFunc secondRejected.func).loops.get b).depth ≤
          ((Analyses.ofFunc secondRejected.func).loops.get a).depth) = true := by decide +kernel
  have horder : (Analyses.ofFunc secondRejected.func).loops.innerToOuter = [0, 1] :=
    (List.mergeSort_of_pairwise hids.2).trans hids.1
  unfold Stage.normalizeLoops Stage.divergentLoops
  rw [horder]
  decide +kernel

/-- The first loop is not normalized because of the second one. -/
theorem unchanged_of_failure_secondRejected :
    Stage.normalizeLoops givesUp.markers Loop.singleExit (.ofFunc secondRejected.func) secondRejected =
        (.error (.unsupportedLoop 3 .noPreheader), secondRejected) ∧
      ((Analyses.ofFunc secondRejected.func).loops.get 1).splitOff (.ofFunc secondRejected.func) 2 1
          { func := secondRejected.func, uniform := [] } =
        (none, { func := secondRejected.func, uniform := [] }) ∧
      Stage.foldReduction chainless secondRejected =
        (.error (.bug (.noLatchValue 0)), secondRejected) ∧
      Stage.scalarizeCall givesUp.markers 1 secondRejected = (.ok false, secondRejected) ∧
      (givesUp.tryPipeline { stage := secondRejected }).2.stage.func.term 0 = .unreachable ∧
      (givesUp.runPipeline { stage := secondRejected }).1 = .error (.unsupportedBranch 0 .neverJoins) ∧
      (givesUp.runPipeline { stage := secondRejected }).2.stage = secondRejected := by
  have hloops := normalizeLoops_secondRejected
  have hnone : (((Analyses.ofFunc secondRejected.func).loops.get 1).splitOff
      (.ofFunc secondRejected.func) 2 1 { func := secondRejected.func, uniform := [] }).1 = none := by
    decide +kernel
  have hlatch : (Stage.foldReduction chainless secondRejected).1 =
      .error (.bug (.noLatchValue 0)) := by decide +kernel
  have hused : (Stage.scalarizeCall givesUp.markers 1 secondRejected).1 = .ok false := by
    decide +kernel
  have hgives : (givesUp.runPipeline { stage := secondRejected }).1 =
      .error (.unsupportedBranch 0 .neverJoins) := by decide +kernel
  obtain ⟨hnormalize, hsplit, hfold, hcall, hpipeline⟩ := unchanged_of_failure
  exact ⟨Prod.ext hloops (hnormalize _ _ _ _ _ _ (Prod.fst_eq_iff.mp hloops)),
    Prod.ext hnone (hsplit _ _ _ _ _ _ (Prod.fst_eq_iff.mp hnone)),
    Prod.ext hlatch (hfold _ _ _ _ (Prod.fst_eq_iff.mp hlatch) (by decide)),
    Prod.ext hused (hcall _ _ _ _ _ (Prod.fst_eq_iff.mp hused) (by decide)),
    by decide +kernel, hgives, hpipeline _ _ _ _ (Prod.fst_eq_iff.mp hgives)⟩

end Lockstep
