import Lockstep.Proofs.Linear.Known
import Lockstep.Proofs.Linear.Linearize
import Lockstep.Proofs.Vector.Standing

/-!
# Linearization reports no defect

Where the masks of all reachable blocks are known, and those of all edges that their phis have entries
for, linearization without a region succeeds, or gives a reason that lies in the function
(`tripleAll_linearize`): straightening finds its masks, and a call that is made lane by lane stands in
its block.
-/

namespace Lockstep

namespace Stage

variable {s t : Stage} {R : BlockId → Prop} {markers : Markers}

/-! ## Straightening -/

theorem tripleAll_linearizeIfDivergent {region : Option Region} {rest : List BlockId}
    {stats : LinearizeStats} {b : BlockId} :
    TripleAll (fun t => Straightening s R region (b :: rest) t ∧ Informed R [] t)
      (linearizeIfDivergent stats b)
      (fun _ t => Straightening s R region rest t ∧ Informed R [] t) fun e _ => e.Expected := by
  have hinformed : TripleAll (fun t => Straightening s R region (b :: rest) t ∧ Informed R [] t)
      (linearizeIfDivergent stats b) (fun _ => Informed R []) fun e _ => e.Expected := by
    unfold linearizeIfDivergent
    refine TripleAll.bind TripleAll.get fun t => ?_
    split
    · refine TripleAll.bind (R := fun _ => Informed R []) (TripleAll.of_eq ?_) fun n =>
        TripleAll.pure fun u hu => hu
      rintro u ⟨rfl, hu, hi⟩
      exact tripleAll_linearizeBranch hu hi
    · exact TripleAll.pure fun u hu => hu.2.2
  exact (hinformed.and triple_linearizeIfDivergent).mono (fun t ht => ⟨ht, ht.1⟩)
    fun _ t ht => ht.symm

theorem tripleAll_linearizeBranches (hv : t.Valid) (hi : Informed t.func.Reachable [] t) :
    TripleAll (· = t) (((Cfg.ofFunc t.func).rpo.reverse.filter t.isDivergentBranch).foldlM
      linearizeIfDivergent {})
      (fun _ u => Straightening t t.func.Reachable t.info.region [] u ∧
        Informed t.func.Reachable [] u) fun e _ => e.Expected := by
  refine (TripleAll.foldlM (J := fun l (_ : LinearizeStats) u =>
    Straightening t t.func.Reachable t.info.region l u ∧ Informed t.func.Reachable [] u) _
    (fun b rest stats _ => tripleAll_linearizeIfDivergent) {}).mono ?_ fun _ u hu => hu
  rintro u rfl
  exact ⟨.start hv (.refl u), hi⟩

/-! ## Calls lane by lane -/

/-- The calls to be made lane by lane stand in their blocks. -/
theorem callsLeft_maskedCalls (ht : t.func.ListsOnce) (hr : t.info.region = none) :
    CallsLeft (maskedCalls markers t) t where
  nodup := (ht.nodup_flatMap (ht.layout.filter _)).filter _
  stand i hi := by
    obtain ⟨hi, hcall⟩ := List.mem_filter.mp hi
    obtain ⟨b, -, hi⟩ := List.mem_flatMap.mp hi
    obtain ⟨hlt, rfl⟩ := ht.placed b i hi
    simp only [Bool.and_eq_true] at hcall
    exact ⟨hlt, hi, hcall.1.1.1.1⟩
  region := hr

theorem tripleAll_scalarizeCalls :
    TripleAll (fun t => t.func.ListsOnce ∧ t.info.region = none) (scalarizeCalls markers)
      (fun _ t => t.info.region = none) fun e _ => e.Expected := by
  unfold scalarizeCalls
  refine TripleAll.bind TripleAll.get fun t => ?_
  refine (TripleAll.foldlM (J := fun l (_ : Nat) => CallsLeft l) _ ?_ 0).mono ?_
    fun _ u hu => hu.region
  · intro call tail n _
    exact TripleAll.bind tripleAll_scalarizeCall fun done => TripleAll.pure fun u hu => hu
  · rintro u ⟨rfl, hu, hr⟩
    exact callsLeft_maskedCalls hu hr

/-! ## The whole linearization -/

/-- Linearization without a region reports no defect if all masks that may be asked for are known. -/
theorem tripleAll_linearize {config : Config} (hv : t.Valid)
    (hi : Informed t.func.Reachable [] t) (hr : t.info.region = none) :
    TripleAll (· = t) (linearize markers config) (fun _ u => u.info.region = none)
      fun e _ => e.Expected := by
  let Plain (u : Stage) : Prop := u.func.ListsOnce ∧ u.info.region = none
  unfold linearize
  refine TripleAll.bind TripleAll.get fun t' => ?_
  refine TripleAll.bind (R := fun _ => Plain) (TripleAll.of_eq ?_) fun n => ?_
  · rintro u ⟨rfl, rfl⟩
    exact (tripleAll_linearizeBranches hv hi).mono (fun _ h => h) fun _ w hw =>
      ⟨hw.2.once, hw.1.region.trans hr⟩
  refine TripleAll.bind (R := fun _ => Plain) (TripleAll.lift (triple_maskEffects_of ?_)) fun _ => ?_
  · refine fun u i g hg hu => ⟨hu.1.modifyInst i fun d => ?_, hu.2⟩
    obtain ⟨mask, hmask⟩ := hg d
    rw [hmask]
  have hend : ∀ k, TripleAll (fun u => u.info.region = none) (do
      modifyFunc Func.relayout
      return { n with scalarizedCalls := k } : StageM LinearizeStats)
      (fun _ u => u.info.region = none) fun e _ => e.Expected :=
    fun k => TripleAll.bind (R := fun _ u => u.info.region = none)
      (TripleAll.lift (triple_modifyFunc fun u hu => hu)) fun _ => TripleAll.pure fun u hu => hu
  split
  · exact TripleAll.bind tripleAll_scalarizeCalls hend
  · exact TripleAll.bind (TripleAll.pure fun u hu => hu.2) hend

end Stage

end Lockstep
