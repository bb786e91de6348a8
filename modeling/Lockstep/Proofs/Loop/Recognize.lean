import Lockstep.Proofs.Cfg.EnteredLoop
import Lockstep.Proofs.Eval.Rename
import Lockstep.Proofs.Loop.Counted

/-!
# Recognizing loops

Blocks that are entered along one edge, from a block that leads nowhere else, that have one way back
to their header and are left from it along one edge, are a single-exit loop of the analysis
(`SingleExitLoop.Shapes.exists_isSingleExit`). Whether such a loop is counted is a matter of its
test and of its increment, and copies of these are recognized with the copy of the induction variable
(`Loop.stayTest?_of_copied`, `Loop.increment?_of_copied`).
-/

namespace Lockstep

namespace Func.IsEntered

variable {f : Func} {B : BlockId → Prop} {p h : BlockId}

theorem reachable_entering (H : f.IsEntered B p h) : f.Reachable p ∧ h ∈ (f.term p).targets := by
  obtain ⟨y, hy, hp⟩ := (H.reachable h H.header).path.exists_first B H.header
  rcases Relation.ReflTransGen.cases_tail hp with e | ⟨x, hx, e⟩
  · exact absurd (e ▸ hy) H.entry
  · have hr := Cfg.reachable_of_path hx
    obtain ⟨rfl, rfl⟩ := H.entering x y hr e.1.2 hy e.2
    exact ⟨hr, e.2⟩

end Func.IsEntered

namespace SingleExitLoop

/-- The blocks with `B` are a loop with the shape `s`, which is left from its header. -/
structure Shapes (s : SingleExitLoop) (f : Func) (B : BlockId → Prop) : Prop extends
    f.IsEntered B s.preheader s.header where
  preheader_br : f.term s.preheader = .br s.header
  latch : B s.latch
  latch_edge : s.header ∈ (f.term s.latch).targets
  eq_latch : ∀ x, B x → s.header ∈ (f.term x).targets → x = s.latch
  exiting : s.exiting = s.header
  exit : ¬ B s.exit
  exit_edge : s.exit ∈ (f.term s.header).targets
  leaving : ∀ x y, B x → ¬ B y → y ∈ (f.term x).targets → x = s.header ∧ y = s.exit
  term : ∃ onTrue onFalse, f.term s.header = .brIf s.cond onTrue onFalse ∧
    s.stayOnTrue = (onFalse == s.exit) ∧
    s.continueTarget = if s.stayOnTrue then onTrue else onFalse

/-- Such blocks are found as a single-exit loop. -/
theorem Shapes.exists_isSingleExit {s : SingleExitLoop} {f : Func} {B : BlockId → Prop}
    (hf : f.Closed) (H : s.Shapes f B) : ∃ l ∈ (Analyses.ofFunc f).loops.loops,
      l.header = s.header ∧ (∀ b, b ∈ l.blocks ↔ B b) ∧ l.IsSingleExit f (.ofFunc f) s := by
  obtain ⟨l, hl, hheader, hred, hB⟩ := LoopForest.exists_loop_of_isEntered hf H.toIsEntered
  obtain ⟨hrp, hedge⟩ := H.reachable_entering
  refine ⟨l, hl, hheader, hB, ⟨hred, hheader.symm, ?_, ?_, ?_, ?_, ?_⟩⟩
  · have hentering : l.entering = [s.preheader] := by
      refine LoopForest.entering_eq hf hl fun x => ?_
      rw [hheader, hB]
      constructor
      · exact fun h => (H.entering x s.header h.1.1 h.2 H.header h.1.2).1
      · rintro rfl
        exact ⟨⟨hrp, hedge⟩, H.outside⟩
    unfold Loop.preheader?
    rw [hentering, hheader]
    exact if_pos H.preheader_br
  · have hlatches : l.latches = [s.latch] := by
      refine LoopForest.latches_eq hf hl fun x => ?_
      rw [hheader, hB]
      constructor
      · exact fun h => H.eq_latch x h.2 h.1.2
      · rintro rfl
        exact ⟨⟨H.reachable _ H.latch, H.latch_edge⟩, H.latch⟩
    unfold Loop.latch?
    rw [hlatches]
  · refine LoopForest.exitEdges_eq hf hl fun x y => ?_
    rw [hB, hB, H.exiting]
    constructor
    · rintro ⟨hx, -, hxy, hy⟩
      obtain ⟨rfl, rfl⟩ := H.leaving x y hx hy hxy
      rfl
    · rintro e
      cases e
      exact ⟨H.header, H.reachable _ H.header, H.exit_edge, H.exit⟩
  · rw [H.exiting]
    exact H.term
  · rw [H.exiting]
    exact (Cfg.dominates_dominators_iff hf).mpr
      ⟨⟨H.reachable _ H.header, H.reachable _ H.latch⟩, H.dominates H.latch⟩

end SingleExitLoop

namespace Loop

variable {f g : Func} {l m : Loop} {ρ : InstId → InstId} {i j iv : InstId} {added bound : Value}
  {op : CmpOp}

theorem input_of_copied (h : Copied f g ρ i) {code : Opcode} {args : List Value}
    (hop : (f.inst i).op = .apply code args) (k : Nat) :
    (g.inst (ρ i)).input k = ((f.inst i).input k).rename ρ := by
  unfold Instr.input Instr.inputs
  rw [h.op _ _ hop, hop]
  show (args.map _)[k]?.getD _ = (args[k]?.getD _).rename ρ
  rw [List.getElem?_map]
  cases args[k]? <;> rfl

/-- The copy of the test of a loop is recognized if phis of the header have phis as copies, and no
other values have. -/
theorem stayTest?_of_copied {s s' : SingleExitLoop} (hcond : s.cond = .inst i)
    (hcond' : s'.cond = .inst (ρ i)) (hstay : s'.stayOnTrue = s.stayOnTrue) (h : Copied f g ρ i)
    (hphi : ∀ k, phiOf? g s'.header (((f.inst i).input k).rename ρ) =
      (phiOf? f s.header ((f.inst i).input k)).map ρ)
    (ht : stayTest? f s = some (op, iv, bound)) :
    stayTest? g s' = some (op, ρ iv, bound.rename ρ) := by
  unfold stayTest? at ht ⊢
  obtain ⟨⟨cmp, x, y⟩, hcmp, ht⟩ := Option.bind_eq_some_iff.mp ht
  obtain ⟨i', args, hi', hop, rfl, rfl⟩ := comparison?_eq_some hcmp
  obtain rfl : i = i' := Value.inst.inj (hcond.symm.trans hi')
  have hcopy : comparison? g s'.cond =
      some (cmp, ((f.inst i).input 0).rename ρ, ((f.inst i).input 1).rename ρ) := by
    unfold comparison?
    rw [hcond']
    dsimp only
    rw [h.op _ _ hop, input_of_copied h hop, input_of_copied h hop]
  rw [hcopy, hstay]
  dsimp only [Option.bind_eq_bind, Option.bind_some] at ht ⊢
  rw [hphi, hphi]
  cases h0 : phiOf? f s.header ((f.inst i).input 0) with
  | some iv' =>
    rw [h0] at ht
    cases ht
    rfl
  | none =>
    rw [h0] at ht
    cases h1 : phiOf? f s.header ((f.inst i).input 1) with
    | some iv' =>
      rw [h1] at ht
      cases ht
      rfl
    | none =>
      rw [h1] at ht
      cases ht

/-- The copy of an increment is recognized in the loop with the copy. -/
theorem increment?_of_copied (h : Copied f g ρ j)
    (hin : (f.inst j).block ∈ l.blocks → (g.inst (ρ j)).block ∈ m.blocks)
    (hinj : ∀ v ∈ (f.inst j).inputs, v.rename ρ = .inst (ρ iv) → v = .inst iv)
    (hadd : increment? f l iv (.inst j) = some added) :
    increment? g m (ρ iv) (.inst (ρ j)) = some (added.rename ρ) := by
  unfold increment? at hadd ⊢
  dsimp only at hadd ⊢
  split at hadd
  swap
  · cases hadd
  rename_i x y hop
  rw [h.op _ _ hop]
  have hx := hinj x (by rw [Run.inputs_of_op hop]; simp)
  have hy := hinj y (by rw [Run.inputs_of_op hop]; simp)
  by_cases hc : l.contains (f.inst j).block = true
  swap
  · rw [Bool.not_eq_true] at hc
    rw [hc] at hadd
    cases hadd
  have hm : m.contains (g.inst (ρ j)).block = true :=
    List.contains_iff_mem.mpr (hin (List.contains_iff_mem.mp hc))
  simp only [hc, hm, Bool.not_true, Bool.false_eq_true, if_false, List.map_cons, List.map_nil]
    at hadd ⊢
  by_cases hxiv : x = .inst iv
  · rw [if_pos hxiv] at hadd
    cases hadd
    exact if_pos (congrArg (Value.rename ρ) hxiv)
  · rw [if_neg hxiv] at hadd
    rw [if_neg fun e => hxiv (hx e)]
    by_cases hyiv : y = .inst iv
    · rw [if_pos hyiv] at hadd
      cases hadd
      exact if_pos (congrArg (Value.rename ρ) hyiv)
    · rw [if_neg hyiv] at hadd
      cases hadd

end Loop

end Lockstep
