import Lockstep.Proofs.Cfg.DominatorTree
import Lockstep.Proofs.Cfg.LoopNesting

/-!
# Natural loops

The natural loop of a header is the header with the blocks that lead to one of its latches around the
header. A reducible loop is the natural loop of its header and latches: it is entered at the header
only, so that what leads to a latch around the header is in the loop already. Conversely an edge to a
block that dominates its source closes a cycle that no header of a loop around lies on, since the entry
leads to such a header around the block; so the block is the header of a loop, and the source is in it.
-/

namespace Lockstep

namespace Func

/-- Whether `b` is the header `h`, or leads to one of the latches without passing `h`. -/
def InNaturalLoop (f : Func) (h : BlockId) (latches : List BlockId) (b : BlockId) : Prop :=
  b = h ∨ f.Reachable b ∧ ∃ latch ∈ latches, latch ≠ h ∧ f.Path (· ≠ h) b latch

end Func

namespace LoopForest

variable {f : Func} {l : Loop} {b h u y : BlockId}

theorem mem_latches (hf : f.Closed) (hl : l ∈ (Analyses.ofFunc f).loops.loops) :
    b ∈ l.latches ↔ (f.Reachable b ∧ l.header ∈ (f.term b).targets) ∧ b ∈ l.blocks := by
  obtain ⟨-, -, -, -, -, -, hof⟩ := exists_found hl
  rw [hof.latches, List.mem_filter, Cfg.mem_preds hf, Loop.contains, List.contains_iff_mem]

/-! ## Reducible loops -/

/-- A way in a loop from another block to the header comes through a latch. -/
theorem exists_latch_of_path (hf : f.Closed) (hl : l ∈ (Analyses.ofFunc f).loops.loops)
    (hp : f.Path (· ∈ l.blocks) b l.header) (hb : b ≠ l.header) :
    ∃ latch ∈ l.latches, latch ≠ l.header ∧ f.Path (· ≠ l.header) b latch := by
  induction hp using Relation.ReflTransGen.head_induction_on with
  | refl => exact absurd rfl hb
  | @head x y e hp ih =>
    by_cases hy : y = l.header
    · exact ⟨x, (mem_latches hf hl).mpr ⟨⟨reachable_of_mem hf hl e.1, hy ▸ e.2⟩, e.1⟩, hb, .refl x⟩
    · obtain ⟨latch, hlatch, hne, hpath⟩ := ih hy
      exact ⟨latch, hlatch, hne, .head hb e.2 hpath⟩

/-- What leads to a block of a reducible loop around its header is in the loop. -/
theorem mem_of_path (hf : f.Closed) (hl : l ∈ (Analyses.ofFunc f).loops.loops)
    (hr : l.reducible = true) {c : BlockId} (hp : f.Path (· ≠ l.header) b c) (hb : f.Reachable b)
    (hc : c ∈ l.blocks) (hne : c ≠ l.header) : b ∈ l.blocks := by
  induction hp using Relation.ReflTransGen.head_induction_on with
  | refl => exact hc
  | @head x y e hp ih =>
    have hy := ih (hb.step e.2)
    by_contra hx
    obtain rfl := eq_header_of_entering hf hl hr hb hx hy e.2
    rcases Relation.ReflTransGen.cases_head hp with e' | ⟨z, hz, -⟩
    · exact hne e'.symm
    · exact hz.1 rfl

/-- A reducible loop is the natural loop of its header and latches. -/
theorem mem_blocks_iff_inNaturalLoop (hf : f.Closed) (hl : l ∈ (Analyses.ofFunc f).loops.loops)
    (hr : l.reducible = true) : b ∈ l.blocks ↔ f.InNaturalLoop l.header l.latches b := by
  constructor
  · intro hb
    by_cases hbh : b = l.header
    · exact .inl hbh
    · have hp := Cfg.path_of_succs hf ((isLoop hl).connected b hb).2
      exact .inr ⟨reachable_of_mem hf hl hb, exists_latch_of_path hf hl hp hbh⟩
  · rintro (rfl | ⟨hb, latch, hlatch, hne, hp⟩)
    · exact header_mem hl
    · exact mem_of_path hf hl hr hp hb ((mem_latches hf hl).mp hlatch).2 hne

/-! ## Edges to dominators -/

/-- A way around `h` to a block that `h` dominates keeps away from what the entry reaches around `h`. -/
theorem path_avoids {A : BlockId → Prop} (hd : f.Dominates h u) (hne : u ≠ h)
    (hA : ∀ x, A x → f.Path (· ≠ h) f.entry x) (hp : f.Path (· ≠ h) y u) :
    f.Path (fun x => ¬ A x) y u ∧ ¬ A u := by
  have hu : ∀ x, f.Path (· ≠ h) x u → ¬ A x := fun x hx hAx => hne (hd ((hA x hAx).trans hx))
  refine ⟨?_, hu u (.refl u)⟩
  induction hp using Relation.ReflTransGen.head_induction_on with
  | refl => exact .refl u
  | @head x z e hp ih => exact .head (hu x (.head e.1 e.2 hp)) e.2 ih

/-- A block leads to what it dominates, around itself after the first step. -/
theorem exists_path_of_dominates (hd : f.Dominates h u) (hu : f.Reachable u) (hne : u ≠ h) :
    ∃ y ∈ (f.term h).targets, f.Path (· ≠ h) y u := by
  rcases hu.path.avoid_or_last (· = h) with hp | ⟨x, y, -, -, rfl, hy, hp⟩
  · exact absurd (hd (hp.mono fun _ e => e.2)) hne
  · exact ⟨y, hy, hp.mono fun _ e => e.2⟩

/-- The entry leads to the header of a loop around `h` without passing `h`. -/
theorem path_of_around (hf : f.Closed) {found : List (BlockId × List BlockId)}
    (hfound : ∀ e ∈ found, LoopSearch.IsLoop (Cfg.ofFunc f).succs f.entry e) {x : BlockId}
    (hx : LoopSearch.Around (fun _ => False) found h x) : f.Path (· ≠ h) f.entry x := by
  rcases hx with hx | ⟨e, he, rfl, hin⟩
  · exact hx.elim
  · refine (Cfg.path_of_succs hf (hfound e he).first).mono ?_
    rintro z hz rfl
    exact hz hin

/-- A block that dominates the source of an edge to it is the header of a loop. -/
theorem exists_header_eq (hf : f.Closed) (hu : f.Reachable u) (hedge : h ∈ (f.term u).targets)
    (hd : f.Dominates h u) : ∃ l ∈ (Analyses.ofFunc f).loops.loops, l.header = h := by
  obtain ⟨s, hrun⟩ := LoopSearch.exists_run_eq_ok (Cfg.ofFunc f)
  have hfinds := LoopSearch.finds_run hrun
  have hh := hd.reachable hu
  have hdone : LoopSearch.Done s h := LoopSearch.done_of_run hrun
    (Cfg.succs_of_path hf f.reachable_entry hh.path).1
  rcases hfinds.complete h (fun e => e rfl) hdone with ⟨e, he, rfl⟩ | hcover
  · rw [← (fromFound_of_run hrun (Cfg.ofFunc f).dominators).loops] at he
    obtain ⟨l, hl, rfl⟩ := List.mem_map.mp he
    exact ⟨l, hl, rfl⟩
  · by_cases hne : u = h
    · subst hne
      exact absurd (.refl u) (hcover u ((Cfg.mem_succs hf).mpr ⟨hu, hedge⟩))
    · obtain ⟨y, hy, hp⟩ := exists_path_of_dominates hd hu hne
      obtain ⟨hp, hAu⟩ := path_avoids hd hne (fun x hx => path_of_around hf hfinds.isLoop hx) hp
      exact absurd (Cfg.succs_of_path hf (hh.step hy) (hp.tail hAu hedge)).1
        (hcover y ((Cfg.mem_succs hf).mpr ⟨hh, hy⟩))

/-- The source of an edge to the header of a loop is in the loop if the header dominates it. -/
theorem mem_blocks_of_dominates (hf : f.Closed) (hl : l ∈ (Analyses.ofFunc f).loops.loops)
    (hu : f.Reachable u) (hedge : l.header ∈ (f.term u).targets) (hd : f.Dominates l.header u) :
    u ∈ l.blocks := by
  by_cases hne : u = l.header
  · exact hne ▸ header_mem hl
  · obtain ⟨pre, post, s', _, rfl, hfinds, -⟩ := exists_found hl
    obtain ⟨y, hy, hp⟩ := exists_path_of_dominates hd hu hne
    obtain ⟨hp, hAu⟩ := path_avoids hd hne
      (fun x hx => path_of_around hf (fun e he => hfinds.isLoop e (List.mem_append_left _ he)) hx) hp
    have hAh : ¬ LoopSearch.Around (fun _ => False) pre l.header l.header := fun hA => by
      obtain ⟨o, -, ho, -, -, hin⟩ := hfinds.exists_of_around hA
      exact (hin _ (header_mem hl)).2 ho.symm
    exact hfinds.maximal pre _ post rfl u
      (Cfg.succs_of_path hf (reachable_header hf hl) (hp.head hAh hy)).1
      (.step hAu ((Cfg.mem_succs hf).mpr ⟨hu, hedge⟩))

/-- Reducible loops are natural loops, and every edge to a dominator of its source makes one of the
latches of a loop. -/
theorem naturalLoops_ofFunc (hf : f.Closed) :
    (∀ l ∈ (Analyses.ofFunc f).loops.loops, l.reducible = true →
      ∀ b, b ∈ l.blocks ↔ f.InNaturalLoop l.header l.latches b) ∧
    ∀ u h, f.Reachable u → h ∈ (f.term u).targets → f.Dominates h u →
      ∃ l ∈ (Analyses.ofFunc f).loops.loops, l.header = h ∧ u ∈ l.latches := by
  refine ⟨fun l hl hr b => mem_blocks_iff_inNaturalLoop hf hl hr, fun u h hu hedge hd => ?_⟩
  obtain ⟨l, hl, rfl⟩ := exists_header_eq hf hu hedge hd
  exact ⟨l, hl, rfl, (mem_latches hf hl).mpr ⟨⟨hu, hedge⟩, mem_blocks_of_dominates hf hl hu hedge hd⟩⟩

/-- A loop with two latches inside a cycle that is entered at two of its blocks. -/
def loopInCrossing : Func where
  params := [.bool]
  retTy := .void
  blocks := #[
    { term := .brIf (.param 0) 1 2 },
    { term := .br 3 },
    { term := .brIf (.param 0) 1 6 },
    { term := .brIf (.param 0) 4 5 },
    { term := .br 3 },
    { term := .brIf (.param 0) 3 2 },
    { term := .ret none }]
  insts := #[]
  layout := [0, 1, 2, 3, 4, 5, 6]

theorem naturalLoops_loopInCrossing :
    loopInCrossing.Closed ∧
      (∀ b, b ∈ [3, 4, 5] ↔ loopInCrossing.InNaturalLoop 3 [4, 5] b) ∧
      ∃ l ∈ (Analyses.ofFunc loopInCrossing).loops.loops, l.header = 3 ∧ 5 ∈ l.latches := by
  have hf : loopInCrossing.Closed := (by decide : loopInCrossing.Coherent).toClosed
  obtain ⟨hnatural, hedge⟩ := naturalLoops_ofFunc hf
  have hl := List.getElem_mem (l := (Analyses.ofFunc loopInCrossing).loops.loops) (n := 1) (by decide)
  have hdom : loopInCrossing.Reachable 5 ∧ loopInCrossing.Dominates 3 5 := by
    have := (Cfg.dominates_dominators_iff hf (a := 3) (b := 5)).mp (by decide)
    exact ⟨this.1.2, this.2⟩
  exact ⟨hf, hnatural _ hl (by decide), hedge 5 3 hdom.1 (by decide) hdom.2⟩

end LoopForest

end Lockstep
