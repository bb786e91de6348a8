import Lockstep.Proofs.Cfg.LoopEntry
import Lockstep.Proofs.Loop.Normalize

/-!
# Where single-exit loops are entered and left

Control comes into a single-exit loop from its preheader only, goes back to its header from its
latch only, and leaves along one edge. The exiting block therefore dominates what is reached from
the loop (`dominates_of_not_mem`), and no other loop is left along the edge on which this one goes
on (`ne_exit`).
-/

namespace Lockstep

namespace LoopForest

variable {f : Func} {l k : Loop}

/-- Loops that share a block lie one inside the other. -/
theorem nested_or_nested (hl : l ∈ (Analyses.ofFunc f).loops.loops)
    (hk : k ∈ (Analyses.ofFunc f).loops.loops) {b : BlockId} (hbl : b ∈ l.blocks)
    (hbk : b ∈ k.blocks) : (∀ x ∈ l.blocks, x ∈ k.blocks) ∨ ∀ x ∈ k.blocks, x ∈ l.blocks := by
  have hinside : ∀ {l k : Loop}, LoopSearch.Nested (l.header, l.blocks) (k.header, k.blocks) →
      b ∈ l.blocks → b ∈ k.blocks → ∀ x ∈ k.blocks, x ∈ l.blocks := by
    intro l k h hbl hbk x hx
    rcases h with h | h
    · exact (h x hx).1
    · exact absurd hbl (h b hbk)
  rcases eq_or_nested hl hk with rfl | h | h
  · exact .inl fun x hx => hx
  · exact .inr (hinside h hbl hbk)
  · exact .inl (hinside h hbk hbl)

end LoopForest

namespace Loop.IsSingleExit

variable {f : Func} {l k : Loop} {shape shape' : SingleExitLoop} {x y : BlockId}

theorem latches_eq {a : Analyses} (h : l.IsSingleExit f a shape) : l.latches = [shape.latch] := by
  have hlatch := h.latch
  unfold Loop.latch? at hlatch
  split at hlatch
  · cases hlatch
    assumption
  · cases hlatch

theorem entering_eq {a : Analyses} (h : l.IsSingleExit f a shape) :
    l.entering = [shape.preheader] ∧ f.term shape.preheader = .br l.header := by
  have hpre := h.preheader
  unfold Loop.preheader? at hpre
  split at hpre
  · split at hpre
    · cases hpre
      exact ⟨by assumption, by assumption⟩
    · cases hpre
  · cases hpre

section

variable (hf : f.Closed) (hl : l ∈ (Analyses.ofFunc f).loops.loops)
  (h : l.IsSingleExit f (.ofFunc f) shape)

/-! ## The entrance -/

include hf hl h

/-- Control comes into the loop from the preheader. -/
theorem preheader_mem : shape.preheader ∉ l.blocks ∧ f.Reachable shape.preheader ∧
    l.header ∈ (f.term shape.preheader).targets := by
  obtain ⟨-, -, -, -, -, -, hof⟩ := LoopForest.exists_found hl
  have hmem : shape.preheader ∈ l.entering := by
    rw [h.entering_eq.1]
    exact List.mem_singleton_self _
  rw [hof.entering, List.mem_filter, Cfg.mem_preds hf] at hmem
  exact ⟨by simpa [Loop.contains] using hmem.2, hmem.1⟩

theorem latch_mem : shape.latch ∈ l.blocks ∧ f.Reachable shape.latch ∧
    l.header ∈ (f.term shape.latch).targets := by
  obtain ⟨-, -, -, -, -, -, hof⟩ := LoopForest.exists_found hl
  have hmem : shape.latch ∈ l.latches := by
    rw [h.latches_eq]
    exact List.mem_singleton_self _
  rw [hof.latches, List.mem_filter, Cfg.mem_preds hf] at hmem
  exact ⟨by simpa [Loop.contains] using hmem.2, hmem.1⟩

/-- The header has two predecessors, one outside and one inside. -/
theorem eq_of_entering (hr : f.Reachable x) (hx : l.header ∈ (f.term x).targets) :
    x = shape.preheader ∧ x ∉ l.blocks ∨ x = shape.latch ∧ x ∈ l.blocks := by
  obtain ⟨-, -, -, -, -, -, hof⟩ := LoopForest.exists_found hl
  by_cases hxl : x ∈ l.blocks
  · refine .inr ⟨?_, hxl⟩
    have hmem : x ∈ l.latches := by
      rw [hof.latches, List.mem_filter, Cfg.mem_preds hf]
      exact ⟨⟨hr, hx⟩, by simpa [Loop.contains] using hxl⟩
    rw [h.latches_eq] at hmem
    exact List.mem_singleton.mp hmem
  · refine .inl ⟨?_, hxl⟩
    have hmem := LoopForest.mem_entering hf hl hr hxl hx
    rw [h.entering_eq.1] at hmem
    exact List.mem_singleton.mp hmem

/-- A block of the loop other than the header is reached from inside the loop. -/
theorem mem_of_target (hr : f.Reachable x) (hy : y ∈ l.blocks) (hne : y ≠ l.header)
    (hxy : y ∈ (f.term x).targets) : x ∈ l.blocks := by
  by_contra hx
  exact hne (LoopForest.eq_header_of_entering hf hl h.reducible hr hx hy hxy)

theorem entry_not_mem (he : ∀ b, f.entry ∉ (f.term b).targets) : f.entry ∉ l.blocks := by
  intro hmem
  have hdom := LoopForest.dominates_header hf hl h.reducible hmem
  have hheader := (latch_mem hf hl h).2.2
  rw [← hdom (.refl _)] at hheader
  exact he _ hheader

/-! ## The exit -/

theorem exiting_mem : shape.exiting ∈ l.blocks ∧ f.Reachable shape.exiting ∧
    shape.exit ∈ (f.term shape.exiting).targets ∧ shape.exit ∉ l.blocks := by
  refine LoopForest.of_mem_exitEdges hf hl ?_
  rw [h.exitEdges]
  exact List.mem_singleton_self _

theorem eq_of_leaving (hr : f.Reachable x) (hx : x ∈ l.blocks) (hy : y ∉ l.blocks)
    (hxy : y ∈ (f.term x).targets) : x = shape.exiting ∧ y = shape.exit := by
  have hmem := LoopForest.mem_exitEdges hf hl hr hx hy hxy
  rw [h.exitEdges] at hmem
  cases List.mem_singleton.mp hmem
  exact ⟨rfl, rfl⟩

/-- Of the two targets of the exiting block one lies in the loop, and the other does not. -/
theorem exiting_nodup : (f.term shape.exiting).targets.Nodup := by
  obtain ⟨onTrue, onFalse, ht, -, -⟩ := h.term
  obtain ⟨hx, -, he, hout⟩ := exiting_mem hf hl h
  obtain ⟨y, hy, hyl⟩ := LoopForest.exists_target_mem hf hl hx
  rw [ht] at he hy ⊢
  have hne : onTrue ≠ onFalse := by
    rintro rfl
    have he : shape.exit = onTrue := by simpa [Terminator.targets] using he
    have hy : y = onTrue := by simpa [Terminator.targets] using hy
    exact hout (he ▸ hy ▸ hyl)
  simpa [Terminator.targets] using hne

/-- From the exiting block control leaves the loop or goes on in it. -/
theorem continueTarget_mem (hn : (f.term shape.exiting).targets.Nodup) :
    (∀ y ∈ (f.term shape.exiting).targets, y = shape.continueTarget ∨ y = shape.exit) ∧
      shape.continueTarget ∈ (f.term shape.exiting).targets ∧
        shape.continueTarget ∈ l.blocks := by
  obtain ⟨onTrue, onFalse, ht, hs, hc⟩ := h.term
  obtain ⟨hx, hr, he, hout⟩ := exiting_mem hf hl h
  have htargets : (f.term shape.exiting).targets = [onTrue, onFalse] := by rw [ht]; rfl
  rw [htargets] at hn he ⊢
  have hne : onTrue ≠ onFalse := by simpa using hn
  have hcont : shape.continueTarget ≠ shape.exit ∧ shape.continueTarget ∈ [onTrue, onFalse] ∧
      ∀ y ∈ [onTrue, onFalse], y = shape.continueTarget ∨ y = shape.exit := by
    by_cases e : onFalse = shape.exit
    · have hcont : shape.continueTarget = onTrue := by rw [hc, hs, e]; simp
      rw [hcont, ← e]
      exact ⟨hne, by simp, by simp⟩
    · have hexit : shape.exit = onTrue := (List.mem_pair.mp he).resolve_right fun e' => e e'.symm
      have hcont : shape.continueTarget = onFalse := by rw [hc, hs]; simp [e]
      rw [hcont, hexit]
      exact ⟨hne.symm, by simp, by simp [or_comm]⟩
  refine ⟨hcont.2.2, hcont.2.1, ?_⟩
  by_contra hout'
  exact hcont.1 (eq_of_leaving hf hl h hr hx hout' (htargets ▸ hcont.2.1)).2

/-- What a block of the loop dominates outside the loop is reached through the exiting block. -/
theorem exiting_dominates (hx : x ∈ l.blocks) (hy : y ∉ l.blocks) (hxy : f.Dominates x y) :
    f.Dominates shape.exiting y := by
  intro hp
  -- a path that avoids the exiting block stays in the loop once it is there
  have hstay : ∀ {c}, f.Path (· ≠ shape.exiting) f.entry c →
      c ∈ l.blocks ∨ f.Path (· ∉ l.blocks) f.entry c := by
    intro c hc
    induction hc with
    | refl => exact .inr (.refl _)
    | @tail u v hu e ih =>
      by_cases hv : v ∈ l.blocks
      · exact .inl hv
      rcases ih with ih | ih
      · exact absurd (eq_of_leaving hf hl h (Cfg.reachable_of_path hu) ih hv e.2).1 e.1
      by_cases hul : u ∈ l.blocks
      · exact absurd (eq_of_leaving hf hl h (Cfg.reachable_of_path hu) hul hv e.2).1 e.1
      · exact .inr (ih.tail hul e.2)
  rcases hstay hp with h1 | h1
  · exact absurd h1 hy
  · exact absurd (hxy (h1.mono fun z hz e => hz (e ▸ hx)) ▸ hx) hy

/-- No loop is left along the edge on which another one goes on. -/
theorem ne_exit (hk : k ∈ (Analyses.ofFunc f).loops.loops)
    (h' : k.IsSingleExit f (.ofFunc f) shape') (hn : (f.term shape.exiting).targets.Nodup) :
    (shape.exiting, shape.continueTarget) ≠ (shape'.exiting, shape'.exit) := by
  intro e
  obtain ⟨e1, e2⟩ := Prod.mk.inj e
  obtain ⟨hx, hr, he, hout⟩ := exiting_mem hf hl h
  obtain ⟨hx', -, -, hout'⟩ := exiting_mem hf hk h'
  obtain ⟨-, -, hc⟩ := continueTarget_mem hf hl h hn
  rw [← e1] at hx'
  rw [← e2] at hout'
  rcases LoopForest.nested_or_nested hl hk hx hx' with hsub | hsub
  · exact hout' (hsub _ hc)
  · -- the edge on which the outer loop is left would be the one that leaves the inner loop
    have := (eq_of_leaving hf hk h' hr hx' (fun hm => hout (hsub _ hm)) he).2
    rw [← e2] at this
    exact hout (this ▸ hc)

end

end Loop.IsSingleExit

/-! ## Several loops -/

namespace Stage

variable {f : Func}

/-- The loops that are normalized, with what they are left along. -/
structure AreSingleExit (f : Func) (loops : List (Loop × SingleExitLoop)) : Prop where
  mem : ∀ e ∈ loops, e.1 ∈ (Analyses.ofFunc f).loops.loops
  singleExit : ∀ e ∈ loops, e.1.IsSingleExit f (.ofFunc f) e.2

/-- Whether a loop is one of those to normalize: it lies in the region, is not the region itself, and
lanes leave it at different times. -/
structure IsDivergentLoop (s : Stage) (l : Loop) : Prop where
  header_ne : l.header ≠ s.info.entry s.func
  inRegion : s.info.inRegion l.header = true
  hasDivergentExit : s.hasDivergentExit l = true

theorem mem_map_innerToOuter {t : LoopForest} {l : Loop} :
    l ∈ t.innerToOuter.map t.get ↔ l ∈ t.loops := by
  constructor
  · intro h
    obtain ⟨id, hid, rfl⟩ := List.mem_map.mp h
    exact LoopForest.get_mem hid
  · intro h
    obtain ⟨id, hlt, rfl⟩ := List.getElem_of_mem h
    refine List.mem_map.mpr ⟨id, List.mem_mergeSort.mpr (List.mem_range.mpr hlt), ?_⟩
    exact LoopForest.get_of_getElem? (List.getElem?_eq_getElem hlt)

variable {s : Stage} {loops : List (Loop × SingleExitLoop)}

/-- What is known of a loop that is listed. -/
theorem of_mem_divergentLoops (h : divergentLoops Loop.singleExit (.ofFunc s.func) s = .ok loops)
    {e : Loop × SingleExitLoop} (he : e ∈ loops) :
    (e.1 ∈ (Analyses.ofFunc s.func).loops.loops ∧ s.IsDivergentLoop e.1) ∧
      e.1.IsSingleExit s.func (.ofFunc s.func) e.2 := by
  obtain ⟨l, hl, hc⟩ := exists_of_mem_mapM h e he
  obtain ⟨hl, hd⟩ := List.mem_filter.mp hl
  rw [Bool.and_eq_true, Bool.and_eq_true, bne_iff_ne] at hd
  split at hc
  swap
  · cases hc
  rename_i shape hshape
  cases hc
  exact ⟨⟨mem_map_innerToOuter.mp hl, hd.1.1, hd.1.2, hd.2⟩,
    Loop.isSingleExit_of_eq_ok hshape⟩

theorem areSingleExit_of_divergentLoops
    (h : divergentLoops Loop.singleExit (.ofFunc s.func) s = .ok loops) :
    AreSingleExit s.func loops where
  mem _ he := (of_mem_divergentLoops h he).1.1
  singleExit _ he := (of_mem_divergentLoops h he).2

/-- No loop to normalize is left out. -/
theorem exists_mem_divergentLoops
    (h : divergentLoops Loop.singleExit (.ofFunc s.func) s = .ok loops) {l : Loop}
    (hl : l ∈ (Analyses.ofFunc s.func).loops.loops) (hd : s.IsDivergentLoop l) :
    ∃ e ∈ loops, e.1 = l := by
  have hmem : l ∈ (((Analyses.ofFunc s.func).loops.innerToOuter.map
      (Analyses.ofFunc s.func).loops.get).filter fun l => l.header != s.info.entry s.func &&
        s.info.inRegion l.header && s.hasDivergentExit l) := by
    refine List.mem_filter.mpr ⟨mem_map_innerToOuter.mpr hl, ?_⟩
    rw [Bool.and_eq_true, Bool.and_eq_true, bne_iff_ne]
    exact ⟨⟨hd.header_ne, hd.inRegion⟩, hd.hasDivergentExit⟩
  obtain ⟨e, he, hc⟩ := exists_mem_of_mem_mapM h hmem
  refine ⟨e, he, ?_⟩
  split at hc
  · cases hc
    rfl
  · cases hc

end Stage

end Lockstep
