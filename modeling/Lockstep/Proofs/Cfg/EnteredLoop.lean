import Lockstep.Proofs.Cfg.NaturalLoop

/-!
# Loops by their entrance

Blocks that control comes into along one edge, from a block `p` to a block `h`, and that lead to `h`
again inside (`Func.IsEntered`), are the blocks of a reducible loop with the header `h`
(`LoopForest.exists_loop_of_isEntered`). Both `p` and `h` dominate them: a cycle through `h` that leaves
them comes back through `p`, which belongs to a loop around then. The edges of a loop are those that
control takes to its header and out of it.
-/

namespace Lockstep

namespace Func

/-- Control comes into the blocks with `B` from `p` to `h` only, and can go on to `h` inside. -/
structure IsEntered (f : Func) (B : BlockId → Prop) (p h : BlockId) : Prop where
  entry : ¬ B f.entry
  header : B h
  outside : ¬ B p
  reachable : ∀ b, B b → f.Reachable b
  entering : ∀ x y, f.Reachable x → ¬ B x → B y → y ∈ (f.term x).targets → x = p ∧ y = h
  back : ∀ b, B b → f.Path B b h
  cycle : ∃ u, B u ∧ h ∈ (f.term u).targets

namespace IsEntered

variable {f : Func} {B : BlockId → Prop} {p h b : BlockId}

/-- There is no way around `p`. -/
theorem not_of_path (H : f.IsEntered B p h) (hp : f.Path (· ≠ p) f.entry b) : ¬ B b := by
  induction hp with
  | refl => exact H.entry
  | @tail x y hx e ih =>
    intro hy
    exact e.1 (H.entering x y (Cfg.reachable_of_path hx) ih hy e.2).1

theorem dominates (H : f.IsEntered B p h) (hb : B b) : f.Dominates h b := by
  intro hp
  induction hp with
  | refl => exact absurd hb H.entry
  | @tail x y hx e ih =>
    by_cases hBx : B x
    · exact absurd (ih hBx) e.1
    · exact (H.entering x y (Cfg.reachable_of_path hx) hBx hb e.2).2

end IsEntered

end Func

namespace LoopForest

variable {f : Func} {B : BlockId → Prop} {p h b : BlockId} {l : Loop}

/-- A loop with the header `h` keeps inside. -/
theorem of_mem_of_isEntered (hf : f.Closed) (H : f.IsEntered B p h)
    (hl : l ∈ (Analyses.ofFunc f).loops.loops) (e : l.header = h) (hb : b ∈ l.blocks) : B b := by
  by_contra hout
  -- the way back to the header comes through `p`
  obtain ⟨y, hy, hp⟩ := (Cfg.path_of_succs hf ((isLoop hl).connected b hb).2).exists_first B
    (e ▸ H.header)
  have hmem : p ∈ l.blocks := by
    rcases Relation.ReflTransGen.cases_tail hp with rfl | ⟨x, hx, hxy⟩
    · exact absurd hy hout
    · have hr := reachable_of_mem hf hl hxy.1.1
      exact (H.entering x y hr hxy.1.2 hy hxy.2).1 ▸ hxy.1.1
  refine H.not_of_path ((path_header hf hl).mono ?_) (e ▸ H.header)
  rintro x hx rfl
  exact hx hmem

theorem mem_of_isEntered (hf : f.Closed) (H : f.IsEntered B p h)
    (hl : l ∈ (Analyses.ofFunc f).loops.loops) (e : l.header = h) (hr : l.reducible = true)
    (hb : B b) : b ∈ l.blocks := by
  subst e
  have hp := H.back b hb
  induction hp using Relation.ReflTransGen.head_induction_on with
  | refl => exact header_mem hl
  | @head x y e hp ih =>
    by_contra hx
    have hy : y ∈ l.blocks := by
      rcases Relation.ReflTransGen.cases_head hp with rfl | ⟨z, hz, -⟩
      · exact header_mem hl
      · exact ih hz.1
    obtain rfl := eq_header_of_entering hf hl hr (H.reachable x hb) hx hy e.2
    exact hx (mem_blocks_of_dominates hf hl (H.reachable x hb) e.2 (H.dominates hb))

/-- Blocks with one entrance from which there is a way back to it are a loop. -/
theorem exists_loop_of_isEntered (hf : f.Closed) (H : f.IsEntered B p h) :
    ∃ l ∈ (Analyses.ofFunc f).loops.loops, l.header = h ∧ l.reducible = true ∧
      ∀ b, b ∈ l.blocks ↔ B b := by
  obtain ⟨u, hu, hedge⟩ := H.cycle
  obtain ⟨l, hl, rfl⟩ := exists_header_eq hf (H.reachable u hu) hedge (H.dominates hu)
  have hin : ∀ b ∈ l.blocks, B b := fun b hb => of_mem_of_isEntered hf H hl rfl hb
  have hr : l.reducible = true := by
    obtain ⟨-, -, -, -, -, -, hof⟩ := exists_found hl
    rw [hof.reducible, List.all_eq_true]
    exact fun b hb => Cfg.dominates_dominators_iff hf |>.mpr
      ⟨⟨reachable_header hf hl, reachable_of_mem hf hl hb⟩, H.dominates (hin b hb)⟩
  exact ⟨l, hl, rfl, hr, fun b => ⟨hin b, mem_of_isEntered hf H hl rfl hr⟩⟩

/-! ## The edges of a loop -/

theorem eq_singleton_of_nodup {α : Type} {xs : List α} {a : α} (hn : xs.Nodup)
    (h : ∀ x, x ∈ xs ↔ x = a) : xs = [a] :=
  List.perm_singleton.mp <| (List.perm_ext_iff_of_nodup hn (List.nodup_singleton a)).mpr fun x => by
    rw [h, List.mem_singleton]

theorem entering_eq (hf : f.Closed) (hl : l ∈ (Analyses.ofFunc f).loops.loops)
    (h : ∀ x, (f.Reachable x ∧ l.header ∈ (f.term x).targets) ∧ x ∉ l.blocks ↔ x = p) :
    l.entering = [p] := by
  obtain ⟨-, -, -, -, -, -, hof⟩ := exists_found hl
  rw [hof.entering]
  refine eq_singleton_of_nodup ((Cfg.nodup_preds hf _).filter _) fun x => ?_
  rw [List.mem_filter, Cfg.mem_preds hf, ← h]
  simp [Loop.contains]

theorem latches_eq (hf : f.Closed) (hl : l ∈ (Analyses.ofFunc f).loops.loops)
    (h : ∀ x, (f.Reachable x ∧ l.header ∈ (f.term x).targets) ∧ x ∈ l.blocks ↔ x = p) :
    l.latches = [p] := by
  obtain ⟨-, -, -, -, -, -, hof⟩ := exists_found hl
  have hn : l.latches.Nodup := by
    rw [hof.latches]
    exact (Cfg.nodup_preds hf _).filter _
  exact eq_singleton_of_nodup hn fun x => by rw [mem_latches hf hl, h]

theorem exitEdges_eq (hf : f.Closed) (hl : l ∈ (Analyses.ofFunc f).loops.loops) {e : BlockId × BlockId}
    (h : ∀ x y, x ∈ l.blocks ∧ f.Reachable x ∧ y ∈ (f.term x).targets ∧ y ∉ l.blocks ↔ (x, y) = e) :
    l.exitEdges = [e] := by
  have hn : l.exitEdges.Nodup := by
    obtain ⟨-, -, -, -, -, -, hof⟩ := exists_found hl
    rw [hof.exitEdges]
    refine List.Nodup.filter _ (List.nodup_flatMap.mpr ⟨fun b _ => ?_, ?_⟩)
    · exact (Cfg.nodup_succs hf b).map fun x y e => (Prod.mk.inj e).2
    · refine (nodup_blocks hl).imp fun {a b} hab => List.disjoint_left.mpr fun x hx hy => hab ?_
      obtain ⟨_, -, rfl⟩ := List.mem_map.mp hx
      obtain ⟨_, -, e⟩ := List.mem_map.mp hy
      exact (Prod.mk.inj e).1.symm
  refine eq_singleton_of_nodup hn fun ⟨x, y⟩ => ?_
  rw [← h]
  exact ⟨of_mem_exitEdges hf hl, fun ⟨hx, hr, hxy, hy⟩ => mem_exitEdges hf hl hr hx hy hxy⟩

end LoopForest

end Lockstep
