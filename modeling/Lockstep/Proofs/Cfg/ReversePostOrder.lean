import Lockstep.Proofs.Cfg.DominatorTree

/-!
# Reverse post-order

The reverse post-order of a function is a topological order up to cycles: a branch that does not lead
to a later block leads to one that reaches the branching block again, and it does so without going
through a block before itself. `isReversePostOrder_ofFunc` collects what the order and the tables of
a graph say about the blocks and branches of its function.
-/

namespace Lockstep

namespace Func

/-- No branch between reachable blocks can be taken again after it. -/
def Acyclic (f : Func) : Prop :=
  ∀ a, f.Reachable a → ∀ b ∈ (f.term a).targets, ¬ f.Reaches b a

end Func

namespace Cfg

variable {f : Func} {a b : BlockId} {i j : Nat}

/-- The blocks from the position of a block on stand no earlier than it. -/
theorem le_rpoIndex?_of_mem (hf : f.Closed) {before after : List BlockId} {x : BlockId}
    (e : (ofFunc f).rpo = before ++ b :: after) (hb : (ofFunc f).rpoIndex? b = some j)
    (hx : x ∈ b :: after) : ∃ k, (ofFunc f).rpoIndex? x = some k ∧ j ≤ k := by
  have hpos : ∀ {y : BlockId} {m : Nat}, (b :: after)[m]? = some y →
      (ofFunc f).rpoIndex? y = some (before.length + m) := fun {y m} hy => by
    refine rpoIndex?_of_getElem? hf ?_
    rw [e, List.getElem?_append_right (Nat.le_add_right _ _), Nat.add_sub_cancel_left]
    exact hy
  obtain ⟨m, hm⟩ := List.mem_iff_getElem?.mp hx
  have hj : j = before.length + 0 := Option.some.inj (hb.symm.trans (hpos rfl))
  exact ⟨before.length + m, hpos hm, by omega⟩

/-- A block stands no later than those that it dominates. -/
theorem rpoIndex?_le_of_dominates (hf : f.Closed) (h : f.Dominates a b)
    (ha : (ofFunc f).rpoIndex? a = some i) (hb : (ofFunc f).rpoIndex? b = some j) : i ≤ j := by
  have hr : ∀ {x k}, (ofFunc f).rpoIndex? x = some k → f.Reachable x := fun hx =>
    (mem_rpo hf).mp (List.mem_of_getElem? (getElem?_of_rpoIndex? hx))
  obtain ⟨i', j', hi, hj, hle⟩ := DomTree.number?_le_of_dominates
    ((dominates_dominators_iff hf).mpr ⟨⟨hr ha, hr hb⟩, h⟩)
  cases ha.symm.trans hi
  cases hb.symm.trans hj
  exact hle

/-- A branch that does not lead forward closes a cycle of blocks that stand no earlier than its
target. -/
theorem path_of_rpoIndex?_le (hf : f.Closed) (h : b ∈ (f.term a).targets)
    (ha : (ofFunc f).rpoIndex? a = some i) (hb : (ofFunc f).rpoIndex? b = some j) (hji : j ≤ i) :
    f.Path (fun x => ∃ k, (ofFunc f).rpoIndex? x = some k ∧ j ≤ k) b a := by
  have hn : (ofFunc f).rpo.Nodup := Func.nodup_reversePostOrder hf
  obtain ⟨pre, post, e⟩ := List.append_of_mem (List.mem_of_getElem? (getElem?_of_rpoIndex? ha))
  rcases Func.reversePostOrder_back hf e h with hpost | ⟨before, after, e', hp⟩
  · -- the target would stand after the block that branches to it
    obtain ⟨k, hk, hik⟩ := le_rpoIndex?_of_mem hf e ha (List.mem_cons_of_mem a hpost)
    obtain rfl : j = k := Option.some.inj (hb.symm.trans hk)
    obtain rfl : a = b := DomTree.number?_inj (t := (ofFunc f).dominators) ha
      (hb.trans (by rw [Nat.le_antisymm hji hik]))
    exact .refl a
  · exact hp.mono fun x hx => le_rpoIndex?_of_mem hf e' hb hx

/-- Without cycles, every branch leads forward. -/
theorem exists_rpoIndex?_lt (hf : f.Closed) (hac : f.Acyclic) (ha : f.Reachable a)
    (h : b ∈ (f.term a).targets) :
    ∃ i j, (ofFunc f).rpoIndex? a = some i ∧ (ofFunc f).rpoIndex? b = some j ∧ i < j := by
  obtain ⟨i, hi⟩ := exists_rpoIndex? hf ha
  obtain ⟨j, hj⟩ := exists_rpoIndex? hf (ha.step h)
  refine ⟨i, j, hi, hj, Nat.lt_of_not_le fun hji => hac a ha b h ?_⟩
  exact Search.Reach.of_path (path_of_rpoIndex?_le hf h hi hj hji)

/-- `g` lists the blocks that control can get to in `f` along the branches, but for those that close a
cycle, and holds these branches from both sides. -/
structure IsReversePostOrder (g : Cfg) (f : Func) : Prop where
  mem_rpo : ∀ b, b ∈ g.rpo ↔ f.Reachable b
  nodup : g.rpo.Nodup
  head : g.rpo.head? = some f.entry
  rpoIndex?_eq_some_iff : ∀ b i, g.rpoIndex? b = some i ↔ g.rpo[i]? = some b
  rpoIndex?_eq_none_iff : ∀ b, g.rpoIndex? b = none ↔ ¬ f.Reachable b
  reaches_of_le : ∀ a b i j, b ∈ (f.term a).targets → g.rpoIndex? a = some i →
    g.rpoIndex? b = some j → j ≤ i → f.Reaches b a
  lt_of_acyclic : f.Acyclic → ∀ a b, f.Reachable a → b ∈ (f.term a).targets →
    ∃ i j, g.rpoIndex? a = some i ∧ g.rpoIndex? b = some j ∧ i < j
  mem_succs : ∀ a b, b ∈ g.succs a ↔ f.Reachable a ∧ b ∈ (f.term a).targets
  mem_preds : ∀ a b, b ∈ g.succs a ↔ a ∈ g.preds b
  nodup_succs : ∀ b, (g.succs b).Nodup
  nodup_preds : ∀ b, (g.preds b).Nodup
  reachable_of_mem : ∀ a b, b ∈ g.succs a → f.Reachable a ∧ f.Reachable b

/-- The graph of a function lists its reachable blocks in a topological order up to cycles: each once,
the entry first, at the position that the graph gives for it; a branch to a block that does not stand
later leads to one that reaches the branching block. Its tables hold the branches between reachable
blocks, each once, from both sides. -/
theorem isReversePostOrder_ofFunc (hf : f.Closed) : (ofFunc f).IsReversePostOrder f where
  mem_rpo _ := mem_rpo hf
  nodup := Func.nodup_reversePostOrder hf
  head := by
    obtain ⟨rest, hr⟩ := Func.reversePostOrder_eq_cons hf
    rw [show (ofFunc f).rpo = f.entry :: rest from hr, List.head?_cons]
  rpoIndex?_eq_some_iff _ _ := ⟨getElem?_of_rpoIndex?, rpoIndex?_of_getElem? hf⟩
  rpoIndex?_eq_none_iff _ := by rw [← mem_rpo hf]; exact List.idxOf?_eq_none_iff
  reaches_of_le a b i j h ha hb hji := Search.Reach.of_path (path_of_rpoIndex?_le hf h ha hb hji)
  lt_of_acyclic hac _ _ ha h := exists_rpoIndex?_lt hf hac ha h
  mem_succs _ _ := mem_succs hf
  mem_preds _ _ := (mem_succs hf).trans (mem_preds hf).symm
  nodup_succs := nodup_succs hf
  nodup_preds := nodup_preds hf
  reachable_of_mem a b h := by
    obtain ⟨ha, hb⟩ := (mem_succs hf).mp h
    exact ⟨ha, ha.step hb⟩

/-- In the loop that is entered at both of its blocks, one of its two branches goes back. -/
theorem isReversePostOrder_crossing : crossing.Closed ∧
    (ofFunc crossing).rpoIndex? 2 = some 1 ∧ (ofFunc crossing).rpoIndex? 1 = some 2 ∧
      crossing.Reaches 2 1 ∧ ¬ crossing.Reachable 4 := by
  have hf : crossing.Closed := (by decide : crossing.Coherent).toClosed
  have h := isReversePostOrder_ofFunc hf
  refine ⟨hf, by decide, by decide, ?_, (h.rpoIndex?_eq_none_iff 4).mp (by decide)⟩
  exact h.reaches_of_le 1 2 2 1 (by decide) (by decide) (by decide) (by decide)

end Cfg

end Lockstep
