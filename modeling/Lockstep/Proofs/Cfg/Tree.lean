import Lockstep.Cfg.Analyses
import Lockstep.Proofs.Cfg.Reach

/-!
# Dominator trees

What holds of a dominator tree because of how it is read: an ancestor comes no later in the order,
so that two blocks that dominate each other are one. The parents of the post-dominator tree are
reachable blocks.
-/

namespace Lockstep

namespace DomTree

variable {t : DomTree}

/-- A walk that finds an ancestor starts no earlier in the order. -/
theorem le_of_walk {a node : BlockId} {limit fuel : Nat} (h : t.walk a limit fuel node = true) :
    node = a ∨ ∀ k, t.number? node = some k → limit ≤ k := by
  cases fuel with
  | zero => cases h
  | succ fuel =>
    unfold walk at h
    by_cases hn : node = a
    · exact .inl hn
    · rw [if_neg hn] at h
      refine .inr fun k hk => ?_
      by_contra hlt
      rw [hk, if_pos (by simpa using hlt)] at h
      cases h

theorem number?_le_of_dominates {a b : BlockId} (h : t.dominates a b = true) :
    ∃ j k, t.number? a = some j ∧ t.number? b = some k ∧ j ≤ k := by
  unfold dominates at h
  split at h
  · rename_i j k ha hb
    refine ⟨j, k, ha, hb, ?_⟩
    rcases le_of_walk h with rfl | hle
    · rw [ha] at hb
      cases hb
      exact Nat.le_refl _
    · exact hle k hb
  · cases h

theorem number?_inj {a b : BlockId} {k : Nat} (ha : t.number? a = some k)
    (hb : t.number? b = some k) : a = b := by
  obtain ⟨_, e, _⟩ := List.idxOf?_eq_some_iff.mp ha
  obtain ⟨_, e', _⟩ := List.idxOf?_eq_some_iff.mp hb
  exact e.symm.trans e'

/-- Two blocks that dominate each other are one. -/
theorem dominates_antisymm {a b : BlockId} (h : t.dominates a b = true)
    (k : t.dominates b a = true) : a = b := by
  obtain ⟨i, j, ha, hb, hij⟩ := number?_le_of_dominates h
  obtain ⟨j', i', hb', ha', hji⟩ := number?_le_of_dominates k
  rw [ha] at ha'
  rw [hb] at hb'
  cases ha'
  cases hb'
  exact number?_inj ha (Nat.le_antisymm hij hji ▸ hb)

theorem get?_setParent (o : Option BlockId) (t : Table BlockId BlockId) (b c : BlockId) :
    (match o with
      | some p => t.set b p
      | none => t).get? c = if c = b then o.or (t.get? c) else t.get? c := by
  cases o with
  | none => simp
  | some p => rw [Table.get?_set]; rfl

theorem get?_foldl_parents (node : Nat → Option BlockId) (order : List BlockId)
    (hn : order.Nodup) (n : Nat) (t : Table BlockId BlockId) (b : BlockId) :
    ((order.zipIdx n).foldl (fun t (b, k) =>
      match node k with
      | some p => t.set b p
      | none => t) t).get? b =
      match order.idxOf? b with
      | some k => (node (n + k)).or (t.get? b)
      | none => t.get? b := by
  induction order generalizing n t with
  | nil => rfl
  | cons c order ih =>
    obtain ⟨hc, hn⟩ := List.nodup_cons.mp hn
    rw [List.zipIdx_cons, List.foldl_cons, ih hn, List.idxOf?_cons]
    by_cases hcb : c = b
    · subst hcb
      rw [List.idxOf?_eq_none_iff.mpr hc, beq_self_eq_true, if_pos rfl]
      exact (get?_setParent (node n) t c c).trans (if_pos rfl)
    · rw [if_neg (by simpa using hcb)]
      have hset := (get?_setParent (node n) t c b).trans (if_neg fun e => hcb e.symm)
      cases order.idxOf? b with
      | none => exact hset
      | some k =>
        show (node (n + 1 + k)).or _ = (node (n + (k + 1))).or _
        rw [Nat.add_assoc, Nat.add_comm 1 k]
        exact congrArg _ hset

/-- The parent of a block is what the node at its position says. -/
theorem parent?_ofParents {order : List BlockId} (hn : order.Nodup)
    (node : Nat → Option BlockId) (b : BlockId) :
    (ofParents order node).parent? b = (order.idxOf? b).bind node := by
  have h := get?_foldl_parents node order hn 0 .empty b
  refine Eq.trans h ?_
  cases order.idxOf? b with
  | none => rfl
  | some k =>
    show (node (0 + k)).or none = node k
    rw [Option.or_none, Nat.zero_add]

end DomTree

/-! ## Post-dominators -/

namespace Cfg

variable {f : Func}

/-- What the search against the edges, from the exits, explores. -/
theorem explored_exitOrder (hf : f.Closed) :
    ∃ s, Search.Explored (ofFunc f).preds (· ∈ (ofFunc f).exits f) .empty s
      ((ofFunc f).exitOrder f) ∧ ∀ x ∈ (ofFunc f).exits f, x ∈ s.seen := by
  have hn : ∀ x < f.blocks.size, ∀ y ∈ (ofFunc f).preds x, y < f.blocks.size :=
    fun x _ y hy => ((mem_preds hf).mp hy).1.lt hf
  have hfuel : (Search.unseen f.blocks.size .empty).card < f.blocks.size + 1 := by
    rw [Search.card_unseen_empty]
    exact Nat.lt_succ_self _
  obtain ⟨new, h, hseen⟩ := Search.explored_visitAll hn ((ofFunc f).exits f)
    (fun b hb => ((mem_rpo hf).mp (List.mem_filter.mp hb).1).lt hf) .empty hfuel
  have hl : (ofFunc f).exitOrder f = new := h.left_eq.trans (List.append_nil new)
  exact ⟨_, hl ▸ h, hseen⟩

theorem reachable_of_mem_exitOrder (hf : f.Closed) {b : BlockId}
    (h : b ∈ (ofFunc f).exitOrder f) : f.Reachable b := by
  obtain ⟨s, hs, -⟩ := explored_exitOrder hf
  obtain ⟨r, hr, hrb⟩ := hs.reached b h
  have hr := (mem_rpo hf).mp (List.mem_filter.mp hr).1
  exact hrb.closed (P := f.Reachable) (fun x _ y hy => ((mem_preds hf).mp hy).1) hr

theorem nodup_exitOrder (hf : f.Closed) : ((ofFunc f).exitOrder f).Nodup := by
  obtain ⟨s, hs, -⟩ := explored_exitOrder hf
  exact hs.nodup

/-- A block from which branches join again, and the block where they do, are reachable. -/
theorem reachable_of_postDom_parent? (hf : f.Closed) {b p : BlockId}
    (h : (Analyses.ofFunc f).postDom.parent? b = some p) : f.Reachable b ∧ f.Reachable p := by
  have h : ((ofFunc f).postDominators f).parent? b = some p := h
  unfold postDominators at h
  rw [DomTree.parent?_ofParents (nodup_exitOrder hf)] at h
  obtain ⟨k, hb, hk⟩ := Option.bind_eq_some_iff.mp h
  obtain ⟨hlt, e, -⟩ := List.idxOf?_eq_some_iff.mp hb
  refine ⟨reachable_of_mem_exitOrder hf (e ▸ List.getElem_mem hlt), ?_⟩
  split at hk
  · exact reachable_of_mem_exitOrder hf (List.mem_of_getElem? hk)
  · cases hk

end Cfg

end Lockstep
