import Lockstep.Proofs.Linear.Complete

/-!
# Nodes that lead to each other

A node leads to the nodes at whose entries the edges out of it arrive (`mem_of_successors`,
`of_mem_successors`). In the order it comes up before them (`idxOf_lt_of_order`), and if the entry of
each of them stands later in the reverse post-order than its own, the whole order follows the reverse
post-order (`pairwise_order`).
-/

namespace Lockstep

namespace Chain

variable {succs : List (List Nat)} {key : Nat → Nat} {fuel : Nat} {rest : List Nat}

/-! ## Sorting -/

/-- When a position comes up, none of those that are left leads to it. -/
theorem ready_of_sortFrom {pre post : List Nat} {n : Nat}
    (e : sortFrom succs key fuel rest = pre ++ n :: post) :
    ∀ m ∈ n :: post, n ∉ succs[m]?.getD [] := by
  induction fuel generalizing rest pre with
  | zero => simp [sortFrom] at e
  | succ fuel ih =>
    unfold sortFrom at e
    split at e
    · simp at e
    · rename_i k hk
      cases pre with
      | nil =>
        obtain ⟨rfl, rfl⟩ := List.cons.inj e
        intro m hm
        refine (of_next?_eq_some hk).2.1 m ?_
        rcases List.mem_cons.mp hm with rfl | hm
        · exact (of_next?_eq_some hk).1
        · exact List.mem_of_mem_erase (sortFrom_subset m hm)
      | cons p pre =>
        obtain ⟨-, e⟩ := List.cons.inj e
        exact ih e

/-- If leading goes up in the key, the position with the smallest key is ready. -/
theorem exists_ready (hne : rest ≠ [])
    (hup : ∀ m ∈ rest, ∀ n ∈ succs[m]?.getD [], key m < key n) :
    ∃ k ∈ rest, Ready succs rest k ∧ ∀ m ∈ rest, key k ≤ key m := by
  obtain ⟨m, l, rfl⟩ := List.exists_cons_of_ne_nil hne
  obtain ⟨k, -, hk, hle⟩ := foldl_better key l m
  refine ⟨k, hk, fun x hx hkx => ?_, hle⟩
  exact absurd (hup x hx k hkx) (Nat.not_lt.mpr (hle x hx))

/-- If leading goes up in the key, the positions come up by their keys. -/
theorem pairwise_sortFrom (hup : ∀ m ∈ rest, ∀ n ∈ succs[m]?.getD [], key m < key n) :
    (sortFrom succs key fuel rest).Pairwise fun m n => key m ≤ key n := by
  induction fuel generalizing rest with
  | zero => exact List.Pairwise.nil
  | succ fuel ih =>
    unfold sortFrom
    split
    · exact List.Pairwise.nil
    · rename_i n hn
      obtain ⟨hmem, -, hle⟩ := of_next?_eq_some hn
      refine List.pairwise_cons.mpr ⟨fun k hk => ?_, ih fun m hm => hup m (List.mem_of_mem_erase hm)⟩
      obtain ⟨x, hx, hready, hmin⟩ := exists_ready (List.ne_nil_of_mem hmem) hup
      exact Nat.le_trans (hle x hx hready) (hmin k (List.mem_of_mem_erase (sortFrom_subset k hk)))

/-! ## What a node leads to -/

variable {g : Cfg} {ns : Nodes} {join : BlockId} {node : ChainNode} {l ks : List Nat} {m n : Nat}

theorem of_target?_eq_ok {target : BlockId} {o : Option Nat}
    (h : target? ns node join target = .ok o) : (target = join ∧ o = none) ∨
      ∃ n, target ≠ join ∧ ns.nodeOf.get? target = some n ∧ (ns.get n).entry = target ∧ o = some n := by
  unfold target? at h
  split at h
  · rename_i e
    cases h
    exact .inl ⟨e, rfl⟩
  rename_i hne
  split at h
  · cases h
  rename_i n hn
  split at h
  · rename_i e
    cases h
    exact .inr ⟨n, hne, hn, e, rfl⟩
  · cases h

theorem exists_targets_of_successors (h : successors g ns join node = .ok ks) :
    ∃ ts, (leadsTo g node).mapM (target? ns node join) = .ok ts ∧ ∀ n, n ∈ ks ↔ some n ∈ ts := by
  have h : ((leadsTo g node).mapM (target? ns node join) >>= fun ts =>
      Except.ok (ts.filterMap id).eraseDups) = .ok ks := h
  obtain ⟨ts, hts, h⟩ := exists_of_bind_eq_ok h
  cases h
  exact ⟨ts, hts, fun n => by simp [List.mem_eraseDups]⟩

/-- An edge out of a node that does not lead to the join leads to the entry of a node. -/
theorem mem_of_successors (h : successors g ns join node = .ok ks) {target : BlockId}
    (ht : target ∈ leadsTo g node) (hne : target ≠ join) :
    ∃ n ∈ ks, ns.nodeOf.get? target = some n ∧ (ns.get n).entry = target := by
  obtain ⟨ts, hts, hks⟩ := exists_targets_of_successors h
  obtain ⟨o, ho, htarget⟩ := exists_mem_of_mem_mapM hts ht
  rcases of_target?_eq_ok htarget with ⟨e, -⟩ | ⟨n, -, hn, hentry, rfl⟩
  · exact absurd e hne
  · exact ⟨n, (hks n).mpr ho, hn, hentry⟩

/-- An edge leads to the entry of every node that is led to. -/
theorem of_mem_successors (h : successors g ns join node = .ok ks) (hn : n ∈ ks) :
    (ns.get n).entry ∈ leadsTo g node ∧ ns.nodeOf.get? (ns.get n).entry = some n := by
  obtain ⟨ts, hts, hks⟩ := exists_targets_of_successors h
  obtain ⟨target, ht, htarget⟩ := exists_of_mem_mapM hts _ ((hks n).mp hn)
  rcases of_target?_eq_ok htarget with ⟨-, e⟩ | ⟨k, -, hk, hentry, e⟩
  · cases e
  · cases e
    exact hentry.symm ▸ ⟨ht, hk⟩

/-! ## The order -/

/-- The position of the entry of a node in the reverse post-order. -/
def entryKey (g : Cfg) (ns : Nodes) (n : Nat) : Nat :=
  (g.rpoIndex? (ns.get n).entry).getD g.rpo.length

theorem exists_of_order (h : order g ns join = .ok l) : ∃ succs : List (List Nat),
    (∀ m < ns.size, successors g ns join (ns.get m) = .ok (succs[m]?.getD [])) ∧
      l = sortFrom succs (entryKey g ns) ns.size (List.range ns.size) := by
  obtain ⟨succs, hsuccs, h⟩ := exists_of_bind_eq_ok h
  refine ⟨succs, fun m hm => ?_, ?_⟩
  · obtain ⟨hlen, hget⟩ := List.forall₂_iff_get.mp (mapM_eq_ok_iff.mp hsuccs)
    have hm : m < ns.list.length := hm
    rw [Nodes.get_eq_getElem hm, List.getElem?_eq_getElem (hlen ▸ hm)]
    exact hget m hm (hlen ▸ hm)
  · dsimp only at h
    split at h
    · cases h
    · cases h
      rfl

theorem exists_successors (h : order g ns join = .ok l) (hm : m < ns.size) :
    ∃ ks, successors g ns join (ns.get m) = .ok ks := by
  obtain ⟨succs, hsuccs, -⟩ := exists_of_order h
  exact ⟨_, hsuccs m hm⟩

/-- A node comes up before those that it leads to. -/
theorem idxOf_lt_of_order (h : order g ns join = .ok l) (hm : m < ns.size)
    (hks : successors g ns join (ns.get m) = .ok ks) (hn : n ∈ ks) (hlt : n < ns.size) :
    l.idxOf m < l.idxOf n := by
  have hml := (mem_order h m).mpr hm
  have hnl := (mem_order h n).mpr hlt
  have hnodup := nodup_order h
  obtain ⟨succs, hsuccs, rfl⟩ := exists_of_order h
  rw [hsuccs m hm] at hks
  cases hks
  obtain ⟨pre, post, e⟩ := List.append_of_mem hnl
  have hready := ready_of_sortFrom e
  rw [e] at hml hnodup ⊢
  have hpre : m ∈ pre := (List.mem_append.mp hml).resolve_right fun hm => hready m hm hn
  have hnpre : n ∉ pre := fun hn =>
    (List.nodup_append.mp hnodup).2.2 n hn n List.mem_cons_self rfl
  rw [List.idxOf_append_of_mem hpre, List.idxOf_append_of_notMem hnpre, List.idxOf_cons_self]
  exact Nat.lt_of_lt_of_le (List.idxOf_lt_length_of_mem hpre) (Nat.le_add_right _ _)

/-- If every node leads to entries that stand later than its own, the order is that of the entries. -/
theorem pairwise_order (h : order g ns join = .ok l)
    (hup : ∀ m < ns.size, ∀ ks, successors g ns join (ns.get m) = .ok ks →
      ∀ n ∈ ks, entryKey g ns m < entryKey g ns n) :
    l.Pairwise fun m n => entryKey g ns m ≤ entryKey g ns n := by
  obtain ⟨succs, hsuccs, rfl⟩ := exists_of_order h
  refine pairwise_sortFrom fun m hm n hn => ?_
  have hm := List.mem_range.mp hm
  exact hup m hm _ (hsuccs m hm) n hn

end Chain

end Lockstep
