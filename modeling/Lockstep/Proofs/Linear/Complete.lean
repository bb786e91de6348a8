import Lockstep.Proofs.Cfg.LoopEntry
import Lockstep.Proofs.Linear.Chain
import Lockstep.Proofs.Vector.Stage

/-!
# Chains are complete

A chain holds all that the branch reaches before the join (`closed_of_blocks`), so that an edge out of
one of its nodes leads to another node or to the join. If a chain cannot be put together or put into
order, it is for a reason that lies in the function (`expected_of_order`).
-/

namespace Lockstep

namespace Cfg

/-- A block has at most two successors. -/
theorem length_succs_le {f : Func} (hf : f.Closed) (b : BlockId) :
    ((ofFunc f).succs b).length ≤ 2 := by
  have hsub : (ofFunc f).succs b ⊆ (f.term b).targets := fun c hc => ((mem_succs hf).mp hc).2
  refine Nat.le_trans (List.subperm_of_subset (nodup_succs hf b) hsub).length_le ?_
  cases f.term b <;> simp [Terminator.targets]

end Cfg

namespace Chain

variable {f : Func} {v : VectorInfo} {a : Analyses} {branch join : BlockId}

/-! ## Blocks -/

/-- What holds while blocks are collected: the successors of a block have been collected, or wait. -/
structure Collecting (g : Cfg) (join : BlockId) (stack blocks : List BlockId) : Prop where
  nodup : blocks.Nodup
  mem : ∀ b ∈ blocks, b ∈ g.rpo
  waits : ∀ b ∈ stack, b ∈ g.rpo
  closed : ∀ b ∈ blocks, ∀ c ∈ g.succs b, c = join ∨ c ∈ blocks ∨ c ∈ stack

theorem Collecting.drop {g : Cfg} {c : BlockId} {stack blocks : List BlockId}
    (h : Collecting g join (c :: stack) blocks) (hc : c = join ∨ c ∈ blocks) :
    Collecting g join stack blocks where
  nodup := h.nodup
  mem := h.mem
  waits b hb := h.waits b (List.mem_cons_of_mem _ hb)
  closed b hb d hd := by
    rcases h.closed b hb d hd with h | h | h
    · exact .inl h
    · exact .inr (.inl h)
    · rcases List.mem_cons.mp h with rfl | h
      · exact hc.imp_right .inl
      · exact .inr (.inr h)

theorem Collecting.take (hf : f.Closed) {c : BlockId} {stack blocks : List BlockId}
    (h : Collecting (.ofFunc f) join (c :: stack) blocks) (hc : c ∉ blocks) :
    Collecting (.ofFunc f) join ((Cfg.ofFunc f).succs c ++ stack) (blocks ++ [c]) where
  nodup := h.nodup.append (List.nodup_singleton c) (List.disjoint_singleton.mpr hc)
  mem b hb := by
    rcases List.mem_append.mp hb with hb | hb
    · exact h.mem b hb
    · exact List.mem_singleton.mp hb ▸ h.waits c List.mem_cons_self
  waits b hb := by
    rcases List.mem_append.mp hb with hb | hb
    · obtain ⟨hr, hb⟩ := (Cfg.mem_succs hf).mp hb
      exact (Cfg.mem_rpo hf).mpr (hr.step hb)
    · exact h.waits b (List.mem_cons_of_mem _ hb)
  closed b hb d hd := by
    rcases List.mem_append.mp hb with hb | hb
    · rcases h.closed b hb d hd with h | h | h
      · exact .inl h
      · exact .inr (.inl (List.mem_append_left _ h))
      · rcases List.mem_cons.mp h with rfl | h
        · exact .inr (.inl (List.mem_append_right _ (List.mem_singleton_self d)))
        · exact .inr (.inr (List.mem_append_right _ h))
    · rw [List.mem_singleton.mp hb] at hd
      exact .inr (.inr (List.mem_append_left _ hd))

theorem Collecting.length_lt {g : Cfg} {c : BlockId} {stack blocks : List BlockId}
    (h : Collecting g join (c :: stack) blocks) (hc : c ∉ blocks) :
    blocks.length < g.rpo.length := by
  have hsub : c :: blocks ⊆ g.rpo := by
    intro b hb
    rcases List.mem_cons.mp hb with rfl | hb
    · exact h.waits b List.mem_cons_self
    · exact h.mem b hb
  exact (List.subperm_of_subset (List.nodup_cons.mpr ⟨hc, h.nodup⟩) hsub).length_le

/-- With fuel for every block and the two edges out of it, all is collected. -/
theorem closed_of_collect (hf : f.Closed) {fuel : Nat} {stack blocks bs : List BlockId}
    (hc : Collecting (.ofFunc f) join stack blocks)
    (hfuel : stack.length + 2 * ((Cfg.ofFunc f).rpo.length - blocks.length) < fuel)
    (h : collect v (.ofFunc f) branch join fuel stack blocks = .ok bs) :
    ∀ b ∈ bs, ∀ c ∈ (Cfg.ofFunc f).succs b, c = join ∨ c ∈ bs := by
  induction fuel generalizing stack blocks with
  | zero => exact absurd hfuel (Nat.not_lt_zero _)
  | succ fuel ih =>
    cases stack with
    | nil =>
      cases h
      intro b hb c hcb
      exact (hc.closed b hb c hcb).imp_right fun h => h.resolve_right List.not_mem_nil
    | cons c stack =>
      rw [List.length_cons] at hfuel
      unfold collect at h
      split at h
      · rename_i e
        exact ih (hc.drop (.inl e)) (by omega) h
      split at h
      · cases h
      split at h
      · rename_i e
        exact ih (hc.drop (.inr (List.contains_iff_mem.mp e))) (by omega) h
      split at h
      · cases h
      split at h
      · cases h
      · rename_i hnew _ _
        have hnew : c ∉ blocks := fun h => hnew (List.contains_iff_mem.mpr h)
        refine ih (hc.take hf hnew) ?_ h
        have hlt := hc.length_lt hnew
        have hle := Cfg.length_succs_le hf c
        rw [List.length_append, List.length_append, List.length_singleton]
        omega

theorem expected_of_collect {fuel : Nat} {stack blocks : List BlockId} {e : VectorizeError}
    (h : collect v a branch join fuel stack blocks = .error e) : e.Expected := by
  induction fuel generalizing stack blocks with
  | zero => cases h
  | succ fuel ih =>
    cases stack with
    | nil => cases h
    | cons c stack =>
      unfold collect at h
      split at h
      · exact ih h
      split at h
      · cases h
        exact fun _ e => by cases e
      split at h
      · exact ih h
      split at h
      · cases h
        exact fun _ e => by cases e
      split at h
      · cases h
        exact fun _ e => by cases e
      · exact ih h

/-- An edge from a chain leads to the chain, or to the join. -/
theorem closed_of_blocks (hf : f.Closed) (hr : f.Reachable branch) {bs : List BlockId}
    (h : blocks v (.ofFunc f) branch join = .ok bs) :
    ∀ b ∈ bs, ∀ c ∈ (Cfg.ofFunc f).succs b, c = join ∨ c ∈ bs := by
  unfold blocks at h
  obtain ⟨cs, hcs, h⟩ := exists_of_bind_eq_ok h
  cases h
  have hstart : Collecting (.ofFunc f) join ((Cfg.ofFunc f).succs branch) [branch] := by
    refine ⟨List.nodup_singleton _, fun b hb => ?_, fun b hb => ?_, fun b hb c hc => ?_⟩
    · exact List.mem_singleton.mp hb ▸ (Cfg.mem_rpo hf).mpr hr
    · obtain ⟨hr, hb⟩ := (Cfg.mem_succs hf).mp hb
      exact (Cfg.mem_rpo hf).mpr (hr.step hb)
    · exact .inr (.inr (List.mem_singleton.mp hb ▸ hc))
  have hclosed := closed_of_collect hf hstart (by
    have := Cfg.length_succs_le hf branch
    show _ < 3 * (Cfg.ofFunc f).rpo.length + 3
    omega) hcs
  intro b hb c hc
  rw [List.mem_filter] at hb ⊢
  refine (hclosed b (List.contains_iff_mem.mp hb.2) c hc).imp_right fun hmem => ⟨?_, ?_⟩
  · obtain ⟨hr, hc⟩ := (Cfg.mem_succs hf).mp hc
    exact (Cfg.mem_rpo hf).mpr (hr.step hc)
  · exact List.contains_iff_mem.mpr hmem

theorem expected_of_blocks {e : VectorizeError} (h : blocks v a branch join = .error e) :
    e.Expected := by
  unfold blocks at h
  rcases of_bind_eq_error h with hc | ⟨bs, -, h⟩
  · exact expected_of_collect hc
  · cases h

/-! ## Nodes -/

theorem expected_of_loopNode {l : Loop} {bs : List BlockId} {e : VectorizeError}
    (h : loopNode l bs branch join = .error e) : e.Expected := by
  unfold loopNode at h
  by_cases hr : l.reducible = true
  · rw [hr] at h
    cases hf : l.blocks.find? fun b => !bs.contains b with
    | some outside =>
      rw [hf] at h
      cases h
      exact fun _ e => by cases e
    | none =>
      rw [hf] at h
      rcases he : l.exitEdges with - | ⟨e, - | ⟨e', es⟩⟩
      · rw [he] at h
        cases h
        exact fun _ e => by cases e
      · rw [he] at h
        cases h
      · rw [he] at h
        cases h
        exact fun _ e => by cases e
  · rw [Bool.not_eq_true] at hr
    rw [hr] at h
    cases h
    exact fun _ e => by cases e

theorem expected_of_nodes {t : LoopForest} {bs : List BlockId} {e : VectorizeError}
    (h : nodes t bs branch join = .error e) : e.Expected := by
  obtain ⟨ns, b, -, h⟩ := exists_of_foldlM_eq_error h
  unfold addBlock at h
  split at h
  · cases h
  split at h
  · cases h
  rcases of_bind_eq_error h with hn | ⟨n, -, h⟩
  · exact expected_of_loopNode hn
  · cases h

/-! ## Order -/

/-- An edge out of a chain whose blocks have nodes leads to a node. -/
theorem expected_of_target? {ns : Nodes} {node : ChainNode} {target : BlockId} {e : VectorizeError}
    (hn : target = join ∨ ns.nodeOf.contains target = true)
    (h : target? ns node join target = .error e) : e.Expected := by
  unfold target? at h
  split at h
  · cases h
  rename_i hne
  split at h
  · rename_i hnone
    have hsome := hn.resolve_left hne
    rw [Table.contains, hnone] at hsome
    cases hsome
  · split at h
    · cases h
    · cases h
      exact fun _ e => by cases e

/-- The blocks that the edges out of a node lead to. -/
def leadsTo (g : Cfg) (node : ChainNode) : List BlockId :=
  match node.loop with
  | none => g.succs node.exit
  | some (_, target) => [target]

/-- An edge out of a node leads to the chain, or to the join. -/
theorem mem_of_leadsTo (hf : f.Closed) {bs : List BlockId} {node : ChainNode}
    (hnode : IsNode (Analyses.ofFunc f).loops bs branch node)
    (hclosed : ∀ b ∈ bs, ∀ c ∈ (Cfg.ofFunc f).succs b, c = join ∨ c ∈ bs) {target : BlockId}
    (ht : target ∈ leadsTo (.ofFunc f) node) : target = join ∨ target ∈ bs := by
  obtain ⟨hentry, hnode⟩ := hnode
  unfold leadsTo at ht
  cases hl : node.loop with
  | none =>
    rw [hl] at hnode ht
    exact hclosed _ (hnode ▸ hentry) target ht
  | some l =>
    obtain ⟨inside, out⟩ := l
    rw [hl] at hnode ht
    obtain ⟨id, -, -, -, hblocks, hexit, hin⟩ := hnode
    obtain rfl := List.mem_singleton.mp ht
    have hloop : (Analyses.ofFunc f).loops.get id ∈ (Analyses.ofFunc f).loops.loops :=
      LoopForest.get_mem_of_exitEdges (by rw [hexit]; exact List.cons_ne_nil _ _)
    obtain ⟨hx, hr, hy, -⟩ := LoopForest.of_mem_exitEdges hf hloop
      (hexit ▸ List.mem_singleton_self (node.exit, target))
    exact hclosed node.exit (hin _ (hblocks ▸ hx)) target ((Cfg.mem_succs hf).mpr ⟨hr, hy⟩)

theorem exists_of_successors_eq_error {g : Cfg} {ns : Nodes} {node : ChainNode} {e : VectorizeError}
    (h : successors g ns join node = .error e) :
    ∃ target ∈ leadsTo g node, target? ns node join target = .error e := by
  have h : ((leadsTo g node).mapM (target? ns node join) >>= fun ts =>
      Except.ok (ts.filterMap id).eraseDups) = .error e := h
  rcases of_bind_eq_error h with h | ⟨ts, -, h⟩
  · exact exists_of_mapM_eq_error h
  · cases h

/-- If the nodes of a chain cannot be put into order, the function is to blame. -/
theorem expected_of_order (hf : f.Closed) (hr : f.Reachable branch) {bs : List BlockId} {ns : Nodes}
    {e : VectorizeError} (hbs : blocks v (.ofFunc f) branch join = .ok bs)
    (hns : nodes (Analyses.ofFunc f).loops bs branch join = .ok ns)
    (h : order (Cfg.ofFunc f) ns join = .error e) : e.Expected := by
  obtain ⟨hgood, hcontains⟩ := good_nodes (LoopForest.nesting_ofCfg _ _) hns
  have hclosed := closed_of_blocks hf hr hbs
  unfold order at h
  rcases of_bind_eq_error h with h | ⟨succs, -, h⟩
  · obtain ⟨node, hnode, h⟩ := exists_of_mapM_eq_error h
    obtain ⟨target, htarget, h⟩ := exists_of_successors_eq_error h
    refine expected_of_target? ?_ h
    exact (mem_of_leadsTo hf (hgood.isNode node hnode) hclosed htarget).imp_right (hcontains target)
  · dsimp only at h
    split at h
    · cases h
      exact fun _ e => by cases e
    · cases h

theorem nodup_sortFrom {succs : List (List Nat)} {key : Nat → Nat} {fuel : Nat} {rest : List Nat}
    (h : rest.Nodup) : (sortFrom succs key fuel rest).Nodup := by
  induction fuel generalizing rest with
  | zero => exact List.nodup_nil
  | succ fuel ih =>
    unfold sortFrom
    split
    · exact List.nodup_nil
    · refine List.nodup_cons.mpr ⟨fun hmem => ?_, ih (h.erase _)⟩
      exact h.not_mem_erase (sortFrom_subset _ hmem)

theorem nodup_order {g : Cfg} {ns : Nodes} {l : List Nat} (h : order g ns join = .ok l) :
    l.Nodup := by
  obtain ⟨succs, -, h⟩ := exists_of_bind_eq_ok h
  dsimp only at h
  split at h
  · cases h
  · cases h
    exact nodup_sortFrom List.nodup_range

/-- No loop of a chain is entered at the join. -/
theorem entry_ne_join {bs : List BlockId}
    (hbs : blocks v a branch join = .ok bs) {node : ChainNode} {t : LoopForest}
    (hnode : IsNode t bs branch node) (hloop : node.loop.isSome = true) : node.entry ≠ join := by
  obtain ⟨hentry, hnode⟩ := hnode
  rcases (of_mem_blocks hbs hentry).2 with hbranch | ⟨hne, -⟩
  · cases hl : node.loop with
    | none =>
      rw [hl] at hloop
      cases hloop
    | some l =>
      rw [hl] at hnode
      obtain ⟨id, -, hne, -⟩ := hnode
      exact absurd hbranch hne
  · exact hne

end Chain

end Lockstep
