import Lockstep.Proofs.Cfg.LoopNesting
import Lockstep.Proofs.Linear.Complete

/-!
# Blocks and their nodes

Each block of a chain belongs to one node. The outermost loop around a block whose header lies in the
chain is the largest such loop (`of_outermostLoop?_eq_some`), and it is that of all its blocks
(`outermostLoop?_of_mem`), so the loops of two nodes share no block, and the table of the nodes says
exactly which blocks a node stands for (`Nodes.Grouped.get?_iff`). In particular no two loops of a chain
are entered at the same block (`apart_chain`).
-/

namespace Lockstep

namespace Chain

variable {f : Func} {t : LoopForest} {branch join b c : BlockId} {bs : List BlockId} {id j : LoopId}

/-! ## The loops around a block -/

/-- A loop of the forest that is entered in the chain after the branch. -/
structure InChain (t : LoopForest) (bs : List BlockId) (branch : BlockId) (id : LoopId) : Prop where
  lt : id < t.size
  ne : (t.get id).header ≠ branch
  mem : (t.get id).header ∈ bs

/-- The loops around a block that are entered in the chain, inner ones first. -/
def chainLoops (t : LoopForest) (bs : List BlockId) (branch b : BlockId) : List LoopId :=
  (enclosing t (t.size + 1) (t.innermostOf? b)).filter fun id =>
    (t.get id).header != branch && bs.contains (t.get id).header

section Forest

variable {fuel : Nat} {o : Option LoopId} (h : t.Laminar) (hn : t.Numbered)

include h hn

theorem nesting_of_numbered : t.Nesting where
  innermost _ _ hid := ((LoopForest.innermostOf?_eq_some_iff h hn).mp hid).holds
  parent id p hp := by
    have hid := LoopForest.lt_size_of_getElem? (LoopForest.getElem?_of_parent hp)
    exact ((LoopForest.parent_eq_some_iff h hn hid).mp hp).holds.1

theorem lt_size_of_enclosing (ho : ∀ id, o = some id → id < t.size) :
    ∀ id ∈ enclosing t fuel o, id < t.size := by
  induction fuel generalizing o with
  | zero => intro id hid; cases o <;> cases hid
  | succ fuel ih =>
    cases o with
    | none => intro id hid; cases hid
    | some i =>
      intro id hid
      rcases List.mem_cons.mp hid with rfl | hid
      · exact ho id rfl
      · have hi : i < t.size := ho i rfl
        exact ih (fun p hp => ((LoopForest.parent_eq_some_iff h hn hi).mp hp).lt) id hid

/-- Every loop that holds the blocks of a loop comes up on the way out of it. -/
theorem mem_enclosing (hid : id < t.size) (hj : j < t.size)
    (hsub : (t.get id).blocks ⊆ (t.get j).blocks) (hfuel : id < fuel) :
    j ∈ enclosing t fuel (some id) := by
  induction fuel generalizing id with
  | zero => exact absurd hfuel (Nat.not_lt_zero _)
  | succ fuel ih =>
    rcases h.eq_or_strictlyWithin hj hid hsub with rfl | hw
    · exact List.mem_cons_self
    · obtain ⟨p, hp⟩ := LoopForest.exists_isSmallest h (fun l hl => hl.1 (h.header_mem_get hid)) hj hw
      have hlt := h.lt_of_strictlyWithin hp.lt hid hp.holds
      refine List.mem_cons_of_mem id ?_
      rw [(LoopForest.parent_eq_some_iff h hn hid).mpr hp]
      exact ih hp.lt (hp.within j hj hw) (Nat.lt_of_lt_of_le hlt (Nat.lt_succ_iff.mp hfuel))

/-- The way out of a loop goes from smaller loops to larger ones. -/
theorem pairwise_enclosing :
    (enclosing t fuel o).Pairwise fun i j => (t.get i).blocks ⊆ (t.get j).blocks := by
  have hs := nesting_of_numbered h hn
  induction fuel generalizing o with
  | zero => cases o <;> exact List.Pairwise.nil
  | succ fuel ih =>
    cases o with
    | none => exact List.Pairwise.nil
    | some id =>
      refine List.pairwise_cons.mpr ⟨fun j hj b hb => ?_, ih⟩
      exact mem_of_enclosing hs (fun p hp => hs.parent id p hp b hb) j hj

/-! ## The outermost loop in the chain -/

theorem mem_chainLoops :
    id ∈ chainLoops t bs branch b ↔ b ∈ (t.get id).blocks ∧ InChain t bs branch id := by
  have hs := nesting_of_numbered h hn
  rw [chainLoops, List.mem_filter, Bool.and_eq_true, bne_iff_ne, List.contains_iff_mem]
  constructor
  · rintro ⟨hid, hne, hmem⟩
    refine ⟨mem_of_enclosing hs (hs.innermost b) id hid, ?_, hne, hmem⟩
    exact lt_size_of_enclosing h hn
      (fun i hi => ((LoopForest.innermostOf?_eq_some_iff h hn).mp hi).lt) id hid
  · rintro ⟨hb, hid⟩
    obtain ⟨i, hi⟩ := LoopForest.exists_isSmallest h (P := (b ∈ ·.blocks)) (fun _ hl => hl) hid.lt hb
    refine ⟨?_, hid.ne, hid.mem⟩
    rw [(LoopForest.innermostOf?_eq_some_iff h hn).mpr hi]
    exact mem_enclosing h hn hi.lt hid.lt (hi.within id hid.lt hb) (Nat.lt_succ_of_lt hi.lt)

/-- The outermost loop is the largest of the loops around the block that are entered in the chain. -/
theorem of_outermostLoop?_eq_some (ho : outermostLoop? t bs branch b = some id) :
    (b ∈ (t.get id).blocks ∧ InChain t bs branch id) ∧ ∀ j, b ∈ (t.get j).blocks →
      InChain t bs branch j → (t.get j).blocks ⊆ (t.get id).blocks := by
  have ho : (chainLoops t bs branch b).getLast? = some id := ho
  refine ⟨(mem_chainLoops h hn).mp (List.mem_of_getLast? ho), fun j hb hj => ?_⟩
  have hmem : j ∈ chainLoops t bs branch b := (mem_chainLoops h hn).mpr ⟨hb, hj⟩
  have hpair : (chainLoops t bs branch b).Pairwise fun i j => (t.get i).blocks ⊆ (t.get j).blocks :=
    (pairwise_enclosing h hn).filter _
  obtain ⟨inner, e⟩ := List.getLast?_eq_some_iff.mp ho
  rw [e] at hpair hmem
  rcases List.mem_append.mp hmem with hj | hj
  · exact (List.pairwise_append.mp hpair).2.2 j hj id (List.mem_singleton_self id)
  · rw [List.mem_singleton.mp hj]
    exact fun _ hx => hx

theorem not_inChain_of_outermostLoop?_eq_none (ho : outermostLoop? t bs branch b = none)
    (hb : b ∈ (t.get j).blocks) : ¬ InChain t bs branch j := by
  intro hj
  have ho : (chainLoops t bs branch b).getLast? = none := ho
  have hmem := (mem_chainLoops h hn).mpr ⟨hb, hj⟩
  rw [List.getLast?_eq_none_iff.mp ho] at hmem
  cases hmem

/-- All blocks of an outermost loop have it as theirs. -/
theorem outermostLoop?_of_mem (ho : outermostLoop? t bs branch b = some id)
    (hc : c ∈ (t.get id).blocks) : outermostLoop? t bs branch c = some id := by
  obtain ⟨⟨hb, hid⟩, hmax⟩ := of_outermostLoop?_eq_some h hn ho
  cases hc' : outermostLoop? t bs branch c with
  | none => exact absurd hid (not_inChain_of_outermostLoop?_eq_none h hn hc' hc)
  | some i =>
    obtain ⟨⟨-, hi⟩, hmax'⟩ := of_outermostLoop?_eq_some h hn hc'
    have hsub := hmax' id hc hid
    rcases h.eq_or_strictlyWithin hi.lt hid.lt hsub with rfl | hw
    · rfl
    · exact absurd (hmax i (hsub hb) hi) hw.2

end Forest

/-! ## What a node is -/

/-- A node is a single block, or a reducible loop in the chain with one exit edge. -/
theorem IsNode.single_or_loop {node : ChainNode}
    (h : IsNode (Analyses.ofFunc f).loops bs branch node) :
    (node.loop = none ∧ node.exit = node.entry) ∨ ∃ k ∈ (Analyses.ofFunc f).loops.loops, ∃ target,
      node.loop = some (k.blocks, target) ∧ k.header = node.entry ∧ k.reducible = true ∧
        k.exitEdges = [(node.exit, target)] ∧ ∀ b ∈ k.blocks, b ∈ bs := by
  obtain ⟨-, h⟩ := h
  split at h
  · rename_i hl
    exact .inl ⟨hl, h⟩
  · rename_i inside target hl
    obtain ⟨id, hhead, -, hred, rfl, hexit, hin⟩ := h
    have hk : (Analyses.ofFunc f).loops.get id ∈ (Analyses.ofFunc f).loops.loops :=
      LoopForest.get_mem_of_exitEdges (by rw [hexit]; exact List.cons_ne_nil _ _)
    exact .inr ⟨_, hk, target, hl, hhead, hred, hexit, hin⟩

theorem covers_of_loop_eq_none {node : ChainNode} (hl : node.loop = none) :
    Covers node b ↔ b = node.entry := by
  rw [Covers, hl]

theorem covers_of_loop_eq_some {node : ChainNode} {inside : List BlockId} {target : BlockId}
    (hl : node.loop = some (inside, target)) : Covers node b ↔ b ∈ inside := by
  rw [Covers, hl]

section Node

variable {node : ChainNode} (h : IsNode (Analyses.ofFunc f).loops bs branch node)

include h

theorem IsNode.covers_entry : Covers node node.entry := by
  rcases h.single_or_loop with ⟨hl, -⟩ | ⟨k, hk, target, hl, hhead, -⟩
  · exact (covers_of_loop_eq_none hl).mpr rfl
  · exact (covers_of_loop_eq_some hl).mpr (hhead ▸ LoopForest.header_mem hk)

theorem IsNode.mem_of_covers (hb : Covers node b) : b ∈ bs := by
  rcases h.single_or_loop with ⟨hl, -⟩ | ⟨k, hk, target, hl, -, -, -, hin⟩
  · exact (covers_of_loop_eq_none hl).mp hb ▸ h.1
  · exact hin b ((covers_of_loop_eq_some hl).mp hb)

/-- The entry of a node dominates its blocks. -/
theorem IsNode.dominates_entry (hf : f.Closed) (hb : Covers node b) : f.Dominates node.entry b := by
  rcases h.single_or_loop with ⟨hl, -⟩ | ⟨k, hk, target, hl, hhead, hred, -⟩
  · exact fun _ => (covers_of_loop_eq_none hl).mp hb
  · exact hhead ▸ LoopForest.dominates_header hf hk hred ((covers_of_loop_eq_some hl).mp hb)

/-- An edge that leaves a node is one of those that the node leads along. -/
theorem IsNode.mem_leadsTo (hf : f.Closed) (hr : f.Reachable b) (hb : Covers node b)
    (hc : ¬ Covers node c) (hbc : c ∈ (f.term b).targets) : c ∈ leadsTo (.ofFunc f) node := by
  rcases h.single_or_loop with ⟨hl, hexit⟩ | ⟨k, hk, target, hl, -, -, hexit, -⟩
  · rw [leadsTo, hl, hexit, ← (covers_of_loop_eq_none hl).mp hb]
    exact (Cfg.mem_succs hf).mpr ⟨hr, hbc⟩
  · have hmem := LoopForest.mem_exitEdges hf hk hr ((covers_of_loop_eq_some hl).mp hb)
      (fun hmem => hc ((covers_of_loop_eq_some hl).mpr hmem)) hbc
    rw [hexit] at hmem
    obtain ⟨-, rfl⟩ := Prod.mk.inj (List.mem_singleton.mp hmem)
    rw [leadsTo, hl]
    exact List.mem_singleton_self c

/-- A node leads along edges of its blocks. -/
theorem IsNode.exists_of_mem_leadsTo (hf : f.Closed) (hc : c ∈ leadsTo (.ofFunc f) node) :
    ∃ b, Covers node b ∧ c ∈ (f.term b).targets := by
  rcases h.single_or_loop with ⟨hl, hexit⟩ | ⟨k, hk, target, hl, -, -, hexit, -⟩
  · rw [leadsTo, hl, hexit] at hc
    exact ⟨_, h.covers_entry, ((Cfg.mem_succs hf).mp hc).2⟩
  · rw [leadsTo, hl] at hc
    obtain rfl := List.mem_singleton.mp hc
    obtain ⟨hx, -, hy, -⟩ := LoopForest.of_mem_exitEdges hf hk
      (hexit ▸ List.mem_singleton_self (node.exit, c))
    exact ⟨_, (covers_of_loop_eq_some hl).mpr hx, hy⟩

end Node

/-! ## The nodes of a chain -/

/-- What a node stands for: a block that no loop of the chain holds, or the outermost loop around its
blocks. -/
def IsGroup (t : LoopForest) (bs : List BlockId) (branch : BlockId) (n : ChainNode) : Prop :=
  match n.loop with
  | none => outermostLoop? t bs branch n.entry = none
  | some (inside, _) => ∃ id, outermostLoop? t bs branch n.entry = some id ∧ (t.get id).blocks = inside

/-- The table says which node stands for a block, and no two nodes stand for the same one. -/
structure Nodes.Grouped (t : LoopForest) (bs : List BlockId) (branch : BlockId) (ns : Nodes) :
    Prop where
  group : ∀ n ∈ ns.list, IsGroup t bs branch n
  recorded : ∀ n ∈ ns.list, ∀ b, Covers n b → ns.nodeOf.contains b = true
  of_get? : ∀ b k, ns.nodeOf.get? b = some k → k < ns.size ∧ Covers (ns.get k) b
  apart : ns.list.Pairwise fun m n => ∀ b, Covers m b → ¬ Covers n b

theorem get_add_of_lt {ns : Nodes} {n : ChainNode} {cs : List BlockId} {k : Nat} (hk : k < ns.size) :
    (ns.add n cs).get k = ns.get k := by
  show ((ns.list ++ [n])[k]?).getD default = _
  rw [List.getElem?_append_left hk]
  rfl

theorem get_add_self {ns : Nodes} {n : ChainNode} {cs : List BlockId} :
    (ns.add n cs).get ns.size = n := by
  show ((ns.list ++ [n])[ns.list.length]?).getD default = _
  rw [List.getElem?_concat_length]
  rfl

theorem size_add (ns : Nodes) (n : ChainNode) (cs : List BlockId) :
    (ns.add n cs).size = ns.size + 1 := by
  show (ns.list ++ [n]).length = _
  rw [List.length_append]
  rfl

/-- A node for blocks that no node stands for. -/
theorem Nodes.Grouped.add {ns : Nodes} (h : ns.Grouped t bs branch) {n : ChainNode}
    {cs : List BlockId} (hn : IsGroup t bs branch n) (hc : ∀ b, Covers n b ↔ b ∈ cs)
    (hnew : ∀ m ∈ ns.list, ∀ b, Covers m b → ¬ Covers n b) : (ns.add n cs).Grouped t bs branch where
  group m hm := by
    rcases List.mem_append.mp hm with hm | hm
    · exact h.group m hm
    · exact List.mem_singleton.mp hm ▸ hn
  recorded m hm b hb := by
    rw [contains_add, Bool.or_eq_true]
    rcases List.mem_append.mp hm with hm | hm
    · exact .inl (h.recorded m hm b hb)
    · exact .inr (List.contains_iff_mem.mpr ((hc b).mp (List.mem_singleton.mp hm ▸ hb)))
  of_get? b k hk := by
    have hk : (cs.foldl (fun t b => t.set b ns.size) ns.nodeOf).get? b = some k := hk
    rw [LoopForest.get?_foldl_set] at hk
    rw [size_add]
    split at hk
    · rename_i hb
      cases hk
      rw [get_add_self]
      exact ⟨Nat.lt_succ_self _, (hc b).mpr hb⟩
    · obtain ⟨hlt, hcov⟩ := h.of_get? b k hk
      rw [get_add_of_lt hlt]
      exact ⟨Nat.lt_succ_of_lt hlt, hcov⟩
  apart := by
    refine List.pairwise_append.mpr ⟨h.apart, List.pairwise_singleton _ _, fun m hm k hk => ?_⟩
    exact List.mem_singleton.mp hk ▸ hnew m hm

section Forest

variable (h : t.Laminar) (hn : t.Numbered)

include h hn

/-- A node stands for all blocks whose outermost loop is that of one of them. -/
theorem IsGroup.covers_of_outermostLoop? {n : ChainNode} (hg : IsGroup t bs branch n)
    (hc : Covers n c) (ho : outermostLoop? t bs branch c = some id) (hb : b ∈ (t.get id).blocks) :
    Covers n b := by
  cases hl : n.loop with
  | none =>
    rw [IsGroup, hl] at hg
    rw [(covers_of_loop_eq_none hl).mp hc, hg] at ho
    cases ho
  | some l =>
    obtain ⟨inside, target⟩ := l
    rw [IsGroup, hl] at hg
    obtain ⟨i, hi, rfl⟩ := hg
    rw [outermostLoop?_of_mem h hn hi ((covers_of_loop_eq_some hl).mp hc)] at ho
    cases ho
    exact (covers_of_loop_eq_some hl).mpr hb

theorem Nodes.Grouped.addBlock {ns ns' : Nodes} (hg : ns.Grouped t bs branch)
    (e : Chain.addBlock t bs branch join ns b = .ok ns') : ns'.Grouped t bs branch := by
  unfold Chain.addBlock at e
  split at e
  · cases e
    exact hg
  rename_i hnew
  have hnew : ∀ m ∈ ns.list, ¬ Covers m b := fun m hm hb => hnew (hg.recorded m hm b hb)
  split at e
  · rename_i ho
    cases e
    refine hg.add ho (fun c => List.mem_singleton.symm) fun m hm c hc hcb => hnew m hm ?_
    exact (show c = b from hcb) ▸ hc
  · rename_i id ho
    obtain ⟨n, hnode, e⟩ := exists_of_bind_eq_ok e
    cases e
    obtain ⟨-, -, exit, target, -, rfl⟩ := of_loopNode hnode
    obtain ⟨⟨hb, hid⟩, -⟩ := of_outermostLoop?_eq_some h hn ho
    have hall : ∀ c ∈ (t.get id).blocks, outermostLoop? t bs branch c = some id :=
      fun c hc => outermostLoop?_of_mem h hn ho hc
    refine hg.add ⟨id, hall _ (h.header_mem_get hid.lt), rfl⟩ (fun c => Iff.rfl) fun m hm c hc hcn => ?_
    exact hnew m hm ((hg.group m hm).covers_of_outermostLoop? h hn hc (hall c hcn) hb)

theorem grouped_nodes {ns : Nodes} (e : nodes t bs branch join = .ok ns) :
    ns.Grouped t bs branch := by
  refine of_foldlM_eq_ok (J := fun _ (ns : Nodes) => ns.Grouped t bs branch) e ?_ ?_
  · exact ⟨fun n hn => (by cases hn), fun n hn => (by cases hn), fun b k hk => (by cases hk),
      List.Pairwise.nil⟩
  · exact fun b rest ns ns' _ e hg => hg.addBlock h hn e

end Forest

/-- No two nodes stand for the same block. -/
theorem Nodes.Grouped.eq_of_covers {ns : Nodes} (h : ns.Grouped t bs branch) {m n : Nat}
    (hm : m < ns.size) (hn : n < ns.size) (hmb : Covers (ns.get m) b) (hnb : Covers (ns.get n) b) :
    m = n := by
  have hapart := List.pairwise_iff_getElem.mp h.apart
  rw [Nodes.get_eq_getElem hm] at hmb
  rw [Nodes.get_eq_getElem hn] at hnb
  rcases Nat.lt_trichotomy m n with hlt | e | hlt
  · exact absurd hnb (hapart m n hm hn hlt b hmb)
  · exact e
  · exact absurd hmb (hapart n m hn hm hlt b hnb)

/-- The table gives for a block the node that stands for it. -/
theorem Nodes.Grouped.get?_iff {ns : Nodes} (h : ns.Grouped t bs branch) {k : Nat} :
    ns.nodeOf.get? b = some k ↔ k < ns.size ∧ Covers (ns.get k) b := by
  refine ⟨h.of_get? b k, fun ⟨hk, hb⟩ => ?_⟩
  have hc := h.recorded _ (Nodes.get_mem hk) b hb
  rw [Table.contains, Option.isSome_iff_exists] at hc
  obtain ⟨k', hk'⟩ := hc
  obtain ⟨hlt, hb'⟩ := h.of_get? b k' hk'
  rw [hk', h.eq_of_covers hlt hk hb' hb]

/-- Nodes that, if both are loops, are entered at different blocks. -/
def Apart (m n : ChainNode) : Prop := m.loop.isSome = true → n.loop.isSome = true → m.entry ≠ n.entry

/-- The loops of a chain are entered at different blocks. -/
theorem apart_chain {g : Cfg} {ns : Nodes} {l : List Nat}
    (hns : nodes (Analyses.ofFunc f).loops bs branch join = .ok ns)
    (h : order g ns join = .ok l) : (l.map ns.get).Pairwise Apart := by
  have hg := grouped_nodes (LoopForest.laminar_ofFunc f) (LoopForest.numbered_ofCfg _ _) hns
  have hlt : ∀ {n}, n ∈ l → n < ns.size := fun hn => (mem_order h _).mp hn
  have hentry : ∀ {n}, n ∈ l → Covers (ns.get n) (ns.get n).entry := fun hn =>
    ((good_nodes (LoopForest.nesting_ofCfg _ _) hns).1.isNode _ (Nodes.get_mem (hlt hn))).covers_entry
  refine List.pairwise_map.mpr ((nodup_order h).pairwise_of_forall_ne ?_)
  exact fun m hm n hn hne _ _ e =>
    hne (hg.eq_of_covers (hlt hm) (hlt hn) (hentry hm) (e ▸ hentry hn))

end Chain

end Lockstep
