import Lockstep.Proofs.Cfg.LoopNesting
import Lockstep.Proofs.Cfg.PostDominatorTree
import Lockstep.Proofs.Cfg.ReversePostOrder
import Lockstep.Proofs.Linear.Branch
import Lockstep.Proofs.Linear.Group
import Lockstep.Proofs.Linear.Order

/-!
# Chains follow the program

A chain that is put into order begins with its branch and goes along the edges between its nodes
(`Computed.idxOf_lt_of_edge`). Since control comes from the branch to every block of the chain without
leaving it, a block also comes before those that it dominates.

The order is that of the reverse post-order unless an edge between two nodes goes back in it. Such an
edge closes a cycle, and the smallest loop around that cycle has its header on it. A header in the
chain would make one node of the two, and the header of a reducible loop outside would stand before
the blocks of the chain in the loop. What is left is an irreducible loop that runs through the chain
and has its header outside (`EnteredAside`), which is not looked at when the chain is put together.
-/

namespace Lockstep

namespace Chain

variable {f : Func} {v : VectorInfo} {branch join b c : BlockId} {bs : List BlockId} {ns : Nodes}
  {l : List Nat} {m n : Nat}

/-! ## Ways through a chain -/

/-- Control comes to collected blocks, and to those that wait, through collected ones. -/
theorem path_of_collect (hf : f.Closed) {fuel : Nat} {stack blocks : List BlockId}
    (h : collect v (.ofFunc f) branch join fuel stack blocks = .ok bs)
    (hblocks : ∀ b ∈ blocks, f.Path (· ∈ blocks) branch b)
    (hstack : ∀ b ∈ stack, f.Path (· ∈ blocks) branch b) : ∀ b ∈ bs, f.Path (· ∈ bs) branch b := by
  induction fuel generalizing stack blocks with
  | zero =>
    cases h
    exact hblocks
  | succ fuel ih =>
    cases stack with
    | nil =>
      cases h
      exact hblocks
    | cons c stack =>
      have hrest : ∀ b ∈ stack, f.Path (· ∈ blocks) branch b :=
        fun b hb => hstack b (List.mem_cons_of_mem _ hb)
      unfold collect at h
      split at h
      · exact ih h hblocks hrest
      split at h
      · cases h
      split at h
      · exact ih h hblocks hrest
      split at h
      · cases h
      split at h
      · cases h
      have hmono : ∀ {b}, f.Path (· ∈ blocks) branch b → f.Path (· ∈ blocks ++ [c]) branch b :=
        fun hp => hp.mono fun _ hx => List.mem_append_left _ hx
      have hc := hmono (hstack c List.mem_cons_self)
      refine ih h (fun b hb => ?_) fun b hb => ?_
      · rcases List.mem_append.mp hb with hb | hb
        · exact hmono (hblocks b hb)
        · exact List.mem_singleton.mp hb ▸ hc
      · rcases List.mem_append.mp hb with hb | hb
        · exact hc.tail (List.mem_append_right _ (List.mem_singleton_self c)) ((Cfg.mem_succs hf).mp hb).2
        · exact hmono (hrest b hb)

/-- Control comes from the branch to the blocks of its chain without leaving it. -/
theorem path_of_mem_blocks (hf : f.Closed) (hr : f.Reachable branch)
    (h : blocks v (.ofFunc f) branch join = .ok bs) (hb : b ∈ bs) : f.Path (· ∈ bs) branch b := by
  unfold blocks at h
  obtain ⟨cs, hcs, h⟩ := exists_of_bind_eq_ok h
  cases h
  have hpath := path_of_collect hf hcs
    (fun b hb => by rw [List.mem_singleton.mp hb]; exact .refl branch)
    fun b hb => .step (List.mem_singleton_self branch) ((Cfg.mem_succs hf).mp hb).2
  refine (hpath b (List.contains_iff_mem.mp (List.mem_filter.mp hb).2)).mono fun x hx => ?_
  refine List.mem_filter.mpr ⟨(Cfg.mem_rpo hf).mpr ?_, List.contains_iff_mem.mpr hx⟩
  exact Search.Reach.trans hr (Search.Reach.of_path (hpath x hx))

/-! ## What is computed -/

/-- What is computed of the chain of a branch before anything is changed. -/
structure Computed (v : VectorInfo) (f : Func) (branch join : BlockId) (bs : List BlockId)
    (ns : Nodes) (l : List Nat) : Prop where
  parent : (Analyses.ofFunc f).postDom.parent? branch = some join
  blocks : Chain.blocks v (.ofFunc f) branch join = .ok bs
  nodes : Chain.nodes (Analyses.ofFunc f).loops bs branch join = .ok ns
  order : Chain.order (Cfg.ofFunc f) ns join = .ok l

namespace Computed

variable (h : Computed v f branch join bs ns l)

include h

theorem isNode (hn : n < ns.size) : IsNode (Analyses.ofFunc f).loops bs branch (ns.get n) :=
  (good_nodes (LoopForest.nesting_ofCfg _ _) h.nodes).1.isNode _ (Nodes.get_mem hn)

theorem grouped : ns.Grouped (Analyses.ofFunc f).loops bs branch :=
  grouped_nodes (LoopForest.laminar_ofFunc f) (LoopForest.numbered_ofCfg _ _) h.nodes

theorem exists_node (hb : b ∈ bs) : ∃ n < ns.size, Covers (ns.get n) b := by
  have hc := (good_nodes (LoopForest.nesting_ofCfg _ _) h.nodes).2 b hb
  obtain ⟨n, hn⟩ := Option.isSome_iff_exists.mp hc
  exact ⟨n, h.grouped.of_get? b n hn⟩

variable (hf : f.Closed)

include hf

theorem join_notMem : join ∉ bs := by
  intro hmem
  obtain ⟨idoms, -, hr⟩ := Cfg.reads_postDominators hf
  rcases (of_mem_blocks h.blocks hmem).2 with e | ⟨hne, -⟩
  · exact (hr.parent?_eq_some_iff.mp h.parent).1 e
  · exact hne rfl

theorem reachable_of_mem (hb : b ∈ bs) : f.Reachable b :=
  (Cfg.mem_rpo hf).mp (of_mem_blocks h.blocks hb).1

theorem path_of_mem (hb : b ∈ bs) : f.Path (· ∈ bs) branch b :=
  path_of_mem_blocks hf (Cfg.reachable_of_postDom_parent? hf h.parent).1 h.blocks hb

theorem dominates_of_mem (hb : b ∈ bs) : f.Dominates branch b := by
  rcases (of_mem_blocks h.blocks hb).2 with rfl | ⟨-, -, -, hd⟩
  · exact fun _ => rfl
  · exact Cfg.dominates_of_dominators hf hd

theorem exists_branchNode : ∃ k < ns.size, ns.get k = { entry := branch, exit := branch } := by
  have hr := (Cfg.reachable_of_postDom_parent? hf h.parent).1
  obtain ⟨node, hmem, hexit, hloop⟩ :=
    Chain.exists_branchNode h.blocks ((Cfg.mem_rpo hf).mpr hr) h.nodes
  obtain ⟨k, hk, e⟩ := List.getElem_of_mem hmem
  have hget : ns.get k = node := (Nodes.get_eq_getElem hk).trans e
  refine ⟨k, hk, hget.trans ?_⟩
  rcases (hget ▸ h.isNode hk).single_or_loop with ⟨-, hentry⟩ | ⟨_, _, _, hl, -⟩
  · obtain ⟨entry, exit, loop⟩ := node
    obtain rfl : exit = branch := hexit
    obtain rfl : exit = entry := hentry
    obtain rfl : loop = none := hloop
    rfl
  · rw [hloop] at hl
    cases hl

/-! ## Along edges -/

/-- An edge between two nodes leads from the earlier one to the later one. -/
theorem idxOf_lt_of_edge (hm : m < ns.size) (hn : n < ns.size) (hne : m ≠ n)
    (hb : Covers (ns.get m) b) (hc : Covers (ns.get n) c) (hbc : c ∈ (f.term b).targets) :
    l.idxOf m < l.idxOf n := by
  have hg := h.grouped
  have hbs := (h.isNode hm).mem_of_covers hb
  have hcs := (h.isNode hn).mem_of_covers hc
  obtain ⟨ks, hks⟩ := exists_successors h.order hm
  have hleads := (h.isNode hm).mem_leadsTo hf (h.reachable_of_mem hf hbs) hb
    (fun hmc => hne (hg.eq_of_covers hm hn hmc hc)) hbc
  obtain ⟨k, hk, hget, -⟩ := mem_of_successors hks hleads fun e => h.join_notMem hf (e ▸ hcs)
  rw [hg.get?_iff.mpr ⟨hn, hc⟩] at hget
  cases hget
  exact idxOf_lt_of_order h.order hm hks hk hn

/-- A way through the chain does not go back to an earlier node. -/
theorem idxOf_le_of_path (hp : f.Path (· ∈ bs) b c) (hm : m < ns.size) (hn : n < ns.size)
    (hb : Covers (ns.get m) b) (hc : Covers (ns.get n) c) : l.idxOf m ≤ l.idxOf n := by
  have key : ∀ k < ns.size, Covers (ns.get k) c → l.idxOf m ≤ l.idxOf k := by
    refine hp.induct (R := fun x => ∀ k < ns.size, Covers (ns.get k) x → l.idxOf m ≤ l.idxOf k)
      (fun k hk hkb => ?_) fun x y hx ih hxy k hk hky => ?_
    · rw [h.grouped.eq_of_covers hm hk hb hkb]
    · obtain ⟨i, hi, hix⟩ := h.exists_node hx
      refine Nat.le_trans (ih i hi hix) ?_
      by_cases e : i = k
      · rw [e]
      · exact Nat.le_of_lt (h.idxOf_lt_of_edge hf hi hk e hix hky hxy)
  exact key n hn hc

/-- The branch comes first: an edge would lead back to any other node from a later one. -/
theorem exists_eq_cons : ∃ k rest, l = k :: rest ∧ ns.get k = { entry := branch, exit := branch } := by
  obtain ⟨k, hk, hbranch⟩ := h.exists_branchNode hf
  cases l with
  | nil => cases (mem_order h.order k).mpr hk
  | cons n rest =>
    have hn : n < ns.size := (mem_order h.order n).mp List.mem_cons_self
    have hcov : Covers (ns.get k) branch := by rw [hbranch]; exact rfl
    have hentry := (h.isNode hn).covers_entry
    have hp := h.path_of_mem hf ((h.isNode hn).mem_of_covers hentry)
    have hle := h.idxOf_le_of_path hf hp hk hn hcov hentry
    rw [List.idxOf_cons_self, Nat.le_zero, List.idxOf_eq_zero_iff_eq_nil_or_head_eq] at hle
    obtain rfl : n = k := by simpa using hle
    exact ⟨n, rest, rfl, hbranch⟩

/-- Control comes from a block of the chain to those that it dominates without leaving the chain. -/
theorem path_of_dominates (hb : b ∈ bs) (hc : c ∈ bs) (hbc : f.Dominates b c) :
    f.Path (· ∈ bs) b c := by
  rcases (h.path_of_mem hf hc).avoid_or_last (· = b) with havoid | ⟨x, y, -, hx, rfl, hy, hp⟩
  · by_cases e : b = branch
    · exact e ▸ h.path_of_mem hf hc
    · -- a way to the branch that avoids `b` would go on to `c`
      have hnot : ¬ f.Dominates b branch := fun hd => e <| DomTree.dominates_antisymm
        ((Cfg.dominates_dominators_iff hf).mpr
          ⟨⟨h.reachable_of_mem hf hb, (Cfg.reachable_of_postDom_parent? hf h.parent).1⟩, hd⟩)
        ((Cfg.dominates_dominators_iff hf).mpr
          ⟨⟨(Cfg.reachable_of_postDom_parent? hf h.parent).1, h.reachable_of_mem hf hb⟩,
            h.dominates_of_mem hf hb⟩)
      rw [Func.Dominates, Classical.not_imp] at hnot
      rw [hbc (hnot.1.trans (havoid.mono fun _ hx => hx.2))]
      exact .refl b
  · exact .head hx hy (hp.mono fun _ hx => hx.1)

/-- A block comes before those that it dominates. -/
theorem idxOf_lt_of_dominates (hm : m < ns.size) (hn : n < ns.size) (hne : m ≠ n)
    (hb : Covers (ns.get m) b) (hc : Covers (ns.get n) c) (hbc : f.Dominates b c) :
    l.idxOf m < l.idxOf n := by
  have hp := h.path_of_dominates hf ((h.isNode hm).mem_of_covers hb)
    ((h.isNode hn).mem_of_covers hc) hbc
  refine Nat.lt_of_le_of_ne (h.idxOf_le_of_path hf hp hm hn hb hc) fun e => hne ?_
  exact (List.idxOf_inj ((mem_order h.order m).mpr hm)).mp e

end Computed

/-! ## The order of the program -/

/-- The nodes of a chain in an order that begins with the branch, goes along the edges, and puts a
block before those that it dominates. -/
structure ProgramOrder (f : Func) (branch : BlockId) (bs : List BlockId) (ns : Nodes)
    (l : List Nat) : Prop where
  perm : l.Perm (List.range ns.size)
  covers : ∀ b, b ∈ bs ↔ ∃ n ∈ l, Covers (ns.get n) b
  unique : ∀ m ∈ l, ∀ n ∈ l, ∀ b, Covers (ns.get m) b → Covers (ns.get n) b → m = n
  head : ∃ k rest, l = k :: rest ∧ ns.get k = { entry := branch, exit := branch }
  forward : ∀ m ∈ l, ∀ n ∈ l, m ≠ n → ∀ b c, Covers (ns.get m) b → Covers (ns.get n) c →
    c ∈ (f.term b).targets → l.idxOf m < l.idxOf n
  dominated : ∀ m ∈ l, ∀ n ∈ l, m ≠ n → ∀ b c, Covers (ns.get m) b → Covers (ns.get n) c →
    f.Dominates b c → l.idxOf m < l.idxOf n

theorem Computed.programOrder (h : Computed v f branch join bs ns l) (hf : f.Closed) :
    ProgramOrder f branch bs ns l := by
  have hlt : ∀ {n}, n ∈ l → n < ns.size := fun hn => (mem_order h.order _).mp hn
  exact {
    perm := (List.perm_ext_iff_of_nodup (nodup_order h.order) List.nodup_range).mpr fun n => by
      rw [mem_order h.order, List.mem_range]
    covers := fun b => by
      constructor
      · intro hb
        obtain ⟨n, hn, hc⟩ := h.exists_node hb
        exact ⟨n, (mem_order h.order n).mpr hn, hc⟩
      · rintro ⟨n, hn, hc⟩
        exact (h.isNode (hlt hn)).mem_of_covers hc
    unique := fun m hm n hn b => h.grouped.eq_of_covers (hlt hm) (hlt hn)
    head := h.exists_eq_cons hf
    forward := fun m hm n hn hne b c => h.idxOf_lt_of_edge hf (hlt hm) (hlt hn) hne
    dominated := fun m hm n hn hne b c => h.idxOf_lt_of_dominates hf (hlt hm) (hlt hn) hne }

/-! ## The reverse post-order -/

/-- An irreducible loop runs through the blocks and has its header outside. -/
def EnteredAside (f : Func) (bs : List BlockId) : Prop :=
  ∃ k ∈ (Analyses.ofFunc f).loops.loops, k.reducible = false ∧ k.header ∉ bs ∧ ∃ b ∈ k.blocks, b ∈ bs

namespace Computed

variable (h : Computed v f branch join bs ns l)

include h

/-- The blocks of a loop that is entered in the chain after the branch belong to one node. -/
theorem covers_of_inChain {id : LoopId}
    (hid : InChain (Analyses.ofFunc f).loops bs branch id) (hm : m < ns.size)
    (hb : Covers (ns.get m) b) (hbid : b ∈ ((Analyses.ofFunc f).loops.get id).blocks)
    (hcid : c ∈ ((Analyses.ofFunc f).loops.get id).blocks) : Covers (ns.get m) c := by
  have hl := LoopForest.laminar_ofFunc f
  have hnum : (Analyses.ofFunc f).loops.Numbered := LoopForest.numbered_ofCfg _ _
  cases ho : outermostLoop? (Analyses.ofFunc f).loops bs branch b with
  | none => exact absurd hid (not_inChain_of_outermostLoop?_eq_none hl hnum ho hbid)
  | some k =>
    have hmax := (of_outermostLoop?_eq_some hl hnum ho).2 id hbid hid
    exact (h.grouped.group _ (Nodes.get_mem hm)).covers_of_outermostLoop? hl hnum hb ho (hmax hcid)

variable (hf : f.Closed)

include hf

/-- No edge of the chain leads back to the branch. -/
theorem entry_ne_branch (hm : m < ns.size) (hn : n < ns.size) (hne : m ≠ n)
    (hb : Covers (ns.get m) b) (hbc : (ns.get n).entry ∈ (f.term b).targets) :
    (ns.get n).entry ≠ branch := by
  intro e
  obtain ⟨k, rest, hl, hk⟩ := h.exists_eq_cons hf
  have hentry := (h.isNode hn).covers_entry
  have hlt := h.idxOf_lt_of_edge hf hm hn hne hb hentry hbc
  have hkn : k = n := by
    refine h.grouped.eq_of_covers ((mem_order h.order k).mp (hl ▸ List.mem_cons_self)) hn ?_ hentry
    rw [hk, e]
    exact rfl
  rw [hl, hkn, List.idxOf_cons_self] at hlt
  exact Nat.not_lt_zero _ hlt

theorem exists_rpoIndex?_entry (hn : n < ns.size) :
    ∃ i, (Cfg.ofFunc f).rpoIndex? (ns.get n).entry = some i ∧ entryKey (Cfg.ofFunc f) ns n = i := by
  obtain ⟨i, hi⟩ := Cfg.exists_rpoIndex? hf (h.reachable_of_mem hf (h.isNode hn).1)
  exact ⟨i, hi, by rw [entryKey, hi, Option.getD_some]⟩

/-- An edge between two nodes goes forward in the reverse post-order, unless an irreducible loop runs
through the chain with its header outside. -/
theorem lt_of_edge (haside : ¬ EnteredAside f bs) {i j : Nat} (hm : m < ns.size) (hn : n < ns.size)
    (hne : m ≠ n) (hb : Covers (ns.get m) b) (hbc : (ns.get n).entry ∈ (f.term b).targets)
    (hi : (Cfg.ofFunc f).rpoIndex? (ns.get m).entry = some i)
    (hj : (Cfg.ofFunc f).rpoIndex? (ns.get n).entry = some j) : i < j := by
  have hentry := (h.isNode hn).covers_entry
  have hmem := (h.isNode hn).1
  have hr := h.reachable_of_mem hf hmem
  obtain ⟨k, hk⟩ := Cfg.exists_rpoIndex? hf
    (h.reachable_of_mem hf ((h.isNode hm).mem_of_covers hb))
  by_contra hle
  have hik := Cfg.rpoIndex?_le_of_dominates hf ((h.isNode hm).dominates_entry hf hb) hi hk
  -- the edge closes a cycle of blocks that stand no earlier than its target
  have hjk : j ≤ k := by omega
  obtain ⟨c, hc, hbmem, hcmem, hlate⟩ := Func.IsCycle.exists_of_path
    (Cfg.path_of_rpoIndex?_le hf hbc hk hj hjk) hr ⟨k, hk, hjk⟩ hbc
  obtain ⟨id, hid, hhead⟩ := LoopForest.exists_isSmallest_of_isCycle hf hc
  obtain ⟨x, hx, hjx⟩ := hlate _ hhead
  have hloop := List.mem_of_getElem? (LoopForest.getElem?_get hid.lt)
  have heq : x ≤ j → ((Analyses.ofFunc f).loops.get id).header = (ns.get n).entry := fun hxj =>
    DomTree.number?_inj (t := (Cfg.ofFunc f).dominators) hx
      (hj.trans (by rw [Nat.le_antisymm hxj hjx]))
  by_cases hbs : ((Analyses.ofFunc f).loops.get id).header ∈ bs
  · by_cases e : ((Analyses.ofFunc f).loops.get id).header = branch
    · have hxj := Cfg.rpoIndex?_le_of_dominates hf (h.dominates_of_mem hf hmem) (e ▸ hx) hj
      exact h.entry_ne_branch hf hm hn hne hb hbc ((heq hxj).symm.trans e)
    · have hcov := h.covers_of_inChain ⟨hid.lt, e, hbs⟩ hm hb (hid.holds _ hbmem)
        (hid.holds _ hcmem)
      exact hne (h.grouped.eq_of_covers hm hn hcov hentry)
  · have hred : ((Analyses.ofFunc f).loops.get id).reducible = true := by
      by_contra hred
      exact haside ⟨_, hloop, Bool.not_eq_true _ ▸ hred, hbs, _, hid.holds _ hcmem, hmem⟩
    have hxj := Cfg.rpoIndex?_le_of_dominates hf
      (LoopForest.dominates_header hf hloop hred (hid.holds _ hcmem)) hx hj
    exact hbs (heq hxj ▸ hmem)

/-- Unless an irreducible loop runs through the chain with its header outside, the order is that of the
entries in the reverse post-order. -/
theorem pairwise_rpoIndex? (haside : ¬ EnteredAside f bs) : l.Pairwise fun m n =>
    ∃ i j, (Cfg.ofFunc f).rpoIndex? (ns.get m).entry = some i ∧
      (Cfg.ofFunc f).rpoIndex? (ns.get n).entry = some j ∧ i < j := by
  have hup : ∀ m < ns.size, ∀ ks, successors (.ofFunc f) ns join (ns.get m) = .ok ks →
      ∀ n ∈ ks, entryKey (.ofFunc f) ns m < entryKey (.ofFunc f) ns n := by
    intro m hm ks hks n hn
    obtain ⟨hleads, hget⟩ := of_mem_successors hks hn
    obtain ⟨b, hb, hbc⟩ := (h.isNode hm).exists_of_mem_leadsTo hf hleads
    obtain ⟨hlt, -⟩ := h.grouped.get?_iff.mp hget
    have hne : m ≠ n := fun e =>
      absurd (e ▸ idxOf_lt_of_order h.order hm hks hn hlt) (Nat.lt_irrefl _)
    obtain ⟨i, hi, ei⟩ := h.exists_rpoIndex?_entry hf hm
    obtain ⟨j, hj, ej⟩ := h.exists_rpoIndex?_entry hf hlt
    rw [ei, ej]
    exact h.lt_of_edge hf haside hm hlt hne hb hbc hi hj
  refine ((pairwise_order h.order hup).and (nodup_order h.order)).imp_of_mem fun {m n} hm hn hmn => ?_
  have hm := (mem_order h.order m).mp hm
  have hn := (mem_order h.order n).mp hn
  obtain ⟨i, hi, ei⟩ := h.exists_rpoIndex?_entry hf hm
  obtain ⟨j, hj, ej⟩ := h.exists_rpoIndex?_entry hf hn
  rw [ei, ej] at hmn
  refine ⟨i, j, hi, hj, Nat.lt_of_le_of_ne hmn.1 fun e => hmn.2 ?_⟩
  -- entries at the same position are one block, and its node is one
  have hentry : (ns.get m).entry = (ns.get n).entry :=
    DomTree.number?_inj (t := (Cfg.ofFunc f).dominators) hi (hj.trans (by rw [e]))
  exact h.grouped.eq_of_covers hm hn (hentry ▸ (h.isNode hm).covers_entry) (h.isNode hn).covers_entry

end Computed

end Chain

namespace Stage

open Chain in
/-- What a branch that is made straight has computed of its chain. -/
theorem triple_computed {s : Stage} {branch : BlockId} :
    TripleOk (· = s) (linearizeBranch (.ofFunc s.func) branch) fun n _ =>
      ∃ join bs ns l, Computed s.info s.func branch join bs ns l ∧ n = l.length := by
  unfold linearizeBranch
  split
  · rename_i join hjoin
    refine TripleOk.bind (TripleOk.get.mono (fun _ hu => hu)
      fun t u hu => (⟨trivial, hu.1.trans hu.2⟩ : True ∧ t = s)) fun t => TripleOk.assume fun ht => ?_
    subst ht
    refine TripleOk.bind triple_liftExcept fun bs => TripleOk.assume fun hbs => ?_
    refine TripleOk.bind triple_liftExcept fun ns => TripleOk.assume fun hns => ?_
    refine TripleOk.bind triple_liftExcept fun l => TripleOk.assume fun hl => ?_
    have hend : ∃ join bs ns' l', Computed t.info t.func branch join bs ns' l' ∧
        (l.map ns.get).length = l'.length :=
      ⟨join, bs, ns, l, ⟨hjoin, hbs, hns, hl⟩, List.length_map _⟩
    have hany : ∀ {α : Type} {m : StageM α}, TripleOk (fun _ => True) m fun _ _ => True :=
      fun _ _ _ _ _ => trivial
    refine TripleOk.bind hany fun mask => TripleOk.bind hany fun _ => TripleOk.bind hany fun _ => ?_
    dsimp only
    split
    · exact TripleOk.bind hany fun _ => TripleOk.bind hany fun _ => TripleOk.pure fun _ _ => hend
    · exact TripleOk.bind hany fun _ => TripleOk.pure fun _ _ => hend
  · exact TripleOk.throw

open Chain in
/-- A chain follows the program. If a branch can be made straight, each block of its chain belongs to
one of the nodes, and each node comes up once, the branch first. A node comes before those that its
edges lead to, and a block before those of other nodes that it dominates. The entries of the nodes
come in reverse post-order, unless an irreducible loop runs through the chain and has its header
outside. -/
theorem programOrder_of_linearizeBranch {s s' : Stage} {branch : BlockId} {n : Nat}
    (hf : s.func.Closed) (h : linearizeBranch (.ofFunc s.func) branch s = (.ok n, s')) :
    ∃ join bs ns l, Computed s.info s.func branch join bs ns l ∧ n = l.length ∧
      ProgramOrder s.func branch bs ns l ∧
      (¬ EnteredAside s.func bs → l.Pairwise fun m n =>
        ∃ i j, (Cfg.ofFunc s.func).rpoIndex? (ns.get m).entry = some i ∧
          (Cfg.ofFunc s.func).rpoIndex? (ns.get n).entry = some j ∧ i < j) := by
  obtain ⟨join, bs, ns, l, hc, hn⟩ := triple_computed s n s' rfl h
  exact ⟨join, bs, ns, l, hc, hn, hc.programOrder hf, hc.pairwise_rpoIndex? hf⟩

/-- A divergent branch with a loop on one of its ways. -/
def loopOnOneWay : Stage where
  func := {
    params := [.bool, .bool]
    retTy := .void
    blocks := #[
      { term := .brIf (.param 0) 1 4 },
      { term := .brIf (.param 1) 2 3 },
      { term := .br 1 },
      { term := .br 5 },
      { term := .br 5 },
      { term := .ret none }]
    insts := #[]
    layout := [0, 1, 2, 3, 4, 5] }
  info := { width := 2 }
  masks := .setBlock {} 0 (.ofBool true)

open Chain in
/-- The two blocks of the loop are one node of four. -/
theorem programOrder_of_linearizeBranch_loopOnOneWay :
    ∃ s' join bs ns l, linearizeBranch (.ofFunc loopOnOneWay.func) 0 loopOnOneWay = (.ok 4, s') ∧
      Computed loopOnOneWay.info loopOnOneWay.func 0 join bs ns l ∧ l.length = 4 ∧
      ProgramOrder loopOnOneWay.func 0 bs ns l ∧ ¬ EnteredAside loopOnOneWay.func bs ∧
      l.Pairwise fun m n =>
        ∃ i j, (Cfg.ofFunc loopOnOneWay.func).rpoIndex? (ns.get m).entry = some i ∧
          (Cfg.ofFunc loopOnOneWay.func).rpoIndex? (ns.get n).entry = some j ∧ i < j := by
  have hf : loopOnOneWay.func.Closed := (by decide : loopOnOneWay.func.Coherent).toClosed
  have hrun : linearizeBranch (.ofFunc loopOnOneWay.func) 0 loopOnOneWay =
      (.ok 4, (linearizeBranch (.ofFunc loopOnOneWay.func) 0 loopOnOneWay).2) :=
    Prod.ext (by decide +kernel) rfl
  have hred : ∀ k ∈ (Analyses.ofFunc loopOnOneWay.func).loops.loops, k.reducible = true := by
    decide +kernel
  obtain ⟨join, bs, ns, l, hc, hn, ho, hp⟩ := programOrder_of_linearizeBranch hf hrun
  have haside : ¬ EnteredAside loopOnOneWay.func bs := fun ⟨k, hk, hirr, _⟩ => by
    rw [hred k hk] at hirr
    cases hirr
  exact ⟨_, join, bs, ns, l, hrun, hc, hn.symm, ho, haside, hp haside⟩

/-- A divergent branch whose ways join at the header of a loop that is entered at other blocks, too. -/
def joinInLoop : Stage where
  func := {
    params := [.bool, .bool, .bool, .bool]
    retTy := .void
    blocks := #[
      { term := .brIf (.param 0) 1 2 },
      { term := .br 5 },
      { term := .brIf (.param 1) 3 4 },
      { term := .brIf (.param 2) 4 5 },
      { term := .br 5 },
      { term := .brIf (.param 3) 3 6 },
      { term := .ret none }]
    insts := #[]
    layout := [0, 1, 2, 3, 4, 5, 6] }
  info := { width := 2 }
  masks := .setBlock {} 0 (.ofBool true)

open Chain in
/-- The proviso is needed: the chain of the branch is put into an order in which a block comes before
one that stands before it in the reverse post-order. -/
theorem not_pairwise_joinInLoop :
    (linearizeBranch (.ofFunc joinInLoop.func) 0 joinInLoop).1 = .ok 5 ∧
      ∃ bs ns l, Computed joinInLoop.info joinInLoop.func 0 5 bs ns l ∧
        EnteredAside joinInLoop.func bs ∧
        ¬ l.Pairwise fun m n =>
          ∃ i j, (Cfg.ofFunc joinInLoop.func).rpoIndex? (ns.get m).entry = some i ∧
            (Cfg.ofFunc joinInLoop.func).rpoIndex? (ns.get n).entry = some j ∧ i < j := by
  have hrun : linearizeBranch (.ofFunc joinInLoop.func) 0 joinInLoop =
      (.ok 5, (linearizeBranch (.ofFunc joinInLoop.func) 0 joinInLoop).2) :=
    Prod.ext (by decide +kernel) rfl
  have hbs : blocks joinInLoop.info (.ofFunc joinInLoop.func) 0 5 = .ok [0, 1, 2, 4, 3] := by
    decide +kernel
  obtain ⟨join, bs, ns, l, hc, -⟩ := triple_computed joinInLoop 5 _ rfl hrun
  obtain rfl : 5 = join := Option.some.inj
    ((by decide +kernel : (Analyses.ofFunc joinInLoop.func).postDom.parent? 0 = some 5).symm.trans
      hc.parent)
  obtain rfl : [0, 1, 2, 4, 3] = bs := Except.ok.inj (hbs.symm.trans hc.blocks)
  have hkeys : l.map (fun n => (Cfg.ofFunc joinInLoop.func).rpoIndex? (ns.get n).entry) =
      [some 0, some 1, some 2, some 5, some 3] := by
    have h : ((nodes (Analyses.ofFunc joinInLoop.func).loops [0, 1, 2, 4, 3] 0 5).bind fun ns =>
        (order (.ofFunc joinInLoop.func) ns 5).map fun l =>
          l.map fun n => (Cfg.ofFunc joinInLoop.func).rpoIndex? (ns.get n).entry) =
        .ok [some 0, some 1, some 2, some 5, some 3] := by
      decide +kernel
    simp only [hc.nodes, hc.order, Except.bind, Except.map] at h
    exact Except.ok.inj h
  refine ⟨by rw [hrun], _, ns, l, hc, by unfold EnteredAside; decide +kernel, fun hp => ?_⟩
  have hp : (l.map fun n => (Cfg.ofFunc joinInLoop.func).rpoIndex? (ns.get n).entry).Pairwise
      fun x y => ∃ i j, x = some i ∧ y = some j ∧ i < j := List.pairwise_map.mpr hp
  rw [hkeys] at hp
  simp at hp

end Stage

end Lockstep
