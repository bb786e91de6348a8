import Lockstep.Linear.Chain
import Lockstep.Proofs.Cfg.LoopForest
import Lockstep.Proofs.Triple

/-!
# The nodes of a chain

Every node of a chain is entered at a block of the chain, and every node comes up in the order. The
branch itself is a node of its own: a loop around it would have a header that dominates the branch
and is dominated by it.
-/

namespace Lockstep

namespace Chain

variable {v : VectorInfo} {a : Analyses} {branch join : BlockId}

/-! ## Blocks -/

/-- Collecting keeps what was collected, and adds blocks that the branch dominates. -/
theorem of_collect {fuel : Nat} {stack blocks bs : List BlockId}
    (h : collect v a branch join fuel stack blocks = .ok bs) :
    (∀ b ∈ blocks, b ∈ bs) ∧
      ∀ b ∈ bs, b ∈ blocks ∨ b ≠ join ∧ b ≠ branch ∧ v.inRegion b = true ∧
        a.dom.dominates branch b = true := by
  induction fuel generalizing stack blocks with
  | zero =>
    cases h
    exact ⟨fun b hb => hb, fun b hb => .inl hb⟩
  | succ fuel ih =>
    cases stack with
    | nil =>
      cases h
      exact ⟨fun b hb => hb, fun b hb => .inl hb⟩
    | cons c stack =>
      unfold collect at h
      by_cases h1 : c = join
      · rw [if_pos h1] at h
        exact ih h
      rw [if_neg h1] at h
      by_cases h2 : c = branch
      · rw [if_pos h2] at h
        cases h
      rw [if_neg h2] at h
      by_cases h3 : blocks.contains c = true
      · rw [if_pos h3] at h
        exact ih h
      rw [if_neg h3] at h
      by_cases h4 : v.inRegion c = true
      · rw [if_neg (by simp [h4])] at h
        by_cases h5 : a.dom.dominates branch c = true
        · rw [if_neg (by simp [h5])] at h
          obtain ⟨hsub, hnew⟩ := ih h
          refine ⟨fun b hb => hsub b (List.mem_append_left _ hb), fun b hb => ?_⟩
          rcases hnew b hb with hb | hb
          · rcases List.mem_append.mp hb with hb | hb
            · exact .inl hb
            · rw [List.mem_singleton] at hb
              subst hb
              exact .inr ⟨h1, h2, h4, h5⟩
          · exact .inr hb
        · rw [if_pos (by simp [h5])] at h
          cases h
      · rw [if_pos (by simp [h4])] at h
        cases h

/-- The blocks of a chain are reachable, and the branch dominates them. -/
theorem of_mem_blocks {bs : List BlockId} (h : blocks v a branch join = .ok bs) {b : BlockId}
    (hb : b ∈ bs) : b ∈ a.cfg.rpo ∧ (b = branch ∨ b ≠ join ∧ b ≠ branch ∧ v.inRegion b = true ∧
      a.dom.dominates branch b = true) := by
  unfold blocks at h
  obtain ⟨cs, hc, h⟩ := exists_of_bind_eq_ok h
  cases h
  obtain ⟨hr, hb⟩ := List.mem_filter.mp hb
  refine ⟨hr, ?_⟩
  rcases (of_collect hc).2 b (List.contains_iff_mem.mp hb) with hb | hb
  · exact .inl (List.mem_singleton.mp hb)
  · exact .inr hb

/-- The branch belongs to its chain. -/
theorem branch_mem_blocks {bs : List BlockId} (h : blocks v a branch join = .ok bs)
    (hb : branch ∈ a.cfg.rpo) : branch ∈ bs := by
  unfold blocks at h
  obtain ⟨cs, hc, h⟩ := exists_of_bind_eq_ok h
  cases h
  refine List.mem_filter.mpr ⟨hb, List.contains_iff_mem.mpr ?_⟩
  exact (of_collect hc).1 branch (List.mem_singleton_self branch)

/-! ## Nodes -/

/-- What is known of a node: a block of the chain, or a loop with its header in the chain. -/
def IsNode (t : LoopForest) (bs : List BlockId) (branch : BlockId) (n : ChainNode) : Prop :=
  n.entry ∈ bs ∧
    match n.loop with
    | none => n.exit = n.entry
    | some (inside, target) => ∃ id, (t.get id).header = n.entry ∧ n.entry ≠ branch ∧
        (t.get id).reducible = true ∧ (t.get id).blocks = inside ∧
        (t.get id).exitEdges = [(n.exit, target)] ∧ ∀ b ∈ inside, b ∈ bs

/-- A node with the blocks that it stands for. -/
def Covers (n : ChainNode) (b : BlockId) : Prop :=
  match n.loop with
  | none => b = n.entry
  | some (inside, _) => b ∈ inside

/-- The nodes made so far are nodes, and stand for the blocks that they are recorded for. -/
structure Nodes.Good (t : LoopForest) (bs : List BlockId) (branch : BlockId) (ns : Nodes) :
    Prop where
  isNode : ∀ n ∈ ns.list, IsNode t bs branch n
  covered : ∀ b, ns.nodeOf.contains b = true → ∃ n ∈ ns.list, Covers n b

theorem contains_foldl_set (bs : List BlockId) (k : Nat) (t : Table BlockId Nat) (b : BlockId) :
    (bs.foldl (fun t b => t.set b k) t).contains b = (t.contains b || bs.contains b) := by
  induction bs generalizing t with
  | nil => simp
  | cons c bs ih =>
    rw [List.foldl_cons, ih, List.contains_cons, Table.contains, Table.get?_set]
    by_cases h : b = c
    · subst h; simp
    · have hf : (b == c) = false := beq_eq_false_iff_ne.mpr h
      rw [if_neg h, hf, Bool.false_or]
      rfl

theorem Nodes.Good.add {t : LoopForest} {bs : List BlockId} {ns : Nodes}
    (h : ns.Good t bs branch) {n : ChainNode} {cs : List BlockId} (hn : IsNode t bs branch n)
    (hc : ∀ b ∈ cs, Covers n b) : (ns.add n cs).Good t bs branch where
  isNode m hm := by
    rcases List.mem_append.mp hm with hm | hm
    · exact h.isNode m hm
    · exact List.mem_singleton.mp hm ▸ hn
  covered b hb := by
    have hb : (cs.foldl (fun t b => t.set b ns.size) ns.nodeOf).contains b = true := hb
    rw [contains_foldl_set, Bool.or_eq_true] at hb
    rcases hb with hb | hb
    · obtain ⟨m, hm, hmb⟩ := h.covered b hb
      exact ⟨m, List.mem_append_left _ hm, hmb⟩
    · exact ⟨n, List.mem_append_right _ (List.mem_singleton_self n),
        hc b (List.contains_iff_mem.mp hb)⟩

/-- Every loop on the way up from a loop holds its blocks. -/
theorem mem_of_enclosing {t : LoopForest} (h : t.Nesting) {fuel : Nat} {o : Option LoopId} {b : BlockId}
    (ho : ∀ id, o = some id → b ∈ (t.get id).blocks) :
    ∀ id ∈ enclosing t fuel o, b ∈ (t.get id).blocks := by
  induction fuel generalizing o with
  | zero => intro id hid; cases o <;> cases hid
  | succ fuel ih =>
    cases o with
    | none => intro id hid; cases hid
    | some id₀ =>
      intro id hid
      rcases List.mem_cons.mp hid with rfl | hid
      · exact ho id rfl
      · exact ih (fun p hp => h.parent id₀ p hp b (ho id₀ rfl)) id hid

theorem of_outermostLoop? {t : LoopForest} (ht : t.Nesting) {bs : List BlockId} {b : BlockId}
    {id : LoopId} (h : outermostLoop? t bs branch b = some id) :
    b ∈ (t.get id).blocks ∧ (t.get id).header ≠ branch ∧ (t.get id).header ∈ bs := by
  obtain ⟨hid, h⟩ := List.mem_filter.mp (List.mem_of_getLast? h)
  refine ⟨mem_of_enclosing ht (ht.innermost b) id hid, ?_⟩
  rw [Bool.and_eq_true] at h
  exact ⟨by simpa using h.1, List.contains_iff_mem.mp h.2⟩

theorem of_loopNode {l : Loop} {bs : List BlockId} {n : ChainNode}
    (h : loopNode l bs branch join = .ok n) :
    l.reducible = true ∧ (∀ b ∈ l.blocks, b ∈ bs) ∧ ∃ exit target,
      l.exitEdges = [(exit, target)] ∧
        n = { entry := l.header, exit, loop := some (l.blocks, target) } := by
  unfold loopNode at h
  by_cases hr : l.reducible = true
  · rw [hr] at h
    cases hf : l.blocks.find? fun b => !bs.contains b with
    | some outside =>
      rw [hf] at h
      cases h
    | none =>
      rw [hf] at h
      have hin : ∀ b ∈ l.blocks, b ∈ bs := fun b hb => by
        have := List.find?_eq_none.mp hf b hb
        simpa using this
      rcases he : l.exitEdges with - | ⟨⟨exit, target⟩, - | ⟨e, es⟩⟩
      · rw [he] at h
        cases h
      · rw [he] at h
        cases h
        exact ⟨hr, hin, exit, target, rfl, rfl⟩
      · rw [he] at h
        cases h
  · rw [Bool.not_eq_true] at hr
    rw [hr] at h
    cases h

theorem contains_add (ns : Nodes) (n : ChainNode) (cs : List BlockId) (b : BlockId) :
    (ns.add n cs).nodeOf.contains b = (ns.nodeOf.contains b || cs.contains b) :=
  contains_foldl_set cs ns.size ns.nodeOf b

/-- Adding a block makes a node for it, unless there is one. -/
theorem Nodes.Good.addBlock {t : LoopForest} (ht : t.Nesting) {bs : List BlockId} {ns ns' : Nodes}
    (h : ns.Good t bs branch) {b : BlockId} (hb : b ∈ bs)
    (e : addBlock t bs branch join ns b = .ok ns') :
    ns'.Good t bs branch ∧ ns'.nodeOf.contains b = true ∧
      ∀ c, ns.nodeOf.contains c = true → ns'.nodeOf.contains c = true := by
  unfold Chain.addBlock at e
  split at e
  · rename_i hc
    cases e
    exact ⟨h, hc, fun c hc => hc⟩
  · split at e
    · cases e
      refine ⟨h.add ⟨hb, rfl⟩ fun c hc => List.mem_singleton.mp hc, ?_, fun c hc => ?_⟩
      · simp [contains_add]
      · simp [contains_add, hc]
    · rename_i id hid
      obtain ⟨n, hn, e⟩ := exists_of_bind_eq_ok e
      cases e
      obtain ⟨hmem, hne, hhead⟩ := of_outermostLoop? ht hid
      obtain ⟨hr, hin, exit, target, he, rfl⟩ := of_loopNode hn
      refine ⟨h.add ⟨hhead, id, rfl, hne, hr, rfl, he, hin⟩ fun c hc => hc, ?_, fun c hc => ?_⟩
      · rw [contains_add, List.contains_iff_mem.mpr hmem, Bool.or_true]
      · rw [contains_add, hc, Bool.true_or]

/-- All nodes of a chain are nodes, and every block of the chain has one. -/
theorem good_nodes {t : LoopForest} (ht : t.Nesting) {bs : List BlockId} {ns : Nodes}
    (h : nodes t bs branch join = .ok ns) :
    ns.Good t bs branch ∧ ∀ b ∈ bs, ns.nodeOf.contains b = true := by
  have h0 : Nodes.Good t bs branch {} :=
    ⟨fun n hn => (by cases hn), fun b hb => (by simp [Table.contains] at hb)⟩
  have key := of_foldlM_eq_ok (J := fun rest (ns : Nodes) => ns.Good t bs branch ∧
    ∀ b ∈ bs, b ∈ rest ∨ ns.nodeOf.contains b = true) h ⟨h0, fun b hb => .inl hb⟩ ?_
  · exact ⟨key.1, fun b hb => (key.2 b hb).resolve_left List.not_mem_nil⟩
  · rintro b rest ns ns' hb e ⟨hg, hc⟩
    obtain ⟨h1, h2, h3⟩ := hg.addBlock ht hb e
    refine ⟨h1, fun c hc' => ?_⟩
    rcases hc c hc' with h4 | h4
    · rcases List.mem_cons.mp h4 with rfl | h4
      · exact .inr h2
      · exact .inl h4
    · exact .inr (h3 c h4)

/-- The branch is a node of its own. -/
theorem exists_branchNode {f : Func} {bs : List BlockId} {ns : Nodes}
    (hb : blocks v (.ofFunc f) branch join = .ok bs)
    (hr : branch ∈ (Cfg.ofFunc f).rpo)
    (hn : nodes (Analyses.ofFunc f).loops bs branch join = .ok ns) :
    ∃ n ∈ ns.list, n.exit = branch ∧ n.loop = none := by
  obtain ⟨hg, hc⟩ := good_nodes (LoopForest.nesting_ofCfg _ _) hn
  obtain ⟨n, hnl, hcov⟩ := hg.covered branch (hc branch (branch_mem_blocks hb hr))
  have hnode := hg.isNode n hnl
  unfold IsNode at hnode
  unfold Covers at hcov
  obtain ⟨hentry, hnode⟩ := hnode
  split at hnode
  · rename_i hloop
    rw [hloop] at hcov
    exact ⟨n, hnl, hnode.trans hcov.symm, hloop⟩
  · -- a loop around the branch has a header that the branch dominates
    rename_i inside target hloop
    rw [hloop] at hcov
    obtain ⟨id, hhead, hne, hred, hblocks, -⟩ := hnode
    have hmem : branch ∈
        ((LoopForest.ofCfg (Cfg.ofFunc f) (Cfg.ofFunc f).dominators).get id).blocks := by
      rw [hblocks]
      exact hcov
    have h1 := LoopForest.dominates_of_reducible hred hmem
    rw [hhead] at h1
    rcases (of_mem_blocks hb hentry).2 with h2 | ⟨-, -, -, h2⟩
    · exact absurd h2 hne
    · exact absurd (DomTree.dominates_antisymm h1 h2) hne

/-! ## Order -/

/-- The smaller of two positions by a key; the first if they are equal. -/
def better (key : Nat → Nat) (best : Option Nat) (n : Nat) : Option Nat :=
  match best with
  | none => some n
  | some m => if key n < key m then some n else some m

/-- The best position of a list is in the list, and no other is better. -/
theorem foldl_better (key : Nat → Nat) (l : List Nat) (m : Nat) :
    ∃ n, l.foldl (better key) (some m) = some n ∧ n ∈ m :: l ∧ ∀ k ∈ m :: l, key n ≤ key k := by
  induction l generalizing m with
  | nil => exact ⟨m, rfl, List.mem_cons_self, fun k hk => by rw [List.mem_singleton.mp hk]⟩
  | cons x l ih =>
    rw [List.foldl_cons, better]
    split
    · rename_i hlt
      obtain ⟨n, h1, h2, h3⟩ := ih x
      refine ⟨n, h1, List.mem_cons_of_mem _ h2, fun k hk => ?_⟩
      rcases List.mem_cons.mp hk with rfl | hk
      · have := h3 x List.mem_cons_self
        omega
      · exact h3 k hk
    · rename_i hlt
      obtain ⟨n, h1, h2, h3⟩ := ih m
      refine ⟨n, h1, ?_, fun k hk => ?_⟩
      · rcases List.mem_cons.mp h2 with rfl | h2
        · exact List.mem_cons_self
        · exact List.mem_cons_of_mem _ (List.mem_cons_of_mem _ h2)
      · rcases List.mem_cons.mp hk with rfl | hk
        · exact h3 k List.mem_cons_self
        · rcases List.mem_cons.mp hk with rfl | hk
          · have := h3 m List.mem_cons_self
            omega
          · exact h3 k (List.mem_cons_of_mem _ hk)

/-- Whether no other position leads to `n`. -/
def Ready (succs : List (List Nat)) (rest : List Nat) (n : Nat) : Prop :=
  ∀ m ∈ rest, n ∉ succs[m]?.getD []

/-- The position that comes next is ready, and the first of those that are. -/
theorem of_next?_eq_some {succs : List (List Nat)} {key : Nat → Nat} {rest : List Nat} {n : Nat}
    (h : next? succs key rest = some n) :
    n ∈ rest ∧ Ready succs rest n ∧ ∀ k ∈ rest, Ready succs rest k → key n ≤ key k := by
  have h : (rest.filter fun n => rest.all fun m => !(succs[m]?.getD []).contains n).foldl
      (better key) none = some n := h
  have hready : ∀ k, k ∈ (rest.filter fun n =>
      rest.all fun m => !(succs[m]?.getD []).contains n) ↔ k ∈ rest ∧ Ready succs rest k := by
    intro k
    simp [Ready]
  cases hl : rest.filter fun n => rest.all fun m => !(succs[m]?.getD []).contains n with
  | nil =>
    rw [hl] at h
    cases h
  | cons m l =>
    rw [hl] at h hready
    obtain ⟨n', h1, h2, h3⟩ := foldl_better key l m
    rw [List.foldl_cons, better, h1] at h
    cases h
    obtain ⟨h4, h5⟩ := (hready n).mp h2
    exact ⟨h4, h5, fun k hk hr => h3 k ((hready k).mpr ⟨hk, hr⟩)⟩

theorem sortFrom_subset {succs : List (List Nat)} {key : Nat → Nat} {fuel : Nat}
    {rest : List Nat} : ∀ n ∈ sortFrom succs key fuel rest, n ∈ rest := by
  induction fuel generalizing rest with
  | zero => intro n hn; cases hn
  | succ fuel ih =>
    intro n hn
    unfold sortFrom at hn
    split at hn
    · cases hn
    · rename_i m hm
      rcases List.mem_cons.mp hn with rfl | hn
      · exact (of_next?_eq_some hm).1
      · exact List.mem_of_mem_erase (ih n hn)

/-- The order lists the positions of all nodes. -/
theorem mem_order {g : Cfg} {ns : Nodes} {l : List Nat} (h : order g ns join = .ok l) (n : Nat) :
    n ∈ l ↔ n < ns.size := by
  obtain ⟨succs, -, h⟩ := exists_of_bind_eq_ok h
  dsimp only at h
  split at h
  · cases h
  · rename_i hf
    cases h
    constructor
    · exact fun hn => List.mem_range.mp (sortFrom_subset n hn)
    · intro hn
      have := List.find?_eq_none.mp hf n (List.mem_range.mpr hn)
      simpa using this

theorem Nodes.get_eq_getElem {ns : Nodes} {n : Nat} (h : n < ns.list.length) :
    ns.get n = ns.list[n] := by
  rw [Nodes.get, List.getElem?_eq_getElem h]
  rfl

theorem Nodes.get_mem {ns : Nodes} {n : Nat} (h : n < ns.size) : ns.get n ∈ ns.list := by
  rw [Nodes.get_eq_getElem h]
  exact List.getElem_mem h

/-- The chain consists of the nodes. -/
theorem mem_chain {g : Cfg} {ns : Nodes} {l : List Nat} (h : order g ns join = .ok l)
    (n : ChainNode) : n ∈ l.map ns.get ↔ n ∈ ns.list := by
  rw [List.mem_map]
  constructor
  · rintro ⟨k, hk, rfl⟩
    exact Nodes.get_mem ((mem_order h k).mp hk)
  · intro hn
    obtain ⟨k, hk, e⟩ := List.getElem_of_mem hn
    exact ⟨k, (mem_order h k).mpr hk, (Nodes.get_eq_getElem hk).trans e⟩

end Chain

end Lockstep
