import Lockstep.Proofs.Cfg.DominatorTree

/-!
# The post-dominator tree

The tree is that of a graph whose root, node `0`, stands for the outside: all exits lead there, and
the edges between the blocks that reach an exit are turned round. A path from the root is thus a path
to an exit read backwards, so that a node is above another if it lies on every path from there to an
exit (`dominates_exitGraph_iff`). Blocks that reach no exit are not nodes, and edges to them are left
out. The main statement is `postDominators_exact`.
-/

namespace Lockstep

namespace Func

/-- Control can leave the function after `b`. -/
def ReachesExit (f : Func) (b : BlockId) : Prop :=
  ∃ x, (f.term x).isExit = true ∧ f.Reaches b x

/-- Every path from `b` to an exit passes `a`. -/
def PostDominates (f : Func) (a b : BlockId) : Prop :=
  ∀ x, (f.term x).isExit = true → f.Path (· ≠ a) b x → x = a

/-- `b` is a reachable block after which control can leave the function, and every path on which it
does passes `a`, which is another block. -/
def StrictlyPostDominates (f : Func) (a b : BlockId) : Prop :=
  a ≠ b ∧ (f.Reachable b ∧ f.ReachesExit b) ∧ f.PostDominates a b

variable {f : Func} {a b : BlockId}

/-- What post-dominates a block that reaches an exit lies on a path there. -/
theorem PostDominates.reaches (h : f.PostDominates a b) (hb : f.ReachesExit b) :
    f.Reaches b a ∧ f.ReachesExit a := by
  obtain ⟨x, hx, hbx⟩ := hb
  rcases reaches_or_path hbx a with ⟨hba, hax⟩ | hpath
  · exact ⟨hba, x, hx, hax⟩
  · obtain rfl := h x hx hpath
    exact ⟨hbx, x, hx, .refl x⟩

end Func

namespace Cfg

variable {f : Func} {a b : BlockId} {j k : Nat}

theorem mem_exits (hf : f.Closed) {x : BlockId} :
    x ∈ (ofFunc f).exits f ↔ f.Reachable x ∧ (f.term x).isExit = true := by
  unfold exits
  rw [List.mem_filter, mem_rpo hf]

/-- The search against the edges finds the reachable blocks that reach an exit. -/
theorem mem_exitOrder (hf : f.Closed) :
    b ∈ (ofFunc f).exitOrder f ↔ f.Reachable b ∧ f.ReachesExit b := by
  obtain ⟨s, hs, hroots⟩ := explored_exitOrder hf
  have hseen : ∀ x, x ∈ s.seen ↔ x ∈ (ofFunc f).exitOrder f := by
    intro x
    rw [hs.mem_seen]
    simp [Search.empty]
  constructor
  · intro hb
    refine ⟨reachable_of_mem_exitOrder hf hb, ?_⟩
    obtain ⟨r, hr, hrb⟩ := hs.reached b hb
    refine ⟨r, ((mem_exits hf).mp hr).2, ?_⟩
    exact hrb.closed (P := fun y => f.Reaches y r)
      (fun x hx y hy => Search.Reach.head ((mem_preds hf).mp hy).2 hx) (Search.Reach.refl r)
  · rintro ⟨hb, x, hx, hbx⟩
    induction hbx using Relation.ReflTransGen.head_induction_on with
    | refl => exact (hseen x).mp (hroots x ((mem_exits hf).mpr ⟨hb, hx⟩))
    | @head u v huv _ ih =>
      have hv := ih (hb.step huv)
      exact (hseen u).mp (hs.closed v hv u ((mem_preds hf).mpr ⟨hb, huv⟩))

/-! ## The graph of the exits -/

/-- The nodes that the block `b` leads to: its successors that reach an exit, and the outside. -/
def exitNodes (f : Func) (b : BlockId) : List Nat :=
  ((ofFunc f).succs b).filterMap
      (fun s => (((ofFunc f).exitOrder f).idxOf? s).map (· + 1))
    ++ if (f.term b).isExit then [0] else []

/-- The predecessors of the nodes in the reversed graph; node `0` is the outside. -/
def exitGraph (f : Func) : List (List Nat) :=
  [] :: ((ofFunc f).exitOrder f).map (exitNodes f)

/-- The number of a block among those that reach an exit. -/
abbrev exitIndex? (f : Func) (b : BlockId) : Option Nat := ((ofFunc f).exitOrder f).idxOf? b

theorem getElem?_exitGraph (hb : exitIndex? f b = some k) :
    (exitGraph f)[k + 1]? = some (exitNodes f b) := by
  obtain ⟨hlt, e, -⟩ := List.idxOf?_eq_some_iff.mp hb
  rw [exitGraph, List.getElem?_cons_succ, List.getElem?_map, List.getElem?_eq_getElem hlt, e]
  rfl

theorem lt_length_exitGraph (hb : exitIndex? f b = some k) :
    k + 1 < (exitGraph f).length := by
  obtain ⟨hlt, -, -⟩ := List.idxOf?_eq_some_iff.mp hb
  rw [exitGraph, List.length_cons, List.length_map]
  omega

theorem exists_exitIndex? (hf : f.Closed) (hb : f.Reachable b) (hx : f.ReachesExit b) :
    ∃ k, exitIndex? f b = some k := by
  have hmem := (mem_exitOrder hf).mpr ⟨hb, hx⟩
  exact Option.isSome_iff_exists.mp (by simpa using hmem)

theorem reachable_of_exitIndex? (hf : f.Closed) (hb : exitIndex? f b = some k) :
    f.Reachable b ∧ f.ReachesExit b := by
  obtain ⟨hlt, e, -⟩ := List.idxOf?_eq_some_iff.mp hb
  exact (mem_exitOrder hf).mp (e ▸ List.getElem_mem hlt)

/-- The outside comes after the exits. -/
theorem zero_mem_exitNodes : 0 ∈ exitNodes f b ↔ (f.term b).isExit = true := by
  unfold exitNodes
  by_cases hx : (f.term b).isExit = true <;> simp [hx]

/-- A block comes after those that branch there. -/
theorem succ_mem_exitNodes (hf : f.Closed) (hb : f.Reachable b) {i : Nat} :
    i + 1 ∈ exitNodes f b ↔ ∃ s, exitIndex? f s = some i ∧ s ∈ (f.term b).targets := by
  have hzero : i + 1 ∉ if (f.term b).isExit then [0] else [] := by
    split <;> simp
  unfold exitNodes
  rw [List.mem_append, or_iff_left hzero, List.mem_filterMap]
  constructor
  · rintro ⟨s, hs, hi⟩
    obtain ⟨m, hm, e⟩ := Option.map_eq_some_iff.mp hi
    obtain rfl : m = i := Nat.succ.inj e
    exact ⟨s, hm, ((mem_succs hf).mp hs).2⟩
  · rintro ⟨s, hi, hs⟩
    exact ⟨s, (mem_succs hf).mpr ⟨hb, hs⟩, Option.map_eq_some_iff.mpr ⟨i, hi, rfl⟩⟩

/-- The search numbers the blocks as the iteration needs it. -/
theorem numbered_exitGraph (hf : f.Closed) : Idom.Numbered (exitGraph f) where
  lt v p hp := by
    cases v with
    | zero => simp [exitGraph] at hp
    | succ k =>
      rw [exitGraph, List.getElem?_cons_succ, List.getElem?_map] at hp
      cases hb : ((ofFunc f).exitOrder f)[k]? with
      | none => simp [hb] at hp
      | some b =>
        have hreach := reachable_of_mem_exitOrder hf (List.mem_of_getElem? hb)
        rw [hb] at hp
        cases p with
        | zero => simp [exitGraph]
        | succ i =>
          obtain ⟨s, hs, -⟩ := (succ_mem_exitNodes hf hreach).mp hp
          exact lt_length_exitGraph hs
  earlier v h0 hv := by
    obtain ⟨k, rfl⟩ := Nat.exists_eq_add_one_of_ne_zero (Nat.ne_of_gt h0)
    have hk : k < ((ofFunc f).exitOrder f).length := by
      simpa [exitGraph] using hv
    obtain ⟨b, hb⟩ : ∃ b, exitIndex? f b = some k :=
      ⟨_, DomTree.number?_of_getElem? (t := (ofFunc f).postDominators f) (nodup_exitOrder hf)
        (List.getElem?_eq_getElem hk)⟩
    obtain ⟨s, hs, -⟩ := explored_exitOrder hf
    rw [getElem?_exitGraph hb, Option.getD_some]
    rcases DomTree.root_or_exists_earlier (nodup_exitOrder hf) hs.grown hb
      with hx | ⟨p, i, hi, hik, hp⟩
    · exact ⟨0, zero_mem_exitNodes.mpr ((mem_exits hf).mp hx).2, h0⟩
    · obtain ⟨hreach, hp⟩ := (mem_preds hf).mp hp
      exact ⟨i + 1, (succ_mem_exitNodes hf hreach).mpr ⟨p, hi, hp⟩, by omega⟩

/-- Going from the outside to a node without passing another before the end. -/
abbrev ExitPath (f : Func) (j : Nat) : Nat → Prop :=
  Relation.ReflTransGen
    (fun u w => u ≠ j ∧ u ∈ (exitGraph f)[w]?.getD [] ∧ w < (exitGraph f).length) 0

/-- A path to an exit that avoids a block is one from the outside, read backwards, that avoids its
node. -/
theorem exitPath_of_path (hf : f.Closed) (ha : exitIndex? f a = some j) {x : BlockId}
    (hx : (f.term x).isExit = true) (hxa : x ≠ a) (h : f.Path (· ≠ a) b x)
    (hb : exitIndex? f b = some k) : b ≠ a ∧ ExitPath f (j + 1) (k + 1) := by
  induction h using Relation.ReflTransGen.head_induction_on generalizing k with
  | refl =>
    refine ⟨hxa, .single ⟨(Nat.succ_ne_zero j).symm, ?_, lt_length_exitGraph hb⟩⟩
    rw [getElem?_exitGraph hb, Option.getD_some]
    exact zero_mem_exitNodes.mpr hx
  | @head b c hedge hcx ih =>
    obtain ⟨hba, hc⟩ := hedge
    obtain ⟨hreach, -⟩ := reachable_of_exitIndex? hf hb
    have hcx' : f.Reaches c x := Relation.ReflTransGen.mono (fun _ _ e => e.2) _ _ hcx
    obtain ⟨m, hm⟩ := exists_exitIndex? hf (hreach.step hc) ⟨x, hx, hcx'⟩
    obtain ⟨hca, hpath⟩ := ih hm
    refine ⟨hba, hpath.tail ⟨?_, ?_, lt_length_exitGraph hb⟩⟩
    · intro e
      obtain rfl : m = j := Nat.succ.inj e
      exact hca (DomTree.number?_inj (t := (ofFunc f).postDominators f) hm ha)
    · rw [getElem?_exitGraph hb, Option.getD_some]
      exact (succ_mem_exitNodes hf hreach).mpr ⟨c, hm, hc⟩

/-- A path from the outside that avoids the node of a block is one to an exit. -/
theorem path_of_exitPath (hf : f.Closed) (ha : exitIndex? f a = some j)
    (h : ExitPath f (j + 1) (k + 1)) (hb : exitIndex? f b = some k) (hba : b ≠ a) :
    ∃ x, (f.term x).isExit = true ∧ x ≠ a ∧ f.Path (· ≠ a) b x := by
  generalize hv : k + 1 = v at h
  induction h generalizing k b with
  | refl => cases hv
  | @tail u w _ hedge ih =>
    obtain ⟨huj, hu, -⟩ := hedge
    obtain ⟨hreach, -⟩ := reachable_of_exitIndex? hf hb
    rw [← hv, getElem?_exitGraph hb, Option.getD_some] at hu
    cases u with
    | zero => exact ⟨b, zero_mem_exitNodes.mp hu, hba, .refl b⟩
    | succ i =>
      obtain ⟨c, hc, hbc⟩ := (succ_mem_exitNodes hf hreach).mp hu
      have hca : c ≠ a := by
        rintro rfl
        rw [ha] at hc
        cases hc
        exact huj rfl
      obtain ⟨x, hx, hxa, hpath⟩ := ih hc hca rfl
      exact ⟨x, hx, hxa, .head hba hbc hpath⟩

/-- What dominates a node is what post-dominates the block there. -/
theorem dominates_exitGraph_iff (hf : f.Closed) (ha : exitIndex? f a = some j)
    (hb : exitIndex? f b = some k) :
    Idom.Dominates (exitGraph f) (j + 1) (k + 1) ↔ f.PostDominates a b := by
  constructor
  · intro h x hx hpath
    by_contra hxa
    obtain ⟨hba, hexit⟩ := exitPath_of_path hf ha hx hxa hpath hb
    obtain rfl : k = j := Nat.succ.inj (h hexit)
    exact hba (DomTree.number?_inj (t := (ofFunc f).postDominators f) hb ha)
  · intro h hexit
    by_cases hba : b = a
    · subst hba
      rw [ha] at hb
      cases hb
      rfl
    · obtain ⟨x, hx, hxa, hpath⟩ := path_of_exitPath hf ha hexit hb hba
      exact absurd (h x hx hpath) hxa

/-! ## The tree -/

theorem length_exitGraph_pos (f : Func) : 0 < (exitGraph f).length := by
  simp [exitGraph]

/-- The tree reads its parents off the immediate dominators of the reversed graph, in which the block
at position `k` is node `k + 1`. -/
theorem reads_postDominators (hf : f.Closed) :
    ∃ idoms, Idom.compute? (exitGraph f) = some idoms ∧
      ((ofFunc f).postDominators f).Reads idoms 1 := by
  have hn := nodup_exitOrder hf
  obtain ⟨idoms, hc, hs, -⟩ :=
    Idom.exists_compute? (numbered_exitGraph hf) (length_exitGraph_pos f)
  refine ⟨idoms, hc, hs.toRooted, fun b p => ?_⟩
  have hcompute : Idom.compute (exitGraph f) = idoms := by
    unfold Idom.compute
    rw [hc, Option.getD_some]
  have hparent : ((ofFunc f).postDominators f).parent? b = some p ↔ ∃ k, exitIndex? f b = some k ∧
      ∃ m, idoms[k + 1]?.join = some (m + 1) ∧ ((ofFunc f).exitOrder f)[m]? = some p := by
    rw [← hcompute]
    unfold postDominators
    rw [DomTree.parent?_ofParents hn, Option.bind_eq_some_iff]
    refine exists_congr fun k => and_congr_right fun _ => ⟨fun h => ?_, ?_⟩
    · split at h
      · exact ⟨_, ‹_›, h⟩
      · cases h
    · rintro ⟨m, hm, hp⟩
      split
      · rename_i m' hm'
        obtain rfl : m = m' := Nat.succ.inj (Option.some.inj (hm.symm.trans hm'))
        exact hp
      · rename_i hnone
        exact absurd hm (hnone m)
  rw [hparent]
  constructor
  · rintro ⟨k, hk, m, hm, hp⟩
    have hnum := DomTree.number?_of_getElem? (t := (ofFunc f).postDominators f) hn hp
    have hlt := hs.toRooted.lt (k + 1) (m + 1) (Nat.succ_pos k) hm
    exact ⟨k, m, hk, hnum, by omega, hm⟩
  · rintro ⟨k, m, hk, hm, -, hcand⟩
    exact ⟨k, hk, m, hcand, DomTree.getElem?_order hm⟩

theorem dominates_postDominators_iff (hf : f.Closed) :
    ((ofFunc f).postDominators f).dominates a b = true ↔
      ((f.Reachable a ∧ f.ReachesExit a) ∧ f.Reachable b ∧ f.ReachesExit b) ∧
        f.PostDominates a b := by
  obtain ⟨idoms, hc, hr⟩ := reads_postDominators hf
  rw [← mem_exitOrder hf, ← mem_exitOrder hf]
  refine hr.dominates_iff_of (nodup_exitOrder hf) fun {a b j k} ha hb => ?_
  calc Idom.Above idoms (k + 1) (j + 1) ↔ Idom.Dominates (exitGraph f) (j + 1) (k + 1) :=
        Idom.above_iff_dominates (numbered_exitGraph hf) hc (lt_length_exitGraph hb)
    _ ↔ f.PostDominates a b := dominates_exitGraph_iff hf ha hb

/-- The post-dominator tree is exact. It says that `a` post-dominates `b` if both are reachable and
reach an exit and every path from `b` to an exit passes `a`; a block has no parent just if it reaches
no exit or nothing post-dominates it strictly; and the parent of a block is the strict post-dominator
of it that every strict post-dominator of it post-dominates, the nearest one. -/
theorem postDominators_exact (hf : f.Closed) :
    (∀ a b, ((ofFunc f).postDominators f).dominates a b = true ↔
      (f.Reachable a ∧ f.Reachable b) ∧ (f.ReachesExit a ∧ f.ReachesExit b) ∧
        f.PostDominates a b) ∧
    (∀ b, ((ofFunc f).postDominators f).parent? b = none ↔
      ¬ f.ReachesExit b ∨ ∀ a, ¬ f.StrictlyPostDominates a b) ∧
    ∀ b p, ((ofFunc f).postDominators f).parent? b = some p ↔
      f.StrictlyPostDominates p b ∧ ∀ a, f.StrictlyPostDominates a b → f.PostDominates a p := by
  obtain ⟨idoms, -, hr⟩ := reads_postDominators hf
  have hleaves : ∀ {a b}, f.PostDominates a b → f.Reachable b ∧ f.ReachesExit b →
      f.Reachable a ∧ f.ReachesExit a := fun h ⟨hb, hx⟩ =>
    ⟨Search.Reach.trans hb (h.reaches hx).1, (h.reaches hx).2⟩
  refine ⟨fun a b => ?_, fun b => ?_, fun b p => ?_⟩
  · rw [dominates_postDominators_iff hf]
    tauto
  · rw [hr.parent?_eq_none_iff]
    constructor
    · intro hall
      refine .inr fun a ⟨hne, hb, hd⟩ => hne (hall a ?_)
      exact (dominates_postDominators_iff hf).mpr ⟨⟨hleaves hd hb, hb⟩, hd⟩
    · intro h a ha
      obtain ⟨⟨-, hb⟩, hd⟩ := (dominates_postDominators_iff hf).mp ha
      by_contra hne
      rcases h with h | h
      · exact h hb.2
      · exact h a ⟨hne, hb, hd⟩
  · exact hr.parent?_eq_some_iff_of (dominates_postDominators_iff hf) hleaves

/-- A loop without an exit beside two exits that a common block comes before. -/
def stuck : Func where
  params := [.bool]
  retTy := .void
  blocks := #[
    { term := .brIf (.param 0) 1 2 },
    { term := .br 1 },
    { term := .brIf (.param 0) 3 4 },
    { term := .br 5 },
    { term := .br 5 },
    { term := .brIf (.param 0) 6 7 },
    { term := .ret none },
    { term := .unreachable }]
  insts := #[]
  layout := [0, 1, 2, 3, 4, 5, 6, 7]

theorem postDominators_exact_stuck :
    stuck.Closed ∧ stuck.StrictlyPostDominates 5 2 ∧
      (∀ a, stuck.StrictlyPostDominates a 2 → stuck.PostDominates a 5) ∧
      (∀ a, ¬ stuck.StrictlyPostDominates a 5) ∧ stuck.PostDominates 2 0 := by
  have hf : stuck.Closed := (by decide : stuck.Coherent).toClosed
  obtain ⟨hdom, hnone, hsome⟩ := postDominators_exact hf
  obtain ⟨h5, hlow⟩ := (hsome 2 5).mp (by decide)
  refine ⟨hf, h5, hlow, ?_, ((hdom 2 0).mp (by decide)).2.2⟩
  rcases (hnone 5).mp (by decide) with h | h
  · exact absurd (h5.2.2.reaches h5.2.1.2).2 h
  · exact h

end Cfg

end Lockstep
