import Lockstep.Proofs.Linear.Reroute

/-!
# Ways through a function

When the blocks of a span are made to follow each other, what dominates a block still does, each block of
the span dominates those after it (`Span.dominates_after`), and a course that comes to the branch is led
through the whole span (`Span.exists_detour`).
-/

namespace Lockstep

namespace Func

variable {f : Func} {branch join a b c : BlockId} {cs pre post P : List BlockId}

/-! ## Dominance -/

namespace Span

variable (h : f.Span branch join cs)

include h

/-- A block of a span is reached along blocks before it. -/
theorem path_before (e : cs = pre ++ b :: post) : f.Path (· ∈ pre) branch b := by
  induction hk : pre.length using Nat.strong_induction_on generalizing pre b post with
  | _ k ih =>
  by_cases hb : branch = b
  · exact hb ▸ .refl _
  have hmem : b ∈ cs := by rw [e]; simp
  obtain ⟨x, -, hx, hxb⟩ := (h.path b hmem).exists_last hb
  obtain ⟨pre', post', e'⟩ := List.append_of_mem hx
  have hpost := (h.forward pre' x post' e' b hxb).resolve_left (h.ne_join hmem)
  obtain ⟨mid, post'', rfl⟩ := List.append_of_mem hpost
  have e2 : cs = (pre' ++ x :: mid) ++ b :: post'' := by rw [e']; simp
  obtain ⟨rfl, -⟩ := h.split_unique e e2
  have hpath := ih pre'.length (by rw [← hk]; simp) e' rfl
  exact (hpath.mono fun y hy => List.mem_append_left _ hy).tail (by simp) hxb

/-- Some block of the span leads to the join, and the join is reached along the span. -/
theorem path_join : f.Path (· ∈ cs) branch join := by
  have hp : f.Path (fun _ => True) branch join :=
    Relation.ReflTransGen.mono (fun _ _ h => ⟨trivial, h⟩) _ _ h.reaches_join
  obtain ⟨z, rfl, hz⟩ := hp.exists_first (· = join) rfl
  have hz : f.Path (· ≠ z) branch z := hz.mono fun x hx => hx.2
  obtain ⟨x, hpx, hx, hxz⟩ := hz.exists_last (h.ne_join h.mem)
  have hmem := (h.mem_of_path hpx).resolve_left hx
  exact (h.path x hmem).tail hmem hxz

/-- A path to a block of a span passes the branch. -/
theorem path_branch {Q : BlockId → Prop} (hb : b ∈ cs) (hp : f.Path Q f.entry b) :
    f.Path Q f.entry branch := by
  rcases hp.avoid_or_last (· = branch) with hp' | ⟨x, -, hx, -, rfl, -, -⟩
  · exact h.dominates b hb (hp'.mono fun x hx => hx.2) ▸ hp
  · exact hx

variable (hc : f.Closed) (hf : f.Acyclic)

include hc hf

/-- A block of the span dominates those after it. -/
theorem dominates_after (e : cs = pre ++ b :: post) (ha : a ∈ post) :
    (f.reroute cs join).Dominates b a := by
  intro hp
  have key : f.Reachable a ∧ a ∉ post := by
    refine hp.induct (R := fun a => f.Reachable a ∧ a ∉ post) ⟨reachable_entry f, fun hm => ?_⟩ ?_
    · have hm : f.entry ∈ post := hm
      have hmem : f.entry ∈ cs := by rw [e]; simp [hm]
      exact h.ne_branch_of_mem_post e hm (dominates_entry_iff.mp (h.dominates _ hmem)).symm
    · rintro x y hxb ⟨hxr, hx⟩ hxy
      refine ⟨(h.reachable_reroute hc).mp (((h.reachable_reroute hc).mpr hxr).step hxy), fun hy => ?_⟩
      have hyc : y ∈ cs := by rw [e]; simp [hy]
      have hxc : x ∈ cs := by
        by_contra hn
        exact hn (h.pred_mem hc hf hyc (h.ne_branch_of_mem_post e hy) hxr (h.edge_of_not_mem hc hn hxy))
      -- so `x` stands before `b`, and the next block is not one after `b`
      have hxpre : x ∈ pre := by
        rw [e] at hxc
        exact (List.mem_append.mp hxc).resolve_right fun hm => (List.mem_cons.mp hm).elim hxb hx
      obtain ⟨-, hbpost, hdisj⟩ := h.not_mem_pre_post e
      obtain ⟨pre', mid, rfl⟩ := List.append_of_mem hxpre
      have e' : cs = pre' ++ x :: (mid ++ b :: post) := by rw [e]; simp
      rcases h.next_of_edge hc e' hxy with ⟨rest, hnext⟩ | ⟨hnext, -⟩
      · rcases mid with - | ⟨z, mid⟩
        · exact hbpost ((List.cons.inj hnext).1 ▸ hy)
        · exact hdisj y (by simp [(List.cons.inj hnext).1]) hy
      · simp at hnext
  exact absurd ha key.2

/-- What dominates a block still does when the blocks of a span follow each other. -/
theorem dominates_reroute (hd : f.Dominates a b) : (f.reroute cs join).Dominates a b := by
  intro hp
  refine hd (hp.induct (R := fun y => (f.reroute cs join).Path (· ≠ a) f.entry y ∧
    f.Path (· ≠ a) f.entry y) ⟨.refl _, .refl _⟩ ?_).2
  rintro x y hxa ⟨hx', hx⟩ hxy
  refine ⟨hx'.tail hxa hxy, ?_⟩
  by_cases hxc : x ∈ cs
  · obtain ⟨pre, post, e⟩ := List.append_of_mem hxc
    have hbranch := h.path_branch hxc hx
    -- the blocks before `x` dominate it, so that `a` is none of them
    have hpre : ∀ z ∈ pre ++ [x], z ≠ a := by
      rintro z hz rfl
      rcases List.mem_append.mp hz with hz | hz
      · obtain ⟨pre', mid, rfl⟩ := List.append_of_mem hz
        have e' : cs = pre' ++ z :: (mid ++ x :: post) := by rw [e]; simp
        exact hxa (h.dominates_after hc hf e' (by simp) hx')
      · exact hxa (List.mem_singleton.mp hz).symm
    rcases h.next_of_edge hc e hxy with ⟨rest, rfl⟩ | ⟨rfl, rfl⟩
    · have e' : cs = (pre ++ [x]) ++ y :: rest := by rw [e]; simp
      exact hbranch.trans ((h.path_before e').mono hpre)
    · exact hbranch.trans (h.path_join.mono fun z hz => hpre z (e ▸ hz))
  · exact hx.tail hxa (h.edge_of_not_mem hc hxc hxy)

/-- The last block of a span dominates the join if all that leads to the join is in the span. -/
theorem dominates_join (e : cs = pre ++ [b])
    (hall : ∀ p, f.Reachable p → f.Edge p join → p ∈ cs) : (f.reroute cs join).Dominates b join := by
  intro hp
  have key : ∀ y, (f.reroute cs join).Path (· ≠ b) f.entry y → f.Reachable y ∧ y ≠ join := by
    intro y hy
    refine hy.induct (R := fun y => f.Reachable y ∧ y ≠ join)
      ⟨reachable_entry f, h.entry_ne_join hc hf⟩ ?_
    rintro x y hxb ⟨hxr, -⟩ hxy
    refine ⟨(h.reachable_reroute hc).mp (((h.reachable_reroute hc).mpr hxr).step hxy), ?_⟩
    rintro rfl
    rcases (h.edge_reroute hc).mp hxy with hl | ⟨hxc, hxy⟩
    · rcases mem_links_iff.mp hl with ⟨pre', post', e'⟩ | ⟨pre', e', -⟩
      · exact h.join_not_mem (by rw [e']; simp)
      · exact hxb (List.cons.inj (List.append_inj' (e'.symm.trans e) rfl).2).1
    · exact hxc (hall x hxr hxy)
  exact absurd rfl (key join hp).2

end Span

/-! ## Courses through a span -/

/-- A course of a function, and what becomes of it when the blocks of a span follow each other. -/
structure Detour (f : Func) (cs : List BlockId) (branch join : BlockId) (P P' : List BlockId) : Prop where
  course : (f.reroute cs join).Course P'
  sublist : P.Sublist P'
  inside : ∀ x ∈ cs, x ∈ P' ↔ branch ∈ P
  outside : ∀ x, x ∉ cs → (x ∈ P' ↔ x ∈ P)
  link : ∀ x y, (x, y) ∈ links cs join → ([x, y] <:+: P' ↔ branch ∈ P)
  edge : ∀ x y, x ∉ cs → ([x, y] <:+: P' ↔ [x, y] <:+: P)

/-- A course that comes to the branch: up to there, along the span, and on from the join. -/
structure Passage (cs : List BlockId) (branch join : BlockId) (P A B C : List BlockId) : Prop where
  eq : P = A ++ (B ++ join :: C)
  head : B.head? = some branch
  before : ∀ x ∈ A, x ∉ cs
  along : ∀ x ∈ B, x ∈ cs
  after : ∀ x ∈ join :: C, x ∉ cs

theorem isChain_links (cs : List BlockId) (join : BlockId) :
    cs.IsChain fun x y => (x, y) ∈ links cs join := by
  have key : ∀ (post pre : List BlockId), cs = pre ++ post →
      post.IsChain fun x y => (x, y) ∈ links cs join := by
    intro post
    induction post with
    | nil => exact fun _ _ => .nil
    | cons x post ih =>
      intro pre e
      cases post with
      | nil => exact .singleton x
      | cons y post =>
        exact .cons_cons (mem_links_iff.mpr (.inl ⟨pre, post, e⟩)) (ih (pre ++ [x]) (by rw [e]; simp))
  exact key cs [] rfl

namespace Span

variable (h : f.Span branch join cs) (hc : f.Closed) (hf : f.Acyclic)

include h

/-- A course that does not come to the branch has no block of the span. -/
theorem not_mem_of_course (hP : f.Course P) (hb : branch ∉ P) (ha : a ∈ P) : a ∉ cs := by
  intro hac
  obtain ⟨rest, rfl⟩ := List.head?_eq_some_iff.mp hP.start
  have hpath := path_along (Q := (· ≠ branch)) hP.chain ha fun x hx e => hb (e ▸ hx)
  exact hb (h.dominates a hac hpath ▸ ha)

include hc hf

/-- A course that comes to the branch runs along the span to the join. -/
theorem exists_passage (hP : f.Course P) (hb : branch ∈ P) :
    ∃ A B C, Passage cs branch join P A B C := by
  obtain ⟨A, B, rfl⟩ := List.append_of_mem hb
  have hchain : (branch :: B).IsChain f.Edge := hP.chain.right_of_append
  have hjoin : join ∈ branch :: B := by
    by_contra hn
    obtain ⟨x, v, hx, hret⟩ := hP.ends
    rw [List.getLast?_append_of_ne_nil _ (List.cons_ne_nil _ _)] at hx
    have hmem := List.mem_of_getLast? hx
    have hpath := path_along (Q := (· ≠ join)) hchain hmem fun y hy e => hn (e ▸ hy)
    have hexit : (f.term x).isExit = true := by rw [hret]; rfl
    exact hn (h.postDominates x hexit hpath ▸ hmem)
  obtain ⟨B, C, e, hB⟩ := List.eq_append_cons_of_mem hjoin
  rcases B with - | ⟨x, B⟩
  · exact absurd (List.cons.inj e).1 (h.ne_join h.mem)
  obtain ⟨rfl, -⟩ := List.cons.inj e
  have hpair := hP.pairwise
  rw [e] at hchain hpair ⊢
  refine ⟨A, branch :: B, C, rfl, rfl, fun y hy hyc => ?_, fun y hy => ?_, fun y hy hyc => ?_⟩
  · have hlead := (List.pairwise_append.mp hpair).2.2 y hy branch (by simp)
    exact hf.not_leads h.reachable (reaches_of_path (h.path y hyc)) hlead
  · have hpath := path_along (Q := (· ≠ join)) hchain.left_of_append hy fun z hz e => hB (e ▸ hz)
    exact (h.mem_of_path hpath).resolve_left fun e => hB (e ▸ hy)
  · rcases List.mem_cons.mp hy with rfl | hy
    · exact h.join_not_mem hyc
    · have hlead := (List.pairwise_append.mp (List.pairwise_append.mp hpair).2.1).2.1
      exact h.not_reaches_of_join hc hf hyc ((List.pairwise_cons.mp hlead).1 y hy).reaches

omit hf in
/-- Outside the span a chain of edges stays one. -/
theorem isChain_reroute {l : List BlockId} (hl : l.IsChain f.Edge) (hn : ∀ x ∈ l, x ∉ cs) :
    l.IsChain (f.reroute cs join).Edge :=
  hl.imp_of_mem_imp fun x _ hx _ hxy => (h.edge_reroute hc).mpr (.inr ⟨hn x hx, hxy⟩)

omit hf in
/-- Run from end to end, the whole span takes the place of what a course takes of it. -/
theorem course_passage (hP : f.Course P) {A B C : List BlockId} (hp : Passage cs branch join P A B C) :
    (f.reroute cs join).Course (A ++ (cs ++ join :: C)) := by
  have hhead : cs.head? = B.head? := by
    obtain ⟨rest, e⟩ := h.exists_cons
    rw [hp.head, e]
    rfl
  have hchain := hP.chain
  rw [hp.eq, List.isChain_append] at hchain
  obtain ⟨hA, hrest, hAB⟩ := hchain
  refine ⟨?_, List.isChain_append.mpr ⟨h.isChain_reroute hc hA hp.before, List.isChain_append.mpr
    ⟨?_, h.isChain_reroute hc (List.isChain_append.mp hrest).2.1 hp.after, ?_⟩, ?_⟩, ?_⟩
  · have hstart := hP.start
    rw [hp.eq, List.head?_append, List.head?_append] at hstart
    rw [List.head?_append, List.head?_append, hhead]
    exact hstart
  · exact (isChain_links cs join).imp fun x y hxy => (h.edge_reroute hc).mpr (.inl hxy)
  · intro x hx y hy
    obtain ⟨init, e⟩ := List.getLast?_eq_some_iff.mp hx
    cases hy
    exact (h.edge_reroute hc).mpr (.inl (mem_links_iff.mpr (.inr ⟨init, e, rfl⟩)))
  · intro x hx y hy
    rw [List.head?_append, hhead, ← List.head?_append] at hy
    exact (h.edge_reroute hc).mpr
      (.inr ⟨hp.before x (List.mem_of_getLast? hx), hAB x hx y hy⟩)
  · obtain ⟨x, v, hx, hret⟩ := hP.ends
    rw [hp.eq, ← List.append_assoc, List.getLast?_append_of_ne_nil _ (List.cons_ne_nil _ _)] at hx
    refine ⟨x, v, ?_, ?_⟩
    · rw [← List.append_assoc, List.getLast?_append_of_ne_nil _ (List.cons_ne_nil _ _)]
      exact hx
    · rw [term_reroute_of_not_mem (hp.after x (List.mem_of_getLast? hx))]
      exact hret

omit hf in
theorem detour_passage (hP : f.Course P) {A B C : List BlockId} (hp : Passage cs branch join P A B C) :
    f.Detour cs branch join P (A ++ (cs ++ join :: C)) := by
  have hb : branch ∈ P := by
    rw [hp.eq]
    simp [List.mem_of_head? hp.head]
  have hhead : cs.head? = some branch := by
    obtain ⟨rest, e⟩ := h.exists_cons
    rw [e]
    rfl
  have hchain : B.IsChain f.Edge := by
    have hchain := hP.chain
    rw [hp.eq] at hchain
    exact hchain.right_of_append.left_of_append
  refine ⟨h.course_passage hc hP hp, ?_, fun x hx => ?_, fun x hx => ?_, fun x y hxy => ?_,
    fun x y hx => ?_⟩
  · rw [hp.eq]
    exact (List.Sublist.refl A).append ((h.sublist hchain hp.along).append (.refl _))
  · exact iff_of_true (by simp [hx]) hb
  · have hxB : x ∉ B := fun hm => hx (hp.along x hm)
    rw [hp.eq]
    simp [hx, hxB]
  · refine iff_of_true ?_ hb
    refine pair_append.mpr (.inr (.inl ?_))
    rcases mem_links_iff.mp hxy with ⟨pre, post, e⟩ | ⟨pre, e, ey⟩
    · exact pair_append.mpr (.inl ⟨pre, post, by rw [e]; simp⟩)
    · refine pair_append.mpr (.inr (.inr ⟨?_, by rw [← ey]; rfl⟩))
      rw [e]
      simp
  · have hnot : ∀ {l : List BlockId}, (∀ z ∈ l, z ∈ cs) → ¬ [x, y] <:+: l := fun hl hxy =>
      hx (hl x (mem_of_pair hxy).1)
    have hnotlast : ∀ {l : List BlockId}, (∀ z ∈ l, z ∈ cs) → l.getLast? ≠ some x := fun hl e =>
      hx (hl x (List.mem_of_getLast? e))
    rw [hp.eq, pair_append, pair_append, @pair_append _ _ _ A, @pair_append _ _ _ B,
      List.head?_append, List.head?_append, hp.head, hhead]
    simp [hnot hp.along, hnot (l := cs) fun _ hz => hz, hnotlast hp.along,
      hnotlast (l := cs) fun _ hz => hz]

omit hf in
/-- A course that does not come to the branch stays as it is. -/
theorem detour_self (hP : f.Course P) (hb : branch ∉ P) : f.Detour cs branch join P P := by
  have hnot : ∀ x ∈ P, x ∉ cs := fun x hx => h.not_mem_of_course hP hb hx
  refine ⟨⟨hP.start, h.isChain_reroute hc hP.chain hnot, ?_⟩, .refl P, fun x hx => ?_, fun _ _ => .rfl,
    fun x y hxy => ?_, fun _ _ _ => .rfl⟩
  · obtain ⟨x, v, hx, hret⟩ := hP.ends
    exact ⟨x, v, hx, (term_reroute_of_not_mem (hnot x (List.mem_of_getLast? hx)) join).trans hret⟩
  · exact iff_of_false (fun hm => hnot x hm hx) hb
  · exact iff_of_false (fun hm => hnot x (mem_of_pair hm).1 (mem_of_link hxy).1) hb

/-- Every course becomes one of the function whose span is run from end to end. -/
theorem exists_detour (hP : f.Course P) : ∃ P', f.Detour cs branch join P P' := by
  by_cases hb : branch ∈ P
  · obtain ⟨A, B, C, hp⟩ := h.exists_passage hc hf hP hb
    exact ⟨_, h.detour_passage hc hP hp⟩
  · exact ⟨P, h.detour_self hc hP hb⟩

end Span

end Func

end Lockstep
