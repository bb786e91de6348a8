import Lockstep.Proofs.Func.Refit
import Lockstep.Proofs.Linear.Span

/-!
# Running a span from end to end

When the blocks of a span are made to follow each other, the same blocks are reached, dominance stays
and there are still no cycles. What is more, every block of the span then dominates those after it. A
way through the function becomes one that runs through the whole span where it ran through a part of
it (`Span.exists_detour`).
-/

namespace Lockstep

namespace Func

variable {f g : Func} {branch join a b c : BlockId} {cs pre post : List BlockId}

namespace Span

section Shape

variable (h : f.Span branch join cs)

include h

theorem reachable_of_mem (hb : b ∈ cs) : f.Reachable b :=
  h.reachable.reaches (reaches_of_path (h.path b hb))

theorem reaches_join : f.Reaches branch join := (h.postDominates.reaches h.exit).1

theorem ne_join (hb : b ∈ cs) : b ≠ join := fun e => h.join_not_mem (e ▸ hb)

/-- A span starts with its branch. -/
theorem exists_cons : ∃ rest, cs = branch :: rest := by
  cases cs with
  | nil => cases h.mem
  | cons b rest =>
    by_cases hne : branch = b
    · exact ⟨rest, by rw [hne]⟩
    obtain ⟨x, -, hx, hxb⟩ := (h.path b List.mem_cons_self).exists_last hne
    obtain ⟨pre, post, e⟩ := List.append_of_mem hx
    have hb := (h.forward pre x post e b hxb).resolve_left (h.ne_join List.mem_cons_self)
    have hn := h.nodup
    rcases pre with - | ⟨y, pre⟩
    · obtain ⟨-, rfl⟩ := List.cons.inj e
      exact absurd hb (List.nodup_cons.mp hn).1
    · obtain ⟨-, rfl⟩ := List.cons.inj e
      exact absurd (List.mem_append_right pre (List.mem_cons_of_mem x hb)) (List.nodup_cons.mp hn).1

theorem ne_branch_of_mem_post (e : cs = pre ++ a :: post) (hb : b ∈ post) : b ≠ branch := by
  rintro rfl
  obtain ⟨rest, e'⟩ := h.exists_cons
  have hn := h.nodup
  rw [e'] at e hn
  rcases pre with - | ⟨y, pre⟩
  · obtain ⟨-, rfl⟩ := List.cons.inj e
    exact (List.nodup_cons.mp hn).1 hb
  · obtain ⟨-, rfl⟩ := List.cons.inj e
    exact (List.nodup_cons.mp hn).1 (List.mem_append_right pre (List.mem_cons_of_mem a hb))

theorem not_mem_pre_post (e : cs = pre ++ b :: post) : b ∉ pre ∧ b ∉ post ∧ ∀ x ∈ pre, x ∉ post := by
  have hn := h.nodup
  rw [e] at hn
  obtain ⟨-, h2, h3⟩ := List.nodup_append.mp hn
  refine ⟨fun hb => h3 b hb b List.mem_cons_self rfl, (List.nodup_cons.mp h2).1, fun x hx hp => ?_⟩
  exact h3 x hx x (List.mem_cons_of_mem _ hp) rfl

theorem split_unique {pre' post' : List BlockId} (e : cs = pre ++ b :: post)
    (e' : cs = pre' ++ b :: post') : pre = pre' ∧ post = post' := by
  obtain ⟨h1, h2, -⟩ := h.not_mem_pre_post e
  obtain ⟨h3, -, h4⟩ := (List.append_cons_inj_of_notMem h1 h2).mp (e.symm.trans e')
  exact ⟨h3, h4⟩

/-- A path from the branch that avoids the join stays in the span. -/
theorem mem_of_path (hp : f.Path (· ≠ join) branch b) : b = join ∨ b ∈ cs := by
  refine hp.induct (R := fun x => x = join ∨ x ∈ cs) (.inr h.mem) fun x y hx hR hxy => ?_
  have hmem := hR.resolve_left hx
  obtain ⟨pre, post, e⟩ := List.append_of_mem hmem
  refine (h.forward pre x post e y hxy).imp_right fun hy => ?_
  rw [e]
  exact List.mem_append_right _ (List.mem_cons_of_mem _ hy)

variable (hc : f.Closed) (hf : f.Acyclic)

include hc hf

/-- From each of its blocks control gets to the join. -/
theorem leads_join (hb : b ∈ cs) : f.Leads b join := by
  obtain ⟨x, hx, hbx⟩ := hf.reachesExit hc (h.reachable_of_mem hb)
  have hreach : f.Reaches b join := by
    rcases reaches_or_path hbx join with ⟨h1, -⟩ | hp
    · exact h1
    · have hbranch : f.Path (· ≠ join) branch b := (h.path b hb).mono fun y hy => h.ne_join hy
      rw [h.postDominates x hx (hbranch.trans hp)] at hbx
      exact hbx
  exact (eq_or_leads hreach).resolve_left (h.ne_join hb)

/-- All that leads to a block of a span, but the branch, is in the span. -/
theorem pred_mem (hb : b ∈ cs) (hne : b ≠ branch) (ha : f.Reachable a) (hab : f.Edge a b) :
    a ∈ cs := by
  have hdom := (h.dominates b hb).pred hne hab
  have hreach : f.Reaches branch a := by
    rcases reaches_or_path ha branch with ⟨-, h2⟩ | hp
    · exact h2
    · exact hdom hp ▸ .refl a
  have hcycle : ¬ f.Reaches join a := fun hja =>
    hf.not_leads_self (h.reachable.reaches h.reaches_join)
      ((leads_of_reaches hja (.of_edge hab)).trans (h.leads_join hc hf hb))
  rcases reaches_or_path hreach join with ⟨-, h2⟩ | hp
  · exact absurd h2 hcycle
  · exact (h.mem_of_path hp).resolve_left fun e => hcycle (e ▸ .refl _)

/-- No path leads back into a span from its join. -/
theorem not_reaches_of_join (hb : b ∈ cs) : ¬ f.Reaches join b := fun hjb =>
  hf.not_leads_self (h.reachable.reaches h.reaches_join) (leads_of_reaches hjb (h.leads_join hc hf hb))

theorem entry_ne_join : f.entry ≠ join := by
  intro e
  exact h.not_reaches_of_join hc hf h.mem (e ▸ h.reachable)

end Shape

/-- A list of blocks of a span along edges is a part of it. -/
theorem sublist (h : f.Span branch join cs) {l : List BlockId} (hl : l.IsChain f.Edge)
    (hmem : ∀ b ∈ l, b ∈ cs) : l.Sublist cs := by
  have key : ∀ (l : List BlockId) (b : BlockId) (pre post : List BlockId), cs = pre ++ b :: post →
      (b :: l).IsChain f.Edge → (∀ x ∈ l, x ∈ cs) → (b :: l).Sublist (b :: post) := by
    intro l
    induction l with
    | nil => exact fun b pre post _ _ _ => (List.nil_sublist post).cons_cons b
    | cons c l ih =>
      intro b pre post e hch hmem
      obtain ⟨hbc, hch⟩ := List.isChain_cons_cons.mp hch
      have hcs := hmem c List.mem_cons_self
      have hpost := (h.forward pre b post e c hbc).resolve_left (h.ne_join hcs)
      obtain ⟨pre', post', rfl⟩ := List.append_of_mem hpost
      have hsub := ih c (pre ++ b :: pre') post' (by rw [e]; simp) hch
        fun x hx => hmem x (List.mem_cons_of_mem _ hx)
      exact (hsub.trans (List.sublist_append_right _ _)).cons_cons b
  cases l with
  | nil => exact List.nil_sublist _
  | cons b l =>
    obtain ⟨pre, post, e⟩ := List.append_of_mem (hmem b List.mem_cons_self)
    rw [e]
    exact (key l b pre post e hl fun x hx => hmem x (List.mem_cons_of_mem _ hx)).trans
      (List.sublist_append_right _ _)

end Span

/-! ## Blocks that follow each other -/

/-- The blocks of a list, each with the one after it; the last comes before `join`. -/
def links (cs : List BlockId) (join : BlockId) : List (BlockId × BlockId) :=
  cs.zip (cs.drop 1 ++ [join])

theorem links_cons_cons (b c : BlockId) (cs : List BlockId) (join : BlockId) :
    links (b :: c :: cs) join = (b, c) :: links (c :: cs) join := rfl

theorem mem_links_iff {p : BlockId × BlockId} : p ∈ links cs join ↔
    (∃ pre post, cs = pre ++ p.1 :: p.2 :: post) ∨ ∃ pre, cs = pre ++ [p.1] ∧ p.2 = join := by
  obtain ⟨x, y⟩ := p
  induction cs with
  | nil => simp [links]
  | cons b cs ih =>
    cases cs with
    | nil =>
      constructor
      · intro hm
        obtain ⟨rfl, rfl⟩ := Prod.mk.inj (List.mem_singleton.mp hm)
        exact .inr ⟨[], rfl, rfl⟩
      · rintro (⟨pre, post, e⟩ | ⟨pre, e, rfl⟩)
        · exact absurd (congrArg List.length e) (by simp; omega)
        · rcases pre with - | ⟨z, pre⟩
          · obtain ⟨rfl, -⟩ := List.cons.inj e
            exact List.mem_singleton_self _
          · exact absurd (congrArg List.length e) (by simp)
    | cons c cs =>
      rw [links_cons_cons, List.mem_cons, ih]
      constructor
      · rintro (e | ⟨pre, post, e⟩ | ⟨pre, e, rfl⟩)
        · obtain ⟨rfl, rfl⟩ := Prod.mk.inj e
          exact .inl ⟨[], cs, rfl⟩
        · exact .inl ⟨b :: pre, post, by rw [e]; rfl⟩
        · exact .inr ⟨b :: pre, by rw [e]; rfl, rfl⟩
      · rintro (⟨pre, post, e⟩ | ⟨pre, e, rfl⟩)
        · rcases pre with - | ⟨z, pre⟩
          · obtain ⟨hb, e⟩ := List.cons.inj e
            obtain ⟨hc, -⟩ := List.cons.inj e
            exact .inl (Prod.ext hb.symm hc.symm)
          · exact .inr (.inl ⟨pre, post, (List.cons.inj e).2⟩)
        · rcases pre with - | ⟨z, pre⟩
          · exact absurd (congrArg List.length e) (by simp)
          · exact .inr (.inr ⟨pre, (List.cons.inj e).2, rfl⟩)

theorem map_fst_links (cs : List BlockId) (join : BlockId) : (links cs join).map Prod.fst = cs := by
  refine List.map_fst_zip ?_
  cases cs <;> simp

theorem exists_link (hb : b ∈ cs) (join : BlockId) : ∃ c, (b, c) ∈ links cs join := by
  rw [← map_fst_links cs join] at hb
  obtain ⟨⟨_, c⟩, hc, rfl⟩ := List.mem_map.mp hb
  exact ⟨c, hc⟩

theorem mem_of_link {p : BlockId × BlockId} (h : p ∈ links cs join) :
    p.1 ∈ cs ∧ (p.2 = join ∨ p.2 ∈ cs) := by
  rcases mem_links_iff.mp h with ⟨pre, post, rfl⟩ | ⟨pre, rfl, e⟩
  · exact ⟨by simp, .inr (by simp)⟩
  · exact ⟨by simp, .inl e⟩

theorem link_unique (hn : cs.Nodup) (hb : (a, b) ∈ links cs join) (hc : (a, c) ∈ links cs join) :
    b = c := by
  rw [← map_fst_links cs join] at hn
  exact (Prod.mk.inj (List.inj_on_of_nodup_map hn hb hc rfl)).2

/-- Makes the blocks of a list follow each other, and `join` the last. -/
def reroute (f : Func) (cs : List BlockId) (join : BlockId) : Func :=
  (links cs join).foldl (fun f p => f.setTerm p.1 (.br p.2)) f

theorem refits_reroute (f : Func) (cs : List BlockId) (join : BlockId) :
    f.Refits (f.reroute cs join) := by
  unfold reroute
  exact refits_foldl (fun f p => f.refits_setTerm p.1 (.br p.2)) (links cs join) f

theorem term_reroute_of_not_mem (hb : b ∉ cs) (join : BlockId) :
    (f.reroute cs join).term b = f.term b :=
  term_foldl_setTerm_of_not_mem (k := Prod.fst) (t := fun p => .br p.2)
    (by rwa [map_fst_links]) f

theorem term_reroute (hn : cs.Nodup) (hlt : ∀ x ∈ cs, x < f.blocks.size)
    (h : (b, c) ∈ links cs join) : (f.reroute cs join).term b = .br c :=
  term_foldl_setTerm (k := Prod.fst) (t := fun p => .br p.2) (by rwa [map_fst_links]) h f
    (hlt b (mem_of_link h).1)

namespace Span

variable (h : f.Span branch join cs) (hc : f.Closed)

include h hc

theorem term_reroute (hbc : (b, c) ∈ links cs join) : (f.reroute cs join).term b = .br c :=
  Func.term_reroute h.nodup (fun _ hx => (h.reachable_of_mem hx).lt hc) hbc

/-- The edges of the function whose blocks follow each other. -/
theorem edge_reroute : (f.reroute cs join).Edge b c ↔
    (b, c) ∈ links cs join ∨ b ∉ cs ∧ f.Edge b c := by
  by_cases hb : b ∈ cs
  · obtain ⟨d, hd⟩ := exists_link hb join
    rw [Edge, h.term_reroute hc hd]
    constructor
    · intro e
      rw [List.mem_singleton.mp e]
      exact .inl hd
    · rintro (e | ⟨hn, -⟩)
      · rw [link_unique h.nodup e hd]
        exact List.mem_singleton_self d
      · exact absurd hb hn
  · rw [Edge, term_reroute_of_not_mem hb]
    constructor
    · exact fun e => .inr ⟨hb, e⟩
    · rintro (e | ⟨-, e⟩)
      · exact absurd (mem_of_link e).1 hb
      · exact e

/-- Each block of the span leads to all after it and to the join. -/
theorem leads_after (e : cs = pre ++ b :: post) (hx : a ∈ post ∨ a = join) :
    (f.reroute cs join).Leads b a := by
  induction post generalizing pre b with
  | nil =>
    obtain rfl := hx.resolve_left List.not_mem_nil
    exact .of_edge ((h.edge_reroute hc).mpr (.inl (mem_links_iff.mpr (.inr ⟨pre, e, rfl⟩))))
  | cons d post ih =>
    have hbd : (f.reroute cs join).Edge b d :=
      (h.edge_reroute hc).mpr (.inl (mem_links_iff.mpr (.inl ⟨pre, post, e⟩)))
    by_cases had : a = d
    · exact had ▸ .of_edge hbd
    · have hx := hx.imp_left fun hm => (List.mem_cons.mp hm).resolve_left had
      have e' : cs = (pre ++ [b]) ++ d :: post := by rw [e]; simp
      exact (Leads.of_edge hbd).trans (ih e' hx)

/-- The same blocks are reached. -/
theorem reachable_reroute : (f.reroute cs join).Reachable b ↔ f.Reachable b := by
  constructor
  · intro hb
    refine hb.closed (reachable_entry f) fun x hx y hxy => ?_
    rcases (h.edge_reroute hc).mp hxy with hl | ⟨-, hxy⟩
    · rcases (mem_of_link hl).2 with e | hm
      · rw [show y = join from e]
        exact h.reachable.reaches h.reaches_join
      · exact h.reachable_of_mem hm
    · exact hx.step hxy
  · intro hb
    refine hb.closed (reachable_entry _) fun x hx y hxy => ?_
    by_cases hxc : x ∈ cs
    · obtain ⟨pre, post, e⟩ := List.append_of_mem hxc
      exact hx.reaches (h.leads_after hc e (h.forward pre x post e y hxy).symm).reaches
    · exact hx.step ((h.edge_reroute hc).mpr (.inr ⟨hxc, hxy⟩))

/-- The edge from a block of the span leads to the next one, or from the last one to the join. -/
theorem next_of_edge (e : cs = pre ++ b :: post) (hbc : (f.reroute cs join).Edge b c) :
    (∃ rest, post = c :: rest) ∨ post = [] ∧ c = join := by
  have hl := ((h.edge_reroute hc).mp hbc).resolve_right fun hn => hn.1 (by rw [e]; simp)
  cases post with
  | nil =>
    have hlast : (b, join) ∈ links cs join := mem_links_iff.mpr (.inr ⟨pre, e, rfl⟩)
    exact .inr ⟨rfl, link_unique h.nodup hl hlast⟩
  | cons d rest =>
    have hnext : (b, d) ∈ links cs join := mem_links_iff.mpr (.inl ⟨pre, rest, e⟩)
    exact .inl ⟨rest, by rw [link_unique h.nodup hl hnext]⟩

/-- A block outside the span keeps its edges. -/
theorem edge_of_not_mem (hb : b ∉ cs) (hbc : (f.reroute cs join).Edge b c) : f.Edge b c :=
  (((h.edge_reroute hc).mp hbc).resolve_left fun hl => hb (mem_of_link hl).1).2

/-- From a block of the span control only gets to those after it, and past the join. -/
theorem after_of_leads (e : cs = pre ++ b :: post) (hbc : (f.reroute cs join).Leads b c) :
    c ∈ post ∨ (f.reroute cs join).Reaches join c := by
  obtain ⟨d, hbd, hdc⟩ := hbc
  have hstep : ∀ {pre post y z}, cs = pre ++ y :: post → (f.reroute cs join).Edge y z →
      z ∈ post ∨ (f.reroute cs join).Reaches join z := by
    intro pre post y z e hyz
    rcases h.next_of_edge hc e hyz with ⟨rest, rfl⟩ | ⟨-, rfl⟩
    · exact .inl List.mem_cons_self
    · exact .inr (.refl _)
  refine hdc.closed (P := fun y => y ∈ post ∨ (f.reroute cs join).Reaches join y) ?_ (hstep e hbd)
  rintro y (hy | hy) z hyz
  · obtain ⟨mid, post', rfl⟩ := List.append_of_mem hy
    have e' : cs = (pre ++ b :: mid) ++ y :: post' := by rw [e]; simp
    exact (hstep e' hyz).imp_left fun hz => by simp [hz]
  · exact .inr (hy.tail hyz)

variable (hf : f.Acyclic)

include hf

/-- What is reached from the join is outside the span, and reached as before. -/
theorem outside_of_join (hb : (f.reroute cs join).Reaches join b) : f.Reaches join b ∧ b ∉ cs := by
  refine hb.closed (P := fun y => f.Reaches join y ∧ y ∉ cs) ?_ ⟨.refl _, h.join_not_mem⟩
  rintro y ⟨hr, hy⟩ z hyz
  have hz := hr.tail (h.edge_of_not_mem hc hy hyz)
  exact ⟨hz, fun hzc => h.not_reaches_of_join hc hf hzc hz⟩

/-- No block of the span leads back to itself. -/
theorem not_leads_self_of_mem (hb : b ∈ cs) : ¬ (f.reroute cs join).Leads b b := by
  intro hbb
  obtain ⟨pre, post, e⟩ := List.append_of_mem hb
  rcases h.after_of_leads hc e hbb with hpost | hjoin
  · exact (h.not_mem_pre_post e).2.1 hpost
  · exact (h.outside_of_join hc hf hjoin).2 hb

/-- There are still no cycles. -/
theorem acyclic_reroute : (f.reroute cs join).Acyclic := by
  intro b hb c hbc hcb
  have hbm : b ∉ cs := fun hm => h.not_leads_self_of_mem hc hf hm ⟨c, hbc, hcb⟩
  -- a cycle that never enters the span was there before
  have key : (f.Reaches c b ∧ b ∉ cs) ∨
      ∃ x ∈ cs, (f.reroute cs join).Reaches c x ∧ (f.reroute cs join).Reaches x b := by
    refine (hcb.closed (P := fun y => (f.reroute cs join).Reaches c y ∧ ((f.Reaches c y ∧ y ∉ cs) ∨
      ∃ x ∈ cs, (f.reroute cs join).Reaches c x ∧ (f.reroute cs join).Reaches x y)) ?_ ⟨.refl _, ?_⟩).2
    · rintro y ⟨hy', hy⟩ z hyz
      refine ⟨hy'.tail hyz, ?_⟩
      rcases hy with ⟨hr, hyc⟩ | ⟨x, hx, hcx, hxy⟩
      · by_cases hz : z ∈ cs
        · exact .inr ⟨z, hz, hy'.tail hyz, .refl _⟩
        · exact .inl ⟨hr.tail (h.edge_of_not_mem hc hyc hyz), hz⟩
      · exact .inr ⟨x, hx, hcx, hxy.tail hyz⟩
    · by_cases hc : c ∈ cs
      · exact .inr ⟨c, hc, .refl _, .refl _⟩
      · exact .inl ⟨.refl _, hc⟩
  rcases key with ⟨hr, -⟩ | ⟨x, hx, hcx, hxb⟩
  · exact hf b ((h.reachable_reroute hc).mp hb) c (h.edge_of_not_mem hc hbm hbc) hr
  · exact h.not_leads_self_of_mem hc hf hx (leads_of_reaches hxb ⟨c, hbc, hcx⟩)

end Span

end Func

end Lockstep
