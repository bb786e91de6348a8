import Lockstep.Proofs.Loop.SplitPaths

/-!
# Split loops in static single assignment form

Splitting off a remainder keeps a function in static single assignment form
(`SplitSteps.ssa_split`). Where a value was available, the value that stands for it is: in old
blocks values keep their names (`available_old`), copies use copies (`available_copy`), and behind
the loop copies stand for values of the header, which the copied header has passed on
(`available_outside`). What a phi takes along an edge follows the same way (`exists_incoming`).
-/

namespace Lockstep

namespace SplitSteps

variable {f f1 g g' : Func} {l : Loop} {c : CountedLoop} {ds : List Instr} {t : Instr}
  {ρ : InstId → InstId} {β : BlockId → BlockId} {pre a b x y : BlockId} {i phi : InstId} {v : Value}
  {before before' : List InstId}

section

variable (S : SplitSteps f l c ds t ρ β pre f1 g g')

include S

/-! ## Where values are available -/

theorem mem_body_old (hi : i ∈ f.body b) : i ∈ g'.body b := by
  by_cases hb : b ∈ l.blocks
  · rw [S.body_inside hb]
    exact List.mem_append_left _ hi
  · rw [S.body_outside (f.lt_of_mem_body hi) hb]
    exact List.mem_append_left _ hi

theorem mem_body_copy (hb : b ∈ l.blocks) (hi : i ∈ f.body b) : ρ i ∈ g'.body (β b) := by
  rw [S.body_copies hb]
  exact List.mem_map_of_mem hi

/-- In an old block, what was available still is. -/
theorem available_old (hb : b < f.blocks.size) (h : f.AvailableAt b before v)
    (hsub : ∀ i ∈ before, i ∈ before') : g'.AvailableAt b before' v := by
  refine Value.Within.mono h fun i hi => ?_
  rcases hi with hi | ⟨d, hne, hi, hdom⟩
  · exact .inl (hsub i hi)
  · exact .inr ⟨d, hne, S.mem_body_old hi, S.dominates_old hdom hb⟩

/-- Outside the loop, the copies of the values of the header stand for them. -/
theorem available_outside (hr : f.Reachable b) (hb : b ∉ l.blocks)
    (hbody : ∀ i ∈ before, i ∈ f.body b) (h : f.AvailableAt b before v)
    (hsub : ∀ i ∈ before, i ∈ before') : g'.AvailableAt b before' (v.rename ρ) := by
  have hlt := hr.lt S.ssa.toClosed
  refine Value.Within.rename h fun i hi => ?_
  rcases hi with hi | ⟨d, hne, hi, hdom⟩
  · rw [S.rename_of_mem hb (hbody i hi)]
    exact .inl (hsub i hi)
  · by_cases hd : d ∈ l.blocks
    · obtain rfl := S.eq_header_of_dominates hdom hd hb hr
      exact .inr ⟨_, S.copy_ne hd hlt, S.mem_body_copy hd hi, S.copy_dominates hdom hb hlt⟩
    · rw [S.rename_of_mem hd hi]
      exact .inr ⟨d, hne, S.mem_body_old hi, S.dominates_old hdom hlt⟩

/-- In a copy, the copy of what was available is. -/
theorem available_copy (hb : b ∈ l.blocks) (h : f.AvailableAt b before v)
    (hsub : ∀ i ∈ before, ρ i ∈ before') : g'.AvailableAt (β b) before' (v.rename ρ) := by
  refine Value.Within.rename h fun i hi => ?_
  rcases hi with hi | ⟨d, hne, hi, hdom⟩
  · exact .inl (hsub i hi)
  · by_cases hd : d ∈ l.blocks
    · have hne : β d ≠ β b := fun e => hne (S.copy_injective (S.lt_of_mem hd) (S.lt_of_mem hb) e)
      exact .inr ⟨_, hne, S.mem_body_copy hd hi, S.dominates_copy hdom hd hb⟩
    · rw [S.rename_of_mem hd hi]
      exact .inr ⟨d, (S.copy_ne hb (f.lt_of_mem_body hi)).symm, S.mem_body_old hi,
        S.dominates_new (S.dominates_header_of_not_mem hdom hd hb) (S.lt_copy hb).le⟩

/-- What the preheader computes is available in the header. -/
theorem available_bound {j : Nat} (hj : j < ds.length) :
    g'.AvailableAt l.header before (.inst (f.insts.size + j)) := by
  have hpre := S.preheader_mem
  refine .inr ⟨c.shape.preheader, fun e => hpre.1 (e ▸ S.header_mem), ?_,
    S.dominates_old (S.counted.preheader_dominates S.ssa S.mem S.header_mem) S.header_lt⟩
  rw [S.body_outside S.preheader_lt hpre.1, if_pos rfl]
  exact List.mem_append_right _ (List.mem_range'_1.mpr ⟨Nat.le_add_right _ _,
    Nat.add_lt_add_left hj _⟩)

/-! ## Phis -/

theorem phis_old (hb : b < f.blocks.size) : g'.phis b = f.phis b := by
  by_cases hin : b ∈ l.blocks
  · rw [(S.inside hin).phis, List.map_id]
  · rw [(S.outside hb hin).phis]
    exact (List.map_congr_left fun i hi => S.rename_of_mem hin (Func.mem_body_of_mem_phis hi)).trans
      (List.map_id _)

/-- Along every edge there is a value for a phi, which is available there. -/
theorem exists_incoming (hx : g'.Reachable x) (h : y ∈ (g'.term x).targets)
    (hphi : phi ∈ g'.phis y) :
    ∃ v, g'.incomingValue? phi x = some v ∧ g'.AvailableAt x (g'.body x) v := by
  have hf := S.ssa
  cases S.mem_targets_iff.mp h with
  | kept hlt h hne =>
    have hr := S.reachable_old hx hlt
    rw [S.phis_old (hf.target_lt _ _ h)] at hphi
    obtain ⟨v, hv, havail⟩ := hf.exists_incoming hr h hphi
    by_cases hy : y ∈ l.blocks
    · refine ⟨v, (S.incoming_inside hy hphi x).trans hv, S.available_old hlt havail ?_⟩
      exact fun i hi => S.mem_body_old hi
    · have hxl : x ∉ l.blocks := fun hxl => hy (hne (S.eq_of_leaving hxl hy h).1)
      have hv' := S.incoming_outside (hf.target_lt _ _ h) hy hphi hr h hv
      rw [S.copy_of_not_mem hxl, S.rename_of_mem hy (Func.mem_body_of_mem_phis hphi)] at hv'
      exact ⟨_, hv', S.available_outside hr hxl (fun i hi => hi) havail
        fun i hi => S.mem_body_old hi⟩
  | leave =>
    rw [S.pre_empty.1] at hphi
    cases hphi
  | enter =>
    rw [(S.copies S.header_mem).phis] at hphi
    obtain ⟨phi', hphi', rfl⟩ := List.mem_map.mp hphi
    exact ⟨_, S.incoming_pre hphi', .inr ⟨l.header, S.header_ne_pre,
      S.mem_body_old (Func.mem_body_of_mem_phis hphi'), S.dominates_new (.refl f _) S.pre_eq.ge⟩⟩
  | @copy x y hxl hyl hxy =>
    have hr := S.reachable hxl
    rw [(S.copies hyl).phis] at hphi
    obtain ⟨phi', hphi', rfl⟩ := List.mem_map.mp hphi
    obtain ⟨v, hv, havail⟩ := hf.exists_incoming hr hxy hphi'
    exact ⟨_, S.incoming_copy hyl hphi' hxl hv,
      S.available_copy hxl havail fun i hi => S.mem_body_copy hxl hi⟩
  | exit =>
    have hr := S.reachable S.header_mem
    obtain ⟨h, hlt⟩ := S.exit_edge
    rw [S.phis_old hlt] at hphi
    obtain ⟨v, hv, havail⟩ := hf.exists_incoming hr h hphi
    have hv' := S.incoming_outside hlt S.exit_not_mem hphi hr h hv
    rw [S.rename_of_mem S.exit_not_mem (Func.mem_body_of_mem_phis hphi)] at hv'
    exact ⟨_, hv', S.available_copy S.header_mem havail
      fun i hi => S.mem_body_copy S.header_mem hi⟩

/-- The entries of a phi are for the blocks that its counterpart has entries for, under other
names. -/
theorem keys_of_map {σ : BlockId → BlockId} {phi' : InstId} (hr : f.Reachable b)
    (hphi : phi ∈ f.phis b) (e : (g'.inst phi').incoming.map Prod.fst =
      ((f.inst phi).incoming.map Prod.fst).map σ)
    (hσ : ∀ x < f.blocks.size, ∀ y < f.blocks.size, σ x = σ y → x = y)
    (hlt : ∀ x < f.blocks.size, σ x < g'.blocks.size) :
    ((g'.inst phi').incoming.map Prod.fst).Nodup ∧
      ∀ p ∈ (g'.inst phi').incoming.map Prod.fst, p < g'.blocks.size := by
  have h := S.ssa.entries b hr phi hphi
  rw [e]
  refine ⟨h.nodup.map_on fun x hx y hy => hσ x (h.lt x hx) y (h.lt y hy), fun p hp => ?_⟩
  obtain ⟨x, hx, rfl⟩ := List.mem_map.mp hp
  exact hlt x (h.lt x hx)

theorem size_blocks_lt : f.blocks.size < g'.blocks.size := by
  rw [S.size_blocks, ← S.bound.size_blocks]
  exact S.added.size_blocks

theorem copy_lt (hb : b < f.blocks.size) : β b < g'.blocks.size := by
  by_cases hin : b ∈ l.blocks
  · rw [S.size_blocks]
    exact S.added.block_lt b hin
  · rw [S.copy_of_not_mem hin]
    exact Nat.lt_trans hb S.size_blocks_lt

theorem copy_ne_pre (hb : b < f.blocks.size) : β b ≠ pre := by
  rw [S.pre_eq]
  by_cases hin : b ∈ l.blocks
  · exact Nat.ne_of_gt (S.lt_copy hin)
  · rw [S.copy_of_not_mem hin]
    exact Nat.ne_of_lt hb

theorem pre_lt : pre < g'.blocks.size := S.pre_eq ▸ S.size_blocks_lt

/-- The phis of the exit have an entry for the copied header instead of the header. -/
theorem keys_exit (hphi : phi ∈ f.phis c.shape.exit) : (g'.inst phi).incoming.map Prod.fst =
    ((f.inst phi).incoming.map Prod.fst).map fun x => if x = l.header then β l.header else x := by
  rw [S.entries_exit hphi, S.header, ← Func.map_fst_renameEntry, List.map_map]
  rfl

theorem keys_outside (hlt : b < f.blocks.size) (hb : b ∉ l.blocks) (he : b ≠ c.shape.exit)
    (hphi : phi ∈ f.phis b) :
    (g'.inst phi).incoming.map Prod.fst = (f.inst phi).incoming.map Prod.fst := by
  rw [S.entries_outside hlt hb he hphi, List.map_map]
  rfl

theorem keys_copy (hb : b ∈ l.blocks) (hh : b ≠ l.header) (hphi : phi ∈ f.phis b) :
    (g'.inst (ρ phi)).incoming.map Prod.fst = ((f.inst phi).incoming.map Prod.fst).map β := by
  rw [S.entries_copy hb (S.header ▸ hh) hphi, List.map_map, List.map_map]
  rfl

/-- The phis of the copied header have an entry for the new preheader instead of the preheader. -/
theorem keys_header (hphi : phi ∈ f.phis l.header) : (g'.inst (ρ phi)).incoming.map Prod.fst =
    ((f.inst phi).incoming.map Prod.fst).map
      fun x => if β x = c.shape.preheader then pre else β x := by
  have hpre := S.preheader_mem
  obtain ⟨e, he, e1⟩ := List.mem_map.mp <|
    (S.ssa.entries _ (S.reachable S.header_mem) phi hphi).complete _ hpre.2.1 hpre.2.2
  have hmem : pre ∈ (Func.renameEntry c.shape.preheader pre
      ((f.inst phi).incoming.map fun e => (β e.1, e.2.rename ρ))).map Prod.fst := by
    rw [Func.map_fst_renameEntry, List.map_map, List.map_map]
    refine List.mem_map.mpr ⟨e, he, ?_⟩
    simp only [Function.comp_apply, e1, S.copy_of_not_mem hpre.1, if_true]
  rw [S.entries_header (S.header ▸ hphi), Func.map_fst_setEntry _ hmem, Func.map_fst_renameEntry,
    List.map_map, List.map_map, List.map_map]
  rfl

/-- A phi has entries for different blocks. -/
theorem keys (hr : g'.Reachable b) (hphi : phi ∈ g'.phis b) :
    ((g'.inst phi).incoming.map Prod.fst).Nodup ∧
      ∀ p ∈ (g'.inst phi).incoming.map Prod.fst, p < g'.blocks.size := by
  have hkeep : ∀ x < f.blocks.size, x < g'.blocks.size := fun x hx =>
    Nat.lt_trans hx S.size_blocks_lt
  rcases S.block_cases (hr.lt S.coherent.toClosed) with hlt | rfl | ⟨a, ha, rfl⟩
  · have hr := S.reachable_old hr hlt
    rw [S.phis_old hlt] at hphi
    have hsame : (g'.inst phi).incoming.map Prod.fst = (f.inst phi).incoming.map Prod.fst →
        ((g'.inst phi).incoming.map Prod.fst).Nodup ∧
          ∀ p ∈ (g'.inst phi).incoming.map Prod.fst, p < g'.blocks.size := fun e =>
      S.keys_of_map (σ := id) hr hphi (e.trans (List.map_id _).symm) (fun _ _ _ _ e => e) hkeep
    by_cases hb : b ∈ l.blocks
    · exact hsame (by rw [S.inst_inside hb (Func.mem_body_of_mem_phis hphi)])
    by_cases he : b = c.shape.exit
    · subst he
      refine S.keys_of_map hr hphi (S.keys_exit hphi) (fun x hx y hy => Func.eq_of_renamed_eq
        (S.copy_ne S.header_mem hx).symm (S.copy_ne S.header_mem hy).symm) fun x hx => ?_
      split
      · exact S.copy_lt S.header_lt
      · exact hkeep x hx
    · exact hsame (S.keys_outside hlt hb he hphi)
  · rw [S.pre_empty.1] at hphi
    cases hphi
  · rw [(S.copies ha).phis] at hphi
    obtain ⟨phi', hphi', rfl⟩ := List.mem_map.mp hphi
    by_cases hh : a = l.header
    · subst hh
      refine S.keys_of_map (S.reachable ha) hphi' (S.keys_header hphi')
        (fun x hx y hy e => S.copy_injective hx hy
          (Func.eq_of_renamed_eq (S.copy_ne_pre hx) (S.copy_ne_pre hy) e)) fun x hx => ?_
      split
      · exact S.pre_lt
      · exact S.copy_lt hx
    · exact S.keys_of_map (S.reachable ha) hphi' (S.keys_copy ha hh hphi')
        (fun _ hx _ => S.copy_injective hx) fun _ => S.copy_lt

/-- The entries are for predecessors, if they were and those in the loop were for reachable ones. -/
theorem mem_targets_of_key (hf : f.WellFormed)
    (hin : ∀ b ∈ l.blocks, ∀ phi ∈ f.phis b,
      ∀ p ∈ (f.inst phi).incoming.map Prod.fst, f.Reachable p)
    (hr : g'.Reachable b) (hphi : phi ∈ g'.phis b) {p : BlockId}
    (hp : p ∈ (g'.inst phi).incoming.map Prod.fst) : b ∈ (g'.term p).targets := by
  rw [S.mem_targets_iff]
  rcases S.block_cases (hr.lt S.coherent.toClosed) with hlt | rfl | ⟨a, ha, rfl⟩
  · have hr := S.reachable_old hr hlt
    rw [S.phis_old hlt] at hphi
    have hpred := (hf.entries b hr phi hphi).pred
    by_cases hb : b ∈ l.blocks
    · rw [S.inst_inside hb (Func.mem_body_of_mem_phis hphi)] at hp
      exact .kept (f.lt_of_mem_targets (hpred p hp)) (hpred p hp) fun _ => hb
    by_cases he : b = c.shape.exit
    · subst he
      rw [S.keys_exit hphi] at hp
      obtain ⟨x, hx, rfl⟩ := List.mem_map.mp hp
      split
      · exact .exit
      · rename_i hne
        exact .kept (f.lt_of_mem_targets (hpred x hx)) (hpred x hx) fun e => absurd e hne
    · rw [S.keys_outside hlt hb he hphi] at hp
      refine .kept (f.lt_of_mem_targets (hpred p hp)) (hpred p hp) ?_
      rintro rfl
      exact absurd (S.eq_of_leaving S.header_mem hb (hpred _ hp)).2 he
  · rw [S.pre_empty.1] at hphi
    cases hphi
  · rw [(S.copies ha).phis] at hphi
    obtain ⟨phi', hphi', rfl⟩ := List.mem_map.mp hphi
    have hpred := (hf.entries a (S.reachable ha) phi' hphi').pred
    have hentering : ∀ x ∈ (f.inst phi').incoming.map Prod.fst, x ∉ l.blocks →
        x = c.shape.preheader ∧ a = l.header := fun x hx hxl =>
      S.eq_of_entering (hin a ha phi' hphi' x hx) hxl ha (hpred x hx)
    by_cases hh : a = l.header
    · subst hh
      rw [S.keys_header hphi'] at hp
      obtain ⟨x, hx, rfl⟩ := List.mem_map.mp hp
      by_cases hxl : x ∈ l.blocks
      · rw [if_neg (S.copy_ne hxl S.preheader_lt)]
        exact .copy hxl ha (hpred x hx)
      · rw [S.copy_of_not_mem hxl, if_pos (hentering x hx hxl).1]
        exact .enter
    · rw [S.keys_copy ha hh hphi'] at hp
      obtain ⟨x, hx, rfl⟩ := List.mem_map.mp hp
      exact .copy (by_contra fun hxl => hh (hentering x hx hxl).2) ha (hpred x hx)

/-! ## Operations and terminators -/

/-- Blocks start with their phis. -/
theorem phis_first (hi : i ∈ g'.nonPhis b) : g'.isPhi i = false := by
  have hold : ∀ {a}, i ∈ f.nonPhis a → g'.isPhi i = false := fun {a} hi => by
    rw [S.isPhi_old (S.ssa.body_lt a i (Func.mem_body_of_mem_nonPhis hi))]
    exact S.ssa.phis_first a i hi
  rcases S.block_cases (g'.lt_of_mem_body (Func.mem_body_of_mem_nonPhis hi)) with
    hlt | rfl | ⟨a, ha, rfl⟩
  · by_cases hb : b ∈ l.blocks
    · rw [(S.inside hb).nonPhis, List.map_id] at hi
      exact (List.mem_append.mp hi).elim hold S.isPhi_test
    · have hsame : (f.nonPhis b).map ρ = f.nonPhis b :=
        (List.map_congr_left fun i hi => S.rename_of_mem hb (Func.mem_body_of_mem_nonPhis hi)).trans
          (List.map_id _)
      rw [(S.outside hlt hb).nonPhis, hsame] at hi
      exact (List.mem_append.mp hi).elim hold S.isPhi_bound
  · rw [S.pre_empty.2] at hi
    cases hi
  · rw [(S.copies ha).nonPhis, List.append_nil] at hi
    obtain ⟨j, hj, rfl⟩ := List.mem_map.mp hi
    rw [S.isPhi_copy ha (Func.mem_body_of_mem_nonPhis hj)]
    exact S.ssa.phis_first a j hj

theorem available_uses_old (hr : f.Reachable b) {after : List InstId}
    (e : f.body b = before ++ i :: after) (hphi : f.isPhi i = false) (hv : v ∈ (g'.inst i).uses) :
    g'.AvailableAt b before v := by
  have hi : i ∈ f.body b := by rw [e]; simp
  have hlt := hr.lt S.ssa.toClosed
  have hbefore : ∀ j ∈ before, j ∈ f.body b := fun j hj => by
    rw [e]
    exact List.mem_append_left _ hj
  by_cases hb : b ∈ l.blocks
  · rw [S.inst_inside hb hi] at hv
    exact S.available_old hlt (S.ssa.inst b hr before i after e hphi v hv) fun j hj => hj
  · have hno : i ∉ f.phis b := fun hp => by rw [Func.isPhi_of_mem_phis hp] at hphi; cases hphi
    rw [S.inst_outside hlt hb hi fun _ => hno, Instr.uses_map] at hv
    obtain ⟨u, hu, rfl⟩ := List.mem_map.mp hv
    exact S.available_outside hr hb hbefore (S.ssa.inst b hr before i after e hphi u hu)
      fun j hj => hj

theorem available_uses_copy (hb : b ∈ l.blocks) {after : List InstId}
    (e : f.body b = before ++ i :: after) (hphi : f.isPhi i = false)
    (hv : v ∈ (g'.inst (ρ i)).uses) : g'.AvailableAt (β b) (before.map ρ) v := by
  have hi : i ∈ f.body b := by rw [e]; simp
  have hno : i ∉ f.phis b := fun hp => by rw [Func.isPhi_of_mem_phis hp] at hphi; cases hphi
  obtain ⟨k, hk⟩ := S.inst_copies hb hi fun _ => hno
  have huses : (g'.inst (ρ i)).uses = (f.inst i).uses.map (·.rename ρ) := by
    rw [hk]
    exact Instr.uses_map β _ (f.inst i)
  rw [huses] at hv
  obtain ⟨u, hu, rfl⟩ := List.mem_map.mp hv
  exact S.available_copy hb (S.ssa.inst b (S.reachable hb) before i after e hphi u hu)
    fun j hj => List.mem_map_of_mem hj

theorem available_exit (hr : g'.Reachable b) (hv : v ∈ (g'.term b).uses) :
    g'.AvailableAt b (g'.body b) v := by
  have hf := S.ssa
  rcases S.block_cases (hr.lt S.coherent.toClosed) with hlt | rfl | ⟨a, ha, rfl⟩
  · have hr := S.reachable_old hr hlt
    by_cases hb : b ∈ l.blocks
    · by_cases hh : b = l.header
      · rw [hh, S.term_header] at hv
        rw [List.mem_singleton.mp hv, S.body_inside hb, if_pos hh]
        exact .inl (by simp)
      · rw [S.term_inside hb hh] at hv
        exact S.available_old hlt (hf.exit b hr v hv) fun i hi => S.mem_body_old hi
    · rw [S.term_outside hlt hb, Terminator.uses_map] at hv
      obtain ⟨u, hu, rfl⟩ := List.mem_map.mp hv
      exact S.available_outside hr hb (fun i hi => hi) (hf.exit b hr u hu)
        fun i hi => S.mem_body_old hi
  · rw [S.term_pre] at hv
    cases hv
  · rw [S.term_copy ha, Terminator.uses_map] at hv
    obtain ⟨u, hu, rfl⟩ := List.mem_map.mp hv
    exact S.available_copy ha (hf.exit a (S.reachable ha) u hu) fun i hi => S.mem_body_copy ha hi

end

/-- The preheader computes the bound from values that are available there. -/
theorem available_uses_bound {ty startTy boundTy : Ty} {width : Int64} {j : Nat}
    (S : SplitSteps f l c (c.mainBoundCode c.shape.preheader ty startTy boundTy width f.insts.size)
      t ρ β pre f1 g g')
    (hj : j < (c.mainBoundCode c.shape.preheader ty startTy boundTy width f.insts.size).length)
    (hv : v ∈ (g'.inst (f.insts.size + j)).uses) :
    g'.AvailableAt c.shape.preheader
      (f.body c.shape.preheader ++ List.range' f.insts.size j) v := by
  obtain ⟨hpre, hrpre, -⟩ := S.preheader_mem
  have hd := List.getElem?_eq_getElem hj
  rw [S.inst_mainBound hd] at hv
  have hkeep : ∀ u : Value, u.rename ρ = u →
      f.AvailableAt c.shape.preheader (f.body c.shape.preheader) u →
      g'.AvailableAt c.shape.preheader
        (f.body c.shape.preheader ++ List.range' f.insts.size j) u := fun u e hu => by
    rw [← e]
    exact S.available_outside hrpre hpre (fun i hi => hi) hu fun i hi => List.mem_append_left _ hi
  refine uses_mainBoundCode hd (hkeep _ S.rename_start.1 ?_)
    (hkeep _ S.rename_start.2 ?_) (fun _ => trivial) (fun k hk => .inl ?_) v hv
  · exact S.counted.available_start S.ssa S.mem
  · exact S.counted.available_bound S.ssa S.mem
  · exact List.mem_append_right _ (List.mem_range'_1.mpr ⟨Nat.le_add_right _ _,
      Nat.add_lt_add_left hk _⟩)

/-- The header tests the induction variable and the bound from the preheader. -/
theorem available_uses_test
    (S : SplitSteps f l c ds (c.mainTest (f.insts.size + 11)) ρ β pre f1 g g')
    (hds : 11 < ds.length) (hbefore : ∀ i ∈ f.body l.header, i ∈ before)
    (hv : v ∈ (g'.inst g.insts.size).uses) :
    g'.AvailableAt l.header before v := by
  rw [S.inst_test] at hv
  rcases List.mem_pair.mp hv with rfl | rfl
  · exact .inl (hbefore _ (Func.mem_body_of_mem_phis (S.counted.iv_mem S.ssa S.mem)))
  · exact S.available_bound hds

/-- A block of the loop has its operations and, if it is the header, the test behind them. -/
theorem available_uses_inside
    (S : SplitSteps f l c ds (c.mainTest (f.insts.size + 11)) ρ β pre f1 g g') (hr : f.Reachable b)
    (hb : b ∈ l.blocks) (hds : 11 < ds.length) {after : List InstId}
    (e : g'.body b = before ++ i :: after) (hphi : g'.isPhi i = false)
    (hv : v ∈ (g'.inst i).uses) : g'.AvailableAt b before v := by
  rw [S.body_inside hb] at e
  rcases append_eq_append_cons e with ⟨rest, e, -⟩ | ⟨mid, rfl, hmid⟩
  · rw [S.isPhi_old (S.ssa.body_lt b i (by rw [e]; simp))] at hphi
    exact S.available_uses_old hr e hphi hv
  · split at hmid
    swap
    · exact absurd hmid (by simp)
    rename_i hh
    subst hh
    obtain ⟨rfl, rfl, -⟩ : mid = [] ∧ i = g.insts.size ∧ after = [] := by
      simpa [List.singleton_eq_append_iff] using hmid
    exact S.available_uses_test hds (fun j hj => List.mem_append_left _ hj) hv

/-- A block outside the loop has its operations and, if it is the preheader, the code for the bound
behind them. -/
theorem available_uses_outside {ty startTy boundTy : Ty} {width : Int64}
    (S : SplitSteps f l c (c.mainBoundCode c.shape.preheader ty startTy boundTy width f.insts.size)
      t ρ β pre f1 g g') (hr : f.Reachable b) (hb : b ∉ l.blocks) {after : List InstId}
    (e : g'.body b = before ++ i :: after) (hphi : g'.isPhi i = false)
    (hv : v ∈ (g'.inst i).uses) : g'.AvailableAt b before v := by
  rw [S.body_outside (hr.lt S.ssa.toClosed) hb] at e
  rcases append_eq_append_cons e with ⟨rest, e, -⟩ | ⟨mid, rfl, hmid⟩
  · rw [S.isPhi_old (S.ssa.body_lt b i (by rw [e]; simp))] at hphi
    exact S.available_uses_old hr e hphi hv
  · split at hmid
    swap
    · exact absurd hmid (by simp)
    rename_i hh
    subst hh
    obtain ⟨k, hk, rfl, e'⟩ := List.range'_eq_append_iff.mp hmid
    obtain ⟨rfl, hpos, -⟩ := List.range'_eq_cons_iff.mp e'.symm
    rw [Nat.mul_one] at hv
    exact S.available_uses_bound (Nat.lt_of_sub_pos hpos) hv

/-- Splitting off a remainder keeps static single assignment form. -/
theorem ssa_split {ty startTy boundTy : Ty} {width : Int64}
    (S : SplitSteps f l c (c.mainBoundCode c.shape.preheader ty startTy boundTy width f.insts.size)
      (c.mainTest (f.insts.size + 11)) ρ β pre f1 g g') : g'.Ssa where
  toCoherent := S.coherent
  entry_pred b h := by
    have hlt := S.ssa.entry_lt
    obtain ⟨y, hy⟩ : ∃ y, y = f.entry := ⟨_, rfl⟩
    rw [show g'.entry = y from hy.symm] at h
    rw [← hy] at hlt
    cases S.mem_targets_iff.mp h with
    | kept _ h => exact S.ssa.entry_pred b (hy ▸ h)
    | leave => exact absurd S.pre_eq (Nat.ne_of_lt hlt)
    | enter => exact S.copy_ne S.header_mem hlt rfl
    | copy _ hyl _ => exact S.copy_ne hyl hlt rfl
    | exit => exact S.ssa.entry_pred l.header (hy ▸ S.exit_edge.1)
  nodup := S.laid.nodup
  phis_first b i hi := S.phis_first hi
  entries b hr phi hphi :=
    ⟨(S.keys hr hphi).1, (S.keys hr hphi).2, fun p hp hb => by
      obtain ⟨v, hv, -⟩ := S.exists_incoming hp hb hphi
      exact List.mem_map_of_mem (Func.mem_incoming hv)⟩
  inst b hr before i after e hphi v hv := by
    rcases S.block_cases (hr.lt S.coherent.toClosed) with hlt | rfl | ⟨a, ha, rfl⟩
    · have hr := S.reachable_old hr hlt
      by_cases hb : b ∈ l.blocks
      · exact S.available_uses_inside hr hb (by simp [CountedLoop.mainBoundCode]) e hphi hv
      · exact S.available_uses_outside hr hb e hphi hv
    · rw [S.body_pre] at e
      exact absurd e.symm (by simp)
    · rw [S.body_copies ha] at e
      obtain ⟨before', rest, hbody, rfl, e'⟩ := List.map_eq_append_iff.mp e
      obtain ⟨j, after', rfl, rfl, rfl⟩ := List.map_eq_cons_iff.mp e'
      rw [S.isPhi_copy ha (by rw [hbody]; simp)] at hphi
      exact S.available_uses_copy ha hbody hphi hv
  phi b hr phi hphi e he hre hb := by
    obtain ⟨v, hv, havail⟩ := S.exists_incoming hre hb hphi
    rw [Func.incomingValue?_of_mem (S.keys hr hphi).1 he] at hv
    cases hv
    exact havail
  exit b hr v := S.available_exit hr

end SplitSteps

end Lockstep
