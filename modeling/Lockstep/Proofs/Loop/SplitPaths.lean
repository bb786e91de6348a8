import Lockstep.Proofs.Cfg.EnteredLoop
import Lockstep.Proofs.Loop.SplitOff

/-!
# Paths of a function with a split loop

The edges of the new function are those of the old one, without the edge that leaves the loop, the
copies of the edges inside the loop, and the way from the header over the new preheader and the
copied header to the exit (`SplitEdge`). A path of the new function therefore follows one of the old
function that stands still at the header as long as the copy is passed (`path_old`), and its way
through the copy follows one from the header (`path_copy`). Hence blocks dominate what they
dominated, the header and what dominates it dominate the copy, and copies dominate copies. A block
outside that the header dominates is dominated by the copied header, since it is reached through the
exit.
-/

namespace Lockstep

/-- The edges after a remainder has been split off, `pre` being its preheader. -/
inductive SplitEdge (f : Func) (l : Loop) (c : CountedLoop) (β : BlockId → BlockId)
    (pre : BlockId) : BlockId → BlockId → Prop
  | kept {x y : BlockId} (hx : x < f.blocks.size) (h : y ∈ (f.term x).targets)
      (hne : x = l.header → y ∈ l.blocks) : SplitEdge f l c β pre x y
  | leave : SplitEdge f l c β pre l.header pre
  | enter : SplitEdge f l c β pre pre (β l.header)
  | copy {x y : BlockId} (hx : x ∈ l.blocks) (hy : y ∈ l.blocks) (h : y ∈ (f.term x).targets) :
      SplitEdge f l c β pre (β x) (β y)
  | exit : SplitEdge f l c β pre (β l.header) c.shape.exit

namespace SplitSteps

variable {f f1 g g' : Func} {l : Loop} {c : CountedLoop} {ds : List Instr} {t : Instr}
  {ρ : InstId → InstId} {β : BlockId → BlockId} {pre a b x y : BlockId} {D : BlockId → Prop}

section

variable (S : SplitSteps f l c ds t ρ β pre f1 g g')

include S

/-! ## Names of blocks -/

theorem size_blocks : g'.blocks.size = g.blocks.size := S.test.size_blocks

/-- Every block is an old one, the new preheader or a copy. -/
theorem block_cases (hb : b < g'.blocks.size) :
    b < f.blocks.size ∨ b = pre ∨ ∃ a ∈ l.blocks, b = β a := by
  rw [S.size_blocks] at hb
  rcases S.added.block_cases b hb with hle | hcopy
  · rw [S.bound.size_blocks] at hle
    rcases Nat.lt_or_eq_of_le hle with hlt | e
    · exact .inl hlt
    · exact .inr (.inl (e.trans S.pre_eq.symm))
  · exact .inr (.inr hcopy)

/-! ## The loop before -/

theorem reducible : l.reducible = true := S.counted.singleExit.reducible

theorem reachable (hb : b ∈ l.blocks) : f.Reachable b :=
  LoopForest.reachable_of_mem S.ssa.toClosed S.mem hb

theorem exit_edge : c.shape.exit ∈ (f.term l.header).targets ∧ c.shape.exit < f.blocks.size := by
  have h := (S.counted.singleExit.exiting_mem S.ssa.toClosed S.mem).2.2.1
  rw [S.counted.exiting] at h
  exact ⟨h, S.ssa.target_lt _ _ h⟩

/-- The loop is left from its header to the exit. -/
theorem eq_of_leaving (hx : x ∈ l.blocks) (hy : y ∉ l.blocks) (h : y ∈ (f.term x).targets) :
    x = l.header ∧ y = c.shape.exit := by
  have e := S.counted.singleExit.eq_of_leaving S.ssa.toClosed S.mem (S.reachable hx) hx hy h
  exact ⟨e.1.trans S.counted.exiting, e.2⟩

/-- The loop is entered from the preheader to the header. -/
theorem eq_of_entering (hr : f.Reachable x) (hx : x ∉ l.blocks) (hy : y ∈ l.blocks)
    (h : y ∈ (f.term x).targets) : x = c.shape.preheader ∧ y = l.header := by
  obtain rfl := LoopForest.eq_header_of_entering S.ssa.toClosed S.mem S.reducible hr hx hy h
  rcases S.counted.singleExit.eq_of_entering S.ssa.toClosed S.mem hr h with ⟨e, -⟩ | ⟨-, hin⟩
  · exact ⟨e, rfl⟩
  · exact absurd hin hx

/-- The header leads into the loop and to the exit. -/
theorem header_targets : (∀ z ∈ (f.term l.header).targets,
    z = c.shape.continueTarget ∨ z = c.shape.exit) ∧
      c.shape.continueTarget ∈ (f.term l.header).targets ∧ c.shape.continueTarget ∈ l.blocks := by
  have h := S.counted.singleExit.continueTarget_mem S.ssa.toClosed S.mem
    (S.counted.singleExit.exiting_nodup S.ssa.toClosed S.mem)
  rwa [S.counted.exiting] at h

/-! ## Edges -/

theorem targets_old (hb : b < f.blocks.size) (hne : b ≠ l.header) :
    (g'.term b).targets = (f.term b).targets := by
  by_cases hin : b ∈ l.blocks
  · rw [S.term_inside hin hne]
  · rw [S.term_outside hb hin, Terminator.targets_map, List.map_id]

theorem targets_header : (g'.term l.header).targets = [c.shape.continueTarget, pre] := by
  rw [S.term_header]
  rfl

theorem targets_pre : (g'.term pre).targets = [β l.header] := by
  rw [S.term_pre]
  rfl

theorem targets_copy (hb : b ∈ l.blocks) : (g'.term (β b)).targets = (f.term b).targets.map β := by
  rw [S.term_copy hb, Terminator.targets_map]

/-- What leads where after a remainder has been split off. -/
theorem mem_targets_iff : y ∈ (g'.term x).targets ↔ SplitEdge f l c β pre x y := by
  obtain ⟨hcases, hcont, hin⟩ := S.header_targets
  constructor
  · intro h
    rcases S.block_cases (g'.lt_of_mem_targets h) with hx | rfl | ⟨a, ha, rfl⟩
    · by_cases e : x = l.header
      · subst e
        rw [S.targets_header] at h
        rcases List.mem_pair.mp h with rfl | rfl
        · exact .kept hx hcont fun _ => hin
        · exact .leave
      · exact .kept hx (S.targets_old hx e ▸ h) fun e' => absurd e' e
    · rw [S.targets_pre] at h
      rw [List.mem_singleton.mp h]
      exact .enter
    · rw [S.targets_copy ha] at h
      obtain ⟨b, hb, rfl⟩ := List.mem_map.mp h
      by_cases hbl : b ∈ l.blocks
      · exact .copy ha hbl hb
      · obtain ⟨rfl, rfl⟩ := S.eq_of_leaving ha hbl hb
        rw [S.copy_of_not_mem hbl]
        exact .exit
  · intro h
    cases h with
    | kept hx h hne =>
      by_cases e : x = l.header
      · subst e
        rw [S.targets_header]
        rcases hcases y h with rfl | rfl
        · exact List.mem_cons_self
        · exact absurd (hne rfl) S.exit_not_mem
      · rw [S.targets_old hx e]
        exact h
    | leave =>
      rw [S.targets_header]
      exact List.mem_cons_of_mem _ List.mem_cons_self
    | enter =>
      rw [S.targets_pre]
      exact List.mem_cons_self
    | copy hx hy h =>
      rw [S.targets_copy hx]
      exact List.mem_map_of_mem h
    | exit =>
      rw [S.targets_copy S.header_mem]
      exact List.mem_map.mpr ⟨_, S.exit_edge.1, S.copy_of_not_mem S.exit_not_mem⟩

/-- What leads to an old block led there, unless it is the copied header. -/
theorem edge_to_old (hy : y < f.blocks.size) (h : y ∈ (g'.term x).targets) :
    (x < f.blocks.size ∧ y ∈ (f.term x).targets) ∨ x = β l.header ∧ y = c.shape.exit := by
  cases S.mem_targets_iff.mp h with
  | kept hx h => exact .inl ⟨hx, h⟩
  | leave => exact absurd S.pre_eq (Nat.ne_of_lt hy)
  | enter => exact absurd (S.lt_copy S.header_mem) (Nat.lt_asymm hy)
  | copy _ hb => exact absurd (S.lt_copy hb) (Nat.lt_asymm hy)
  | exit => exact .inr ⟨rfl, rfl⟩

/-- The copy is entered from the new preheader. -/
theorem edge_to_copy (hb : b ∈ l.blocks) (h : β b ∈ (g'.term x).targets) :
    (x = pre ∧ b = l.header) ∨ ∃ a ∈ l.blocks, x = β a ∧ b ∈ (f.term a).targets := by
  have hlt := S.lt_copy hb
  generalize hy : β b = y at h
  rw [hy] at hlt
  cases S.mem_targets_iff.mp h with
  | kept _ h => exact absurd (S.ssa.target_lt _ _ h) (Nat.lt_asymm hlt)
  | leave => exact absurd S.pre_eq (Nat.ne_of_gt hlt)
  | enter => exact .inl ⟨rfl, S.copy_injective (S.lt_of_mem hb) S.header_lt hy⟩
  | copy ha hb' hab =>
    obtain rfl := S.copy_injective (S.lt_of_mem hb) (S.lt_of_mem hb') hy
    exact .inr ⟨_, ha, rfl, hab⟩
  | exit => exact absurd S.exit_edge.2 (Nat.lt_asymm hlt)

/-- The main loop is left to the new preheader. -/
theorem edge_from_loop (hx : x ∈ l.blocks) (h : y ∈ (g'.term x).targets) :
    (y ∈ l.blocks ∧ y ∈ (f.term x).targets) ∨ x = l.header ∧ y = pre := by
  by_cases e : x = l.header
  · subst e
    rw [S.targets_header] at h
    rcases List.mem_pair.mp h with rfl | rfl
    · exact .inl ⟨S.header_targets.2.2, S.header_targets.2.1⟩
    · exact .inr ⟨rfl, rfl⟩
  · rw [S.targets_old (S.lt_of_mem hx) e] at h
    exact .inl ⟨by_contra fun hy => e (S.eq_of_leaving hx hy h).1, h⟩

/-- The copy is left to the exit. -/
theorem edge_from_copy (hx : x ∈ l.blocks) (h : y ∈ (g'.term (β x)).targets) :
    (∃ b ∈ l.blocks, y = β b ∧ b ∈ (f.term x).targets) ∨ x = l.header ∧ y = c.shape.exit := by
  rw [S.targets_copy hx] at h
  obtain ⟨b, hb, rfl⟩ := List.mem_map.mp h
  by_cases hbl : b ∈ l.blocks
  · exact .inl ⟨b, hbl, rfl, hb⟩
  · obtain ⟨e, rfl⟩ := S.eq_of_leaving hx hbl hb
    exact .inr ⟨e, S.copy_of_not_mem hbl⟩

/-! ## Paths -/

/-- Without the copy, a path is one that there was; the copy is passed after the header. -/
theorem path_old (hp : g'.Path D f.entry y) : (y < f.blocks.size → f.Path D f.entry y) ∧
    (f.blocks.size ≤ y → f.Path D f.entry l.header ∧ D l.header) := by
  induction hp with
  | refl => exact ⟨fun _ => .refl _, fun h => absurd S.ssa.entry_lt (Nat.not_lt.mpr h)⟩
  | @tail x y _ e ih =>
    obtain ⟨hD, h⟩ := e
    cases S.mem_targets_iff.mp h with
    | kept hx h hne =>
      exact ⟨fun _ => (ih.1 hx).tail hD h,
        fun hy => absurd (S.ssa.target_lt _ _ h) (Nat.not_lt.mpr hy)⟩
    | leave =>
      exact ⟨fun hy => absurd S.pre_eq (Nat.ne_of_lt hy), fun _ => ⟨ih.1 S.header_lt, hD⟩⟩
    | enter =>
      exact ⟨fun hy => absurd (S.lt_copy S.header_mem) (Nat.lt_asymm hy), fun _ => ih.2 S.pre_eq.ge⟩
    | copy hx hy h =>
      exact ⟨fun hlt => absurd (S.lt_copy hy) (Nat.lt_asymm hlt), fun _ => ih.2 (S.lt_copy hx).le⟩
    | exit =>
      obtain ⟨hheader, hD'⟩ := ih.2 (S.lt_copy S.header_mem).le
      exact ⟨fun _ => hheader.tail hD' S.exit_edge.1,
        fun hy => absurd S.exit_edge.2 (Nat.not_lt.mpr hy)⟩

/-- The way through the copy is one from the header through the loop. -/
theorem path_copy (hp : g'.Path D f.entry (β b)) (hb : b ∈ l.blocks) :
    f.Path (fun x => x ∈ l.blocks ∧ D (β x)) l.header b := by
  generalize hy : β b = y at hp
  induction hp generalizing b with
  | refl => exact absurd (hy ▸ S.lt_copy hb) (Nat.lt_asymm S.ssa.entry_lt)
  | @tail x y _ e ih =>
    subst hy
    rcases S.edge_to_copy hb e.2 with ⟨-, rfl⟩ | ⟨a, ha, rfl, hab⟩
    · exact .refl _
    · exact (ih ha rfl).tail ⟨ha, e.1⟩ hab

/-- A path in the loop has a copy. -/
theorem path_of_loop (hp : f.Path (· ∈ l.blocks) a b) (hb : b ∈ l.blocks) :
    g'.Path (fun y => ∃ x ∈ l.blocks, y = β x) (β a) (β b) := by
  induction hp with
  | refl => exact .refl _
  | tail _ e ih => exact (ih e.1).tail ⟨_, e.1, rfl⟩ (S.mem_targets_iff.mpr (.copy e.1 hb e.2))

theorem path_header_of_loop (hb : b ∈ l.blocks) :
    f.Path (· ∈ l.blocks) l.header b ∧ f.Path (· ∈ l.blocks) b l.header := by
  obtain ⟨h1, h2⟩ := (LoopForest.isLoop S.mem).connected b hb
  exact ⟨Cfg.path_of_succs S.ssa.toClosed h1, Cfg.path_of_succs S.ssa.toClosed h2⟩

/-! ## Reachable blocks -/

theorem reachable_old (h : g'.Reachable b) (hb : b < f.blocks.size) : f.Reachable b :=
  Cfg.reachable_of_path ((S.path_old h.path).1 hb)

theorem reachable_new (h : f.Reachable b) : g'.Reachable b := by
  have hstep : ∀ x y, g'.Reachable x → SplitEdge f l c β pre x y → g'.Reachable y :=
    fun x y hx e => hx.step (S.mem_targets_iff.mpr e)
  refine h.closed (g'.reachable_entry) fun x hx y hy => ?_
  by_cases e : x = l.header ∧ y = c.shape.exit
  · obtain ⟨rfl, rfl⟩ := e
    exact hstep _ _ (hstep _ _ (hstep _ _ hx .leave) .enter) .exit
  · refine hstep x y hx (.kept (f.lt_of_mem_targets hy) hy ?_)
    rintro rfl
    rcases S.header_targets.1 y hy with rfl | rfl
    · exact S.header_targets.2.2
    · exact absurd ⟨rfl, rfl⟩ e

theorem reachable_pre : g'.Reachable pre :=
  (S.reachable_new (S.reachable S.header_mem)).step (S.mem_targets_iff.mpr .leave)

theorem reachable_copy (hb : b ∈ l.blocks) : g'.Reachable (β b) := by
  have hheader : g'.Reachable (β l.header) := S.reachable_pre.step (S.mem_targets_iff.mpr .enter)
  exact (S.path_of_loop (S.path_header_of_loop hb).1 hb).induct hheader fun _ _ _ h hy => h.step hy

/-! ## Dominance -/

/-- Blocks dominate what they dominated. -/
theorem dominates_old (h : f.Dominates a b) (hb : b < f.blocks.size) : g'.Dominates a b :=
  fun hp => h ((S.path_old hp).1 hb)

/-- What dominates the header dominates the new blocks. -/
theorem dominates_new (h : f.Dominates a l.header) (hb : f.blocks.size ≤ b) : g'.Dominates a b := by
  intro hp
  obtain ⟨hheader, hne⟩ := (S.path_old hp).2 hb
  exact absurd (h hheader) hne

/-- The header is reached around the blocks of the loop. -/
theorem path_to_loop (ha : a ∈ l.blocks) : f.Path (· ≠ a) f.entry l.header := by
  refine (LoopForest.path_header S.ssa.toClosed S.mem).mono ?_
  rintro x hx rfl
  exact hx ha

theorem dominates_copy (h : f.Dominates a b) (ha : a ∈ l.blocks) (hb : b ∈ l.blocks) :
    g'.Dominates (β a) (β b) := by
  intro hp
  have hcopy := (S.path_copy hp hb).mono fun x hx (e : x = a) => hx.2 (e ▸ rfl)
  rw [h ((S.path_to_loop ha).trans hcopy)]

/-- What dominates a block of the loop from outside dominates the header. -/
theorem dominates_header_of_not_mem (h : f.Dominates a b) (ha : a ∉ l.blocks) (hb : b ∈ l.blocks) :
    f.Dominates a l.header := by
  intro hp
  have hin := (S.path_header_of_loop hb).1.mono fun x hx (e : x = a) => ha (e ▸ hx)
  exact absurd (h (hp.trans hin) ▸ hb) ha

/-- Only the header of the loop dominates blocks outside. -/
theorem eq_header_of_dominates (h : f.Dominates a b) (ha : a ∈ l.blocks) (hb : b ∉ l.blocks)
    (hr : f.Reachable b) : a = l.header := by
  by_contra hne
  refine absurd (h ?_ ▸ ha) hb
  rcases hr.path.avoid_or_last (· ∈ l.blocks) with hout | ⟨x, y, -, -, hx, hy, hout⟩
  · exact hout.mono fun z hz e => hz.2 (e ▸ ha)
  · -- after the last block of the loop, which is the header, the path stays outside
    have hyl : y ∉ l.blocks := by
      rcases Relation.ReflTransGen.cases_head hout with rfl | ⟨z, hz, -⟩
      · exact hb
      · exact hz.1.2
    obtain ⟨rfl, rfl⟩ := S.eq_of_leaving hx hyl hy
    exact ((S.path_to_loop ha).tail (Ne.symm hne) hy).trans
      (hout.mono fun z hz e => hz.2 (e ▸ ha))

/-- What the header dominates outside is reached through the copied header. -/
theorem copy_dominates (h : f.Dominates l.header b) (hb : b ∉ l.blocks) (hlt : b < f.blocks.size) :
    g'.Dominates (β l.header) b := by
  intro hp
  -- a path around the copied header never gets out of the loop again
  have hstay : ∀ {y}, g'.Path (· ≠ β l.header) f.entry y →
      y ∈ l.blocks ∨ f.blocks.size ≤ y ∨ f.Path (· ∉ l.blocks) f.entry y := by
    intro y hy
    induction hy with
    | refl => exact .inr (.inr (.refl _))
    | @tail x y _ e ih =>
      cases S.mem_targets_iff.mp e.2 with
      | kept hx h hne =>
        by_cases hyl : y ∈ l.blocks
        · exact .inl hyl
        · have hxl : x ∉ l.blocks := fun hxl => hyl (hne (S.eq_of_leaving hxl hyl h).1)
          rcases ih with ih | ih | ih
          · exact absurd ih hxl
          · exact absurd hx (Nat.not_lt.mpr ih)
          · exact .inr (.inr (ih.tail hxl h))
      | leave => exact .inr (.inl S.pre_eq.ge)
      | enter => exact .inr (.inl (S.lt_copy S.header_mem).le)
      | copy hx hy h => exact .inr (.inl (S.lt_copy hy).le)
      | exit => exact absurd rfl e.1
  rcases hstay hp with hin | hge | hout
  · exact absurd hin hb
  · exact absurd hlt (Nat.not_lt.mpr hge)
  · have e := h (hout.mono fun x hx e => hx (e ▸ S.header_mem))
    exact absurd (e ▸ S.header_mem) hb

end

end SplitSteps

end Lockstep
