import Lockstep.Vector.Region
import Lockstep.Proofs.Cfg.DominatorTree

/-!
# Regions

A region holds the blocks that control can get to from its entry without coming to an exit
(`between_exact`). While blocks are collected, what has been collected and what is on the stack has
been reached this way, and a branch from a collected block leads to an exit, to a collected block or to
one on the stack (`Collecting`); the stack is empty in the end, because every block that is taken puts
its at most two targets on the stack once (`card_budget`).
-/

namespace Lockstep

namespace Region

variable {f : Func} {entry : BlockId} {exits stack blocks : List BlockId} {b c : BlockId}

/-- Control gets to `b` without coming to an exit; `b` itself may be one. -/
abbrev Before (f : Func) (entry : BlockId) (exits : List BlockId) : BlockId → Prop :=
  f.Path (· ∉ exits) entry

/-- What holds while the blocks of a region are collected. -/
structure Collecting (f : Func) (entry : BlockId) (exits stack blocks : List BlockId) : Prop where
  nodup : blocks.Nodup
  taken : ∀ b ∈ blocks, b ∉ exits ∧ Before f entry exits b
  waiting : ∀ b ∈ stack, Before f entry exits b
  closed : ∀ b ∈ blocks, ∀ c ∈ (f.term b).targets, c ∈ exits ∨ c ∈ blocks ∨ c ∈ stack
  entry_mem : entry ∈ exits ∨ entry ∈ blocks ∨ entry ∈ stack

theorem collecting_start (f : Func) (entry : BlockId) (exits : List BlockId) :
    Collecting f entry exits [entry] [] where
  nodup := List.nodup_nil
  taken b hb := absurd hb List.not_mem_nil
  waiting b hb := by
    rw [List.mem_singleton.mp hb]
    exact .refl entry
  closed b hb := absurd hb List.not_mem_nil
  entry_mem := .inr (.inr List.mem_cons_self)

/-- An exit, and a block that has been collected, is dropped from the stack. -/
theorem Collecting.skip (h : Collecting f entry exits (b :: stack) blocks)
    (hb : b ∈ exits ∨ b ∈ blocks) : Collecting f entry exits stack blocks := by
  have hdrop : ∀ c, c ∈ exits ∨ c ∈ blocks ∨ c ∈ b :: stack →
      c ∈ exits ∨ c ∈ blocks ∨ c ∈ stack := by
    rintro c (hc | hc | hc)
    · exact .inl hc
    · exact .inr (.inl hc)
    · rcases List.mem_cons.mp hc with rfl | hc
      · exact hb.imp_right .inl
      · exact .inr (.inr hc)
  exact {
    nodup := h.nodup
    taken := h.taken
    waiting := fun c hc => h.waiting c (List.mem_cons_of_mem b hc)
    closed := fun x hx c hc => hdrop c (h.closed x hx c hc)
    entry_mem := hdrop entry h.entry_mem }

/-- Any other block is collected, and its targets are put on the stack. -/
theorem Collecting.take (h : Collecting f entry exits (b :: stack) blocks) (he : b ∉ exits)
    (hb : b ∉ blocks) :
    Collecting f entry exits ((f.term b).targets ++ stack) (blocks ++ [b]) := by
  have hreached : Before f entry exits b := h.waiting b List.mem_cons_self
  have hmove : ∀ c, c ∈ exits ∨ c ∈ blocks ∨ c ∈ b :: stack →
      c ∈ exits ∨ c ∈ blocks ++ [b] ∨ c ∈ (f.term b).targets ++ stack := by
    rintro c (hc | hc | hc)
    · exact .inl hc
    · exact .inr (.inl (List.mem_append_left _ hc))
    · rcases List.mem_cons.mp hc with rfl | hc
      · exact .inr (.inl (List.mem_append_right _ List.mem_cons_self))
      · exact .inr (.inr (List.mem_append_right _ hc))
  refine ⟨?_, fun c hc => ?_, fun c hc => ?_, fun x hx c hc => ?_, hmove entry h.entry_mem⟩
  · rw [← List.concat_eq_append]
    exact h.nodup.concat hb
  · rcases List.mem_append.mp hc with hc | hc
    · exact h.taken c hc
    · rw [List.mem_singleton.mp hc]
      exact ⟨he, hreached⟩
  · rcases List.mem_append.mp hc with hc | hc
    · exact hreached.tail he hc
    · exact h.waiting c (List.mem_cons_of_mem b hc)
  · rcases List.mem_append.mp hx with hx | hx
    · exact hmove c (h.closed x hx c hc)
    · rw [List.mem_singleton.mp hx] at hc
      exact .inr (.inr (List.mem_append_left _ hc))

/-- With nothing left on the stack, exactly the blocks of the region have been collected. -/
theorem Collecting.mem_iff (h : Collecting f entry exits [] blocks) :
    b ∈ blocks ↔ b ∉ exits ∧ Before f entry exits b := by
  refine ⟨h.taken b, fun ⟨hb, hpath⟩ => ?_⟩
  have hall : b ∈ exits ∨ b ∈ blocks := by
    refine PathIn.induct (R := fun x => x ∈ exits ∨ x ∈ blocks) hpath ?_ fun x y hx hmem hy => ?_
    · simpa using h.entry_mem
    · have := h.closed x (hmem.resolve_left hx) y hy
      simpa using this
  exact hall.resolve_left hb

/-! ## The bound on the steps -/

theorem length_targets_le (t : Terminator) : t.targets.length ≤ 2 := by
  cases t <;> simp [Terminator.targets]

theorem targets_of_size_le (h : f.blocks.size ≤ b) : (f.term b).targets = [] := by
  rw [Cfg.term_of_size_le h]
  rfl

/-- The blocks of a function that have not been collected. -/
def uncollected (f : Func) (blocks : List BlockId) : Finset BlockId :=
  Finset.range f.blocks.size \ blocks.toFinset

/-- Taking a block leaves room for its targets. -/
theorem card_budget (hb : b ∉ blocks) :
    (f.term b).targets.length + 2 * (uncollected f (blocks ++ [b])).card ≤
      2 * (uncollected f blocks).card := by
  have hsub : uncollected f (blocks ++ [b]) ⊆ uncollected f blocks := by
    intro x
    simp only [uncollected, Finset.mem_sdiff, List.mem_toFinset, List.mem_append]
    tauto
  rcases Nat.lt_or_ge b f.blocks.size with hlt | hge
  · have hlt : (uncollected f (blocks ++ [b])).card < (uncollected f blocks).card := by
      refine Finset.card_lt_card ((Finset.ssubset_iff_of_subset hsub).mpr ⟨b, ?_, ?_⟩)
      · simp [uncollected, hlt, hb]
      · simp [uncollected]
    have := length_targets_le (f.term b)
    omega
  · have := Finset.card_le_card hsub
    rw [targets_of_size_le hge, List.length_nil]
    omega

/-- With enough steps, collecting goes on until the stack is empty. -/
theorem Collecting.collect {fuel : Nat} (h : Collecting f entry exits stack blocks)
    (hfuel : stack.length + 2 * (uncollected f blocks).card < fuel) :
    Collecting f entry exits [] (collect f exits fuel stack blocks) := by
  induction fuel generalizing stack blocks with
  | zero => omega
  | succ fuel ih =>
    cases stack with
    | nil => exact h
    | cons b stack =>
      rw [List.length_cons] at hfuel
      unfold Region.collect
      by_cases hb : exits.contains b || blocks.contains b
      · rw [if_pos hb]
        rw [Bool.or_eq_true, List.contains_iff_mem, List.contains_iff_mem] at hb
        exact ih (h.skip hb) (by omega)
      · rw [if_neg hb]
        rw [Bool.or_eq_true, List.contains_iff_mem, List.contains_iff_mem, not_or] at hb
        have hbudget := card_budget (f := f) hb.2
        exact ih (h.take hb.1 hb.2) (by rw [List.length_append]; omega)

theorem collecting_between (f : Func) (entry : BlockId) (exits : List BlockId) :
    Collecting f entry exits [] (between f entry exits).blocks := by
  refine (collecting_start f entry exits).collect ?_
  have hcard : (uncollected f []).card = f.blocks.size := by simp [uncollected]
  rw [hcard, List.length_singleton]
  omega

theorem contains_between : (between f entry exits).contains b = true ↔
    b ∉ exits ∧ Before f entry exits b :=
  List.contains_iff_mem.trans (collecting_between f entry exits).mem_iff

/-! ## Exactness -/

/-- A region lists, each once, the blocks that a path leads to from its entry on which no block is an
exit, the entry and the block included. The region of a whole function is what its reverse post-order
lists. -/
theorem between_exact (f : Func) :
    (∀ entry exits, (∀ b, (between f entry exits).contains b = true ↔
      b ∉ exits ∧ f.Path (· ∉ exits) entry b) ∧ (between f entry exits).blocks.Nodup) ∧
    (f.Closed → ∀ b, (wholeFunction f).contains b = true ↔ b ∈ (Cfg.ofFunc f).rpo) := by
  refine ⟨fun entry exits => ⟨fun b => contains_between, (collecting_between f entry exits).nodup⟩,
    fun hf b => ?_⟩
  rw [Cfg.mem_rpo hf]
  refine contains_between.trans ⟨fun h => Search.Reach.of_path h.2, fun h => ⟨List.not_mem_nil, ?_⟩⟩
  exact Relation.ReflTransGen.mono (fun _ _ e => ⟨List.not_mem_nil, e⟩) _ _ h

/-- Before block 2, control gets from the entry to the blocks 1 and 3; before both of the blocks that
the entry branches to, it gets nowhere. -/
theorem between_exact_crossing : Cfg.crossing.Closed ∧
    Cfg.crossing.Path (· ∉ [2]) 0 3 ∧ ¬ Cfg.crossing.Path (· ∉ [1, 2]) 0 3 ∧
      3 ∈ (Cfg.ofFunc Cfg.crossing).rpo ∧ 4 ∉ (Cfg.ofFunc Cfg.crossing).rpo := by
  have hf : Cfg.crossing.Closed := (by decide : Cfg.crossing.Coherent).toClosed
  obtain ⟨hregion, hwhole⟩ := between_exact Cfg.crossing
  refine ⟨hf, ((hregion 0 [2]).1 3).mp (by decide) |>.2, fun h => ?_, (hwhole hf 3).mp (by decide),
    fun h => ?_⟩
  · exact absurd (((hregion 0 [1, 2]).1 3).mpr ⟨by decide, h⟩) (by decide)
  · exact absurd ((hwhole hf 4).mpr h) (by decide)

end Region

end Lockstep
