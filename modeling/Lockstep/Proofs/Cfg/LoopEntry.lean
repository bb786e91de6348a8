import Lockstep.Proofs.Cfg.Dominance
import Lockstep.Proofs.Cfg.LoopForest

/-!
# Where loops are entered

A reducible loop is entered at its header only. An edge from outside to another block of the loop
would either close a cycle through the header, and then its source belongs to the loop, or come from
the header of a loop around, and then it leads around the header.
-/

namespace Lockstep

namespace Cfg

variable {f : Func} {P : BlockId → Prop} {a b : BlockId}

/-- A path in the graph of a function is one in the function. -/
theorem path_of_succs (hf : f.Closed) (h : PathIn (ofFunc f).succs P a b) : f.Path P a b := by
  induction h with
  | refl => exact .refl a
  | tail _ e ih => exact ih.tail e.1 ((mem_succs hf).mp e.2).2

/-- A path from a reachable block is one in the graph. -/
theorem succs_of_path (hf : f.Closed) (ha : f.Reachable a) (h : f.Path P a b) :
    PathIn (ofFunc f).succs P a b ∧ f.Reachable b := by
  induction h with
  | refl => exact ⟨.refl a, ha⟩
  | tail _ e ih => exact ⟨ih.1.tail e.1 ((mem_succs hf).mpr ⟨ih.2, e.2⟩), ih.2.step e.2⟩

end Cfg

namespace LoopForest

variable {f : Func} {l : Loop}

/-- What the search found out about a loop of a forest, and about the loops found before. -/
theorem exists_found (hl : l ∈ (Analyses.ofFunc f).loops.loops) :
    ∃ pre post s' found, found = pre ++ (l.header, l.blocks) :: post ∧
      LoopSearch.Finds (Cfg.ofFunc f).succs f.entry (fun _ => False) {} s' found ∧
      IsLoopOf (Cfg.ofFunc f) (Cfg.ofFunc f).dominators l := by
  obtain ⟨s', found, hfinds, hfound⟩ := exists_fromFound (Cfg.ofFunc f) (Cfg.ofFunc f).dominators
  have hmem : (l.header, l.blocks) ∈ found := by
    rw [← hfound.loops]
    exact List.mem_map_of_mem hl
  obtain ⟨pre, post, e⟩ := List.append_of_mem hmem
  exact ⟨pre, post, s', found, e, hfinds, hfound.isLoopOf l hl⟩

theorem isLoop (hl : l ∈ (Analyses.ofFunc f).loops.loops) :
    LoopSearch.IsLoop (Cfg.ofFunc f).succs f.entry (l.header, l.blocks) := by
  obtain ⟨pre, post, s', found, e, hfinds, -⟩ := exists_found hl
  have hmem : (l.header, l.blocks) ∈ found := by rw [e]; simp
  exact hfinds.isLoop _ hmem

/-- An identifier that gives a loop with exits is one of the forest. -/
theorem get_mem_of_exitEdges {t : LoopForest} {id : LoopId} (h : (t.get id).exitEdges ≠ []) :
    t.get id ∈ t.loops := by
  cases hl : t.loops[id]? with
  | none =>
    rw [get, hl] at h
    exact absurd rfl h
  | some l => exact get_of_getElem? hl ▸ List.mem_of_getElem? hl

/-- Of two loops of a forest one is found before the other, and has it inside or apart. -/
theorem eq_or_nested {k : Loop} (hl : l ∈ (Analyses.ofFunc f).loops.loops)
    (hk : k ∈ (Analyses.ofFunc f).loops.loops) :
    l = k ∨ LoopSearch.Nested (l.header, l.blocks) (k.header, k.blocks) ∨
      LoopSearch.Nested (k.header, k.blocks) (l.header, l.blocks) := by
  obtain ⟨s', found, hfinds, hfound⟩ := exists_fromFound (Cfg.ofFunc f) (Cfg.ofFunc f).dominators
  have hn := hfinds.nested
  rw [← hfound.loops, List.pairwise_map] at hn
  obtain ⟨i, hi, rfl⟩ := List.getElem_of_mem hl
  obtain ⟨j, hj, rfl⟩ := List.getElem_of_mem hk
  rcases Nat.lt_trichotomy i j with h | rfl | h
  · exact .inr (.inl (List.pairwise_iff_getElem.mp hn i j hi hj h))
  · exact .inl rfl
  · exact .inr (.inr (List.pairwise_iff_getElem.mp hn j i hj hi h))

/-- A loop with another one inside or apart has another header. -/
theorem header_ne_of_nested {k : Loop} (hl : l ∈ (Analyses.ofFunc f).loops.loops)
    (hk : k ∈ (Analyses.ofFunc f).loops.loops)
    (h : LoopSearch.Nested (l.header, l.blocks) (k.header, k.blocks)) : l.header ≠ k.header := by
  intro e
  rcases h with h | h
  · exact (h _ (isLoop hk).header_mem).2 e.symm
  · exact h _ (isLoop hk).header_mem (e ▸ (isLoop hl).header_mem)

/-- Loops with the same header are one loop. -/
theorem eq_of_header_eq {k : Loop} (hl : l ∈ (Analyses.ofFunc f).loops.loops)
    (hk : k ∈ (Analyses.ofFunc f).loops.loops) (e : l.header = k.header) : l = k := by
  rcases eq_or_nested hl hk with h | h | h
  · exact h
  · exact absurd e (header_ne_of_nested hl hk h)
  · exact absurd e.symm (header_ne_of_nested hk hl h)

/-- The header of a loop is reached without going through the loop. -/
theorem path_header (hf : f.Closed) (hl : l ∈ (Analyses.ofFunc f).loops.loops) :
    f.Path (· ∉ l.blocks) f.entry l.header :=
  Cfg.path_of_succs hf (isLoop hl).first

theorem reachable_header (hf : f.Closed) (hl : l ∈ (Analyses.ofFunc f).loops.loops) :
    f.Reachable l.header :=
  Cfg.reachable_of_path (path_header hf hl)

theorem header_mem (hl : l ∈ (Analyses.ofFunc f).loops.loops) : l.header ∈ l.blocks :=
  (isLoop hl).header_mem

theorem nodup_blocks (hl : l ∈ (Analyses.ofFunc f).loops.loops) : l.blocks.Nodup :=
  (isLoop hl).nodup

theorem reachable_of_mem (hf : f.Closed) (hl : l ∈ (Analyses.ofFunc f).loops.loops) {b : BlockId}
    (hb : b ∈ l.blocks) : f.Reachable b :=
  (Cfg.path_of_succs hf ((isLoop hl).connected b hb).1).induct (reachable_header hf hl)
    fun _ _ _ hx hy => hx.step hy

/-- Control can stay in a loop from every block of it. -/
theorem exists_target_mem (hf : f.Closed) (hl : l ∈ (Analyses.ofFunc f).loops.loops) {b : BlockId}
    (hb : b ∈ l.blocks) : ∃ n ∈ (f.term b).targets, n ∈ l.blocks := by
  have hloop := isLoop hl
  -- the first step of a path in the loop that ends at the header
  have hfirst : ∀ {c}, f.Path (· ∈ l.blocks) b c → b ≠ c → c ∈ l.blocks →
      ∃ n ∈ (f.term b).targets, n ∈ l.blocks := by
    intro c hp hne hc
    rcases Relation.ReflTransGen.cases_head hp with e | ⟨n, hn, hp⟩
    · exact absurd e hne
    · refine ⟨n, hn.2, ?_⟩
      rcases Relation.ReflTransGen.cases_head hp with rfl | ⟨m, hm, -⟩
      · exact hc
      · exact hm.1
  by_cases e : b = l.header
  · obtain ⟨x, hx, hedge⟩ := hloop.cycle
    by_cases hxb : b = x
    · exact ⟨l.header, hxb ▸ ((Cfg.mem_succs hf).mp hedge).2, hloop.header_mem⟩
    · exact hfirst (e ▸ Cfg.path_of_succs hf (hloop.connected x hx).1) hxb hx
  · exact hfirst (Cfg.path_of_succs hf (hloop.connected b hb).2) e hloop.header_mem

/-- Control goes on from every block of a loop. -/
theorem exists_target (hf : f.Closed) (hl : l ∈ (Analyses.ofFunc f).loops.loops) {b : BlockId}
    (hb : b ∈ l.blocks) : ∃ n, n ∈ (f.term b).targets := by
  obtain ⟨n, hn, -⟩ := exists_target_mem hf hl hb
  exact ⟨n, hn⟩

/-- The header of a reducible loop dominates its blocks. -/
theorem dominates_header (hf : f.Closed) (hl : l ∈ (Analyses.ofFunc f).loops.loops)
    (hr : l.reducible = true) {b : BlockId} (hb : b ∈ l.blocks) : f.Dominates l.header b := by
  obtain ⟨pre, post, s', found, e, -, hof⟩ := exists_found hl
  rw [hof.reducible] at hr
  exact Cfg.dominates_of_dominators hf (List.all_eq_true.mp hr b hb)

/-- A reducible loop is entered at its header. -/
theorem eq_header_of_entering (hf : f.Closed) (hl : l ∈ (Analyses.ofFunc f).loops.loops)
    (hr : l.reducible = true) {x y : BlockId} (hx : f.Reachable x) (hxl : x ∉ l.blocks)
    (hy : y ∈ l.blocks) (hxy : y ∈ (f.term x).targets) : y = l.header := by
  obtain ⟨pre, post, s', _, rfl, hfinds, -⟩ := exists_found hl
  have hloop := isLoop hl
  by_contra hne
  have hdom := dominates_header hf hl hr hy
  have hxh : x ≠ l.header := fun e => hxl (e ▸ hloop.header_mem)
  -- a loop around has its header outside
  have houter : ∀ H, LoopSearch.Around (fun _ => False) pre l.header H → H ∉ l.blocks ∧
      f.Path (· ≠ l.header) f.entry H := by
    intro H hH
    obtain ⟨o, -, rfl, ho, hho, hin⟩ := hfinds.exists_of_around hH
    refine ⟨fun hmem => (hin _ hmem).2 rfl, (Cfg.path_of_succs hf ho.first).mono ?_⟩
    rintro z hz rfl
    exact hz hho
  -- a path from the last header to `x`, which avoids the header of the loop
  rcases hx.path.avoid_or_last (· = l.header) with h1 | ⟨h, z, hh, -, rfl, hz, h1⟩
  · exact hne (hdom ((h1.mono fun _ h => h.2).tail hxh hxy))
  have h1 : f.Path (· ≠ l.header) z x := h1.mono fun _ h => h.2
  rcases h1.avoid_or_last (LoopSearch.Around (fun _ => False) pre l.header) with
    h2 | ⟨H, w, -, hHne, hH, hw, h2⟩
  · -- the edge closes a cycle, so that its source is in the loop
    have hin : ∀ b ∈ l.blocks, ¬ LoopSearch.Around (fun _ => False) pre l.header b :=
      fun b hb hA => (houter b hA).1 hb
    have hheader := Cfg.reachable_of_path (path_header hf hl)
    by_cases hxA : LoopSearch.Around (fun _ => False) pre l.header x
    · exact hne (hdom ((houter x hxA).2.tail hxh hxy))
    refine hxl (hfinds.maximal pre _ post rfl x ?_ ?_)
    · have hpath : f.Path (fun b => ¬ LoopSearch.Around (fun _ => False) pre l.header b)
          l.header x := (h2.mono fun _ h => h.2).head (hin _ hloop.header_mem) hz
      exact (Cfg.succs_of_path hf hheader hpath).1
    · exact ((hloop.connected y hy).2.mono hin).head hxA ((Cfg.mem_succs hf).mpr ⟨hx, hxy⟩)
  · refine hne (hdom ?_)
    exact ((((houter H hH).2.tail hHne hw).trans (h2.mono fun _ h => h.1)).tail hxh hxy)

/-- An edge that leaves a loop is one of its exit edges. -/
theorem mem_exitEdges (hf : f.Closed) (hl : l ∈ (Analyses.ofFunc f).loops.loops) {x y : BlockId}
    (hr : f.Reachable x) (hx : x ∈ l.blocks) (hy : y ∉ l.blocks)
    (hxy : y ∈ (f.term x).targets) : (x, y) ∈ l.exitEdges := by
  obtain ⟨pre, post, s', found, -, -, hof⟩ := exists_found hl
  rw [hof.exitEdges, List.mem_filter]
  refine ⟨List.mem_flatMap.mpr ⟨x, hx, List.mem_map_of_mem ((Cfg.mem_succs hf).mpr ⟨hr, hxy⟩)⟩, ?_⟩
  simpa [Loop.contains] using hy

/-- An exit edge leaves the loop. -/
theorem of_mem_exitEdges (hf : f.Closed) (hl : l ∈ (Analyses.ofFunc f).loops.loops) {x y : BlockId}
    (h : (x, y) ∈ l.exitEdges) :
    x ∈ l.blocks ∧ f.Reachable x ∧ y ∈ (f.term x).targets ∧ y ∉ l.blocks := by
  obtain ⟨-, -, -, -, -, -, hof⟩ := exists_found hl
  rw [hof.exitEdges, List.mem_filter] at h
  obtain ⟨hmem, hout⟩ := h
  obtain ⟨b, hb, hmem⟩ := List.mem_flatMap.mp hmem
  obtain ⟨c, hc, e⟩ := List.mem_map.mp hmem
  cases e
  obtain ⟨hr, ht⟩ := (Cfg.mem_succs hf).mp hc
  exact ⟨hb, hr, ht, by simpa [Loop.contains] using hout⟩

/-- A loop is left by a branch that may stay in it as well. -/
theorem exists_brIf_of_mem_exitEdges (hf : f.Closed) (hl : l ∈ (Analyses.ofFunc f).loops.loops)
    {x y : BlockId} (h : (x, y) ∈ l.exitEdges) : ∃ c a b, f.term x = .brIf c a b := by
  obtain ⟨hx, -, hy, hout⟩ := of_mem_exitEdges hf hl h
  obtain ⟨n, hn, hin⟩ := exists_target_mem hf hl hx
  have hne : y ≠ n := fun e => hout (e ▸ hin)
  rcases hterm : f.term x with _ | v | t | ⟨c, a, b⟩
  case brIf => exact ⟨c, a, b, rfl⟩
  all_goals rw [hterm] at hy hn
  case br =>
    exact absurd ((List.mem_singleton.mp hy).trans (List.mem_singleton.mp hn).symm) hne
  all_goals cases hy

/-- A block outside that leads to the header is one of the entering blocks. -/
theorem mem_entering (hf : f.Closed) (hl : l ∈ (Analyses.ofFunc f).loops.loops) {x : BlockId}
    (hr : f.Reachable x) (hx : x ∉ l.blocks) (hxy : l.header ∈ (f.term x).targets) :
    x ∈ l.entering := by
  obtain ⟨pre, post, s', found, -, -, hof⟩ := exists_found hl
  rw [hof.entering, List.mem_filter]
  exact ⟨(Cfg.mem_preds hf).mpr ⟨hr, hxy⟩, by simpa [Loop.contains] using hx⟩

end LoopForest

end Lockstep
