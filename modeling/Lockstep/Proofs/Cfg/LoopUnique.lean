import Lockstep.Proofs.Cfg.LoopEntry

/-!
# Loops and the order of targets

The search for loops takes the targets of a block in their order, but where cycles are reducible the
order does not matter: a loop that is found after targets have been exchanged is one that was found
before, if the loops found before around its header are reducible (`exists_same_loop`). An irreducible
cycle has several blocks that may become its header.
-/

namespace Lockstep

namespace LoopForest

variable {f f' : Func} {l l' : Loop}

/-- The loops of a graph are those that a search finds which succeeds. -/
theorem fromFound_of_run {g : Cfg} {s : LoopSearch} (h : LoopSearch.run g = .ok s) (dom : DomTree) :
    FromFound g dom (ofCfg g dom) s.found := by
  unfold ofCfg
  rw [h]
  have hnil : FromFound g dom {} [] := .nil g dom
  exact fromFound_foldl s.found hnil

/-- A search that fails finds no loops. -/
theorem eq_empty_of_run {g : Cfg} {e : LoopSearchFault} (h : LoopSearch.run g = .error e)
    (dom : DomTree) : ofCfg g dom = {} := by
  unfold ofCfg
  rw [h]

/-- A loop has a cycle through its header. -/
theorem exists_cycle (hl : l ∈ (Analyses.ofFunc f).loops.loops) :
    ∃ y ∈ (Cfg.ofFunc f).succs l.header,
      PathIn (Cfg.ofFunc f).succs (· ∈ l.blocks) y l.header := by
  have hloop := isLoop hl
  obtain ⟨x, hx, hedge⟩ := hloop.cycle
  rcases Relation.ReflTransGen.cases_head (hloop.connected x hx).1 with rfl | ⟨y, hy, hp⟩
  · exact ⟨_, hedge, .refl _⟩
  · exact ⟨y, hy.2, PathIn.tail hp hx hedge⟩

/-- If a block of a reducible loop is reached without going through the header of the loop, it is the
header. -/
theorem eq_header_of_path (hf : f.Closed) (hl : l ∈ (Analyses.ofFunc f).loops.loops)
    (hr : l.reducible = true) {h : BlockId} {B : List BlockId} (hh : h ∈ l.blocks)
    (hp : f.Path (· ∉ B) f.entry h) (hB : l.header ∈ B) : h = l.header :=
  dominates_header hf hl hr hh (hp.mono fun _ hx e => hx (e ▸ hB))

section SameTargets

variable (ht : ∀ b c, c ∈ (f'.term b).targets ↔ c ∈ (f.term b).targets)

include ht

theorem path_of_targets {P : BlockId → Prop} {a b : BlockId} (h : f'.Path P a b) : f.Path P a b :=
  Relation.ReflTransGen.mono (fun x y e => ⟨e.1, (ht x y).mp e.2⟩) _ _ h

variable (hf : f.Closed) (hf' : f'.Closed)

include hf hf'

theorem mem_succs_of_targets {b c : BlockId} (h : c ∈ (Cfg.ofFunc f').succs b) :
    c ∈ (Cfg.ofFunc f).succs b := by
  obtain ⟨hr, hc⟩ := (Cfg.mem_succs hf').mp h
  refine (Cfg.mem_succs hf).mpr ⟨?_, (ht b c).mp hc⟩
  exact hr.closed f.reachable_entry fun x hx y hy => hx.step ((ht x y).mp hy)

theorem path_succs_of_targets {P : BlockId → Prop} {a b : BlockId}
    (h : PathIn (Cfg.ofFunc f').succs P a b) : PathIn (Cfg.ofFunc f).succs P a b :=
  Relation.ReflTransGen.mono (fun _ _ e => ⟨e.1, mem_succs_of_targets ht hf hf' e.2⟩) _ _ h

variable (hl' : l' ∈ (Analyses.ofFunc f').loops.loops)
  (hred : ∀ l ∈ (Analyses.ofFunc f).loops.loops, l'.header ∈ l.blocks → l.reducible = true)

include hl' hred

/-- Where the loops around are reducible, a loop that is found after targets were exchanged has the
header of one that was found before. -/
theorem exists_same_header {s : LoopSearch} (hrun : LoopSearch.run (Cfg.ofFunc f) = .ok s) :
    ∃ l ∈ (Analyses.ofFunc f).loops.loops, l.header = l'.header := by
  have hmem : ∀ e ∈ s.found, ∃ l ∈ (Analyses.ofFunc f).loops.loops, (l.header, l.blocks) = e := by
    intro e he
    rw [← (fromFound_of_run hrun (Cfg.ofFunc f).dominators).loops] at he
    exact List.mem_map.mp he
  have hpath : f.Path (· ∉ l'.blocks) f.entry l'.header := path_of_targets ht (path_header hf' hl')
  have hdone : LoopSearch.Done s l'.header := LoopSearch.done_of_run hrun
    ((Cfg.succs_of_path hf f.reachable_entry hpath).1.mono fun _ _ => trivial)
  by_contra hnone
  rcases (LoopSearch.finds_run hrun).complete l'.header (fun h => h rfl) hdone with
    ⟨e, he, hx⟩ | hcover
  · obtain ⟨l, hl, rfl⟩ := hmem e he
    exact hnone ⟨l, hl, hx⟩
  · obtain ⟨y, hy, hcycle⟩ := exists_cycle hl'
    refine hcover y (mem_succs_of_targets ht hf hf' hy)
      ((path_succs_of_targets ht hf hf' hcycle).mono fun z hz ha => ?_)
    -- a loop around whose header lies on the cycle has the same header
    rcases ha with ha | ⟨e, he, rfl, hin⟩
    · exact ha
    · obtain ⟨l, hl, rfl⟩ := hmem e he
      exact hnone ⟨l, hl, (eq_header_of_path hf hl (hred l hl hin) hin hpath hz).symm⟩

/-- Loops of the same header have the same blocks. -/
theorem mem_blocks_iff_of_header_eq (hl : l ∈ (Analyses.ofFunc f).loops.loops)
    (e : l.header = l'.header) (b : BlockId) : b ∈ l.blocks ↔ b ∈ l'.blocks := by
  have hloop := isLoop hl
  have hloop' := isLoop hl'
  have hpath : f.Path (· ∉ l'.blocks) f.entry l'.header := path_of_targets ht (path_header hf' hl')
  constructor
  · intro hb
    obtain ⟨pre, post, s', _, rfl, hfinds, -⟩ := exists_found hl'
    -- a header of a loop around does not lie in the loop that was found before
    have hout : ∀ x ∈ l.blocks, ¬ LoopSearch.Around (fun _ => False) pre l'.header x := by
      intro x hx ha
      obtain ⟨o, -, rfl, ho, hin, hinside⟩ := hfinds.exists_of_around ha
      have hfirst : f.Path (· ∉ o.2) f.entry o.1 :=
        path_of_targets ht (Cfg.path_of_succs hf' ho.first)
      have hheader : o.1 = l.header := eq_header_of_path hf hl
        (hred l hl (e ▸ hloop.header_mem)) hx hfirst (e ▸ hin)
      exact (hinside _ hloop'.header_mem).2 (hheader.trans e).symm
    have hsymm : ∀ b c, c ∈ (f.term b).targets ↔ c ∈ (f'.term b).targets :=
      fun b c => (ht b c).symm
    obtain ⟨h1, h2⟩ := hloop.connected b hb
    have h1 := path_succs_of_targets hsymm hf' hf (h1.mono hout)
    have h2 := path_succs_of_targets hsymm hf' hf (h2.mono hout)
    exact hfinds.maximal pre _ post rfl b (e ▸ h1) (e ▸ h2)
  · intro hb
    obtain ⟨s', found, hfinds, hfound⟩ := exists_fromFound (Cfg.ofFunc f) (Cfg.ofFunc f).dominators
    have hmem : (l.header, l.blocks) ∈ found := by
      rw [← hfound.loops]
      exact List.mem_map_of_mem hl
    obtain ⟨pre, post, rfl⟩ := List.append_of_mem hmem
    have hout : ∀ x ∈ l'.blocks, ¬ LoopSearch.Around (fun _ => False) pre l.header x := by
      intro x hx ha
      obtain ⟨o, ho, rfl, -, hin, hinside⟩ := hfinds.exists_of_around ha
      have hmemo := List.mem_append_left ((l.header, l.blocks) :: post) ho
      rw [← hfound.loops] at hmemo
      obtain ⟨k, hk, rfl⟩ := List.mem_map.mp hmemo
      have hheader : l'.header = k.header :=
        eq_header_of_path hf hk (hred k hk (e ▸ hin)) (e ▸ hin) hpath hx
      exact (hinside _ hloop.header_mem).2 (e.trans hheader)
    obtain ⟨h1, h2⟩ := hloop'.connected b hb
    have h1 := path_succs_of_targets ht hf hf' (h1.mono hout)
    have h2 := path_succs_of_targets ht hf hf' (h2.mono hout)
    exact hfinds.maximal pre _ post rfl b (e ▸ h1) (e ▸ h2)

/-- Where the loops around its header are reducible, a loop that is found after targets were exchanged
is one that was found before. -/
theorem exists_same_loop {s : LoopSearch} (hrun : LoopSearch.run (Cfg.ofFunc f) = .ok s) :
    ∃ l ∈ (Analyses.ofFunc f).loops.loops, l.header = l'.header ∧
      ∀ b, b ∈ l.blocks ↔ b ∈ l'.blocks := by
  obtain ⟨l, hl, e⟩ := exists_same_header ht hf hf' hl' hred hrun
  exact ⟨l, hl, e, mem_blocks_iff_of_header_eq ht hf hf' hl' hred hl e⟩

end SameTargets

end LoopForest

end Lockstep
