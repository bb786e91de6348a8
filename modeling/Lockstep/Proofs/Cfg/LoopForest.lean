import Lockstep.Proofs.Cfg.LoopSearch
import Lockstep.Proofs.Cfg.Tree

/-!
# Loop forests

The loops of a forest are those that the search found, in the same order, with the edges that the
graph gives them (`FromFound`). A loop lies inside the loops around it, so that every loop on the way
up from a block holds the block.
-/

namespace Lockstep

namespace LoopForest

/-- A loop with the edges that it has in a graph. -/
structure IsLoopOf (g : Cfg) (dom : DomTree) (l : Loop) : Prop where
  latches : l.latches = (g.preds l.header).filter l.contains
  entering : l.entering = (g.preds l.header).filter fun p => !l.contains p
  exitEdges : l.exitEdges = (l.blocks.flatMap fun b => (g.succs b).map fun s => (b, s)).filter
    fun e => !l.contains e.2
  reducible : l.reducible = l.blocks.all (dom.dominates l.header)

/-- A forest of loops that were found in this order. -/
structure FromFound (g : Cfg) (dom : DomTree) (t : LoopForest)
    (found : List (BlockId × List BlockId)) : Prop where
  loops : t.loops.map (fun l => (l.header, l.blocks)) = found
  isLoopOf : ∀ l ∈ t.loops, IsLoopOf g dom l
  innermost : ∀ b id, t.innermost.get? b = some id → ∃ l : Loop, t.loops[id]? = some l ∧ b ∈ l.blocks
  parent : ∀ (i : Nat) (l : Loop) (p : LoopId), t.loops[i]? = some l → l.parent = some p →
    p < i ∧ ∃ l' : Loop, t.loops[p]? = some l' ∧ l.header ∈ l'.blocks

variable {g : Cfg} {dom : DomTree} {t : LoopForest} {found : List (BlockId × List BlockId)}

theorem get?_foldl_set (bs : List BlockId) (id : LoopId) (m : Table BlockId LoopId) (b : BlockId) :
    (bs.foldl (fun m b => m.set b id) m).get? b = if b ∈ bs then some id else m.get? b := by
  induction bs generalizing m with
  | nil => simp
  | cons c bs ih =>
    rw [List.foldl_cons, ih, Table.get?_set]
    by_cases hb : b ∈ bs
    · rw [if_pos hb, if_pos (List.mem_cons_of_mem _ hb)]
    · rw [if_neg hb]
      by_cases hc : b = c
      · rw [if_pos hc, if_pos (hc ▸ List.mem_cons_self)]
      · rw [if_neg hc, if_neg]
        intro h
        exact (List.mem_cons.mp h).elim hc hb

theorem FromFound.nil (g : Cfg) (dom : DomTree) : FromFound g dom {} [] where
  loops := rfl
  isLoopOf l hl := by cases hl
  innermost b id h := by cases h
  parent i l p h := by simp at h

theorem FromFound.add (h : FromFound g dom t found) (header : BlockId) (blocks : List BlockId) :
    FromFound g dom (t.add g dom header blocks) (found ++ [(header, blocks)]) where
  loops := by
    show (t.loops ++ [_]).map _ = _
    rw [List.map_append, h.loops]
    rfl
  isLoopOf l hl := by
    rcases List.mem_append.mp hl with hl | hl
    · exact h.isLoopOf l hl
    · rw [List.mem_singleton] at hl
      subst hl
      refine ⟨?_, ?_, rfl, rfl⟩
      · show ((g.preds header).partition _).1 = _
        rw [List.partition_eq_filter_filter]
        rfl
      · show ((g.preds header).partition _).2 = _
        rw [List.partition_eq_filter_filter]
        rfl
  innermost b id hid := by
    have hid : (blocks.foldl (fun m b => m.set b t.size) t.innermost).get? b = some id := hid
    rw [get?_foldl_set] at hid
    by_cases hb : b ∈ blocks
    · rw [if_pos hb] at hid
      cases hid
      exact ⟨_, List.getElem?_concat_length, hb⟩
    · rw [if_neg hb] at hid
      obtain ⟨l, hl, hbl⟩ := h.innermost b id hid
      exact ⟨l, by
        show (t.loops ++ [_])[id]? = some l
        rw [List.getElem?_append_left (List.getElem?_eq_some_iff.mp hl).1, hl], hbl⟩
  parent i l p hl hp := by
    have hl : (t.loops ++ [_])[i]? = some l := hl
    have hold : ∀ (q : Nat) (l' : Loop), t.loops[q]? = some l' →
        (t.add g dom header blocks).loops[q]? = some l' := by
      intro q l' hq
      show (t.loops ++ [_])[q]? = some l'
      rw [List.getElem?_append_left (List.getElem?_eq_some_iff.mp hq).1, hq]
    rcases Nat.lt_trichotomy i t.loops.length with hi | hi | hi
    · rw [List.getElem?_append_left hi] at hl
      obtain ⟨h1, l', h2, h3⟩ := h.parent i l p hl hp
      exact ⟨h1, l', hold p l' h2, h3⟩
    · subst hi
      rw [List.getElem?_concat_length] at hl
      cases hl
      obtain ⟨l', h2, h3⟩ := h.innermost header p hp
      exact ⟨(List.getElem?_eq_some_iff.mp h2).1, l', hold p l' h2, h3⟩
    · rw [List.getElem?_eq_none (by rw [List.length_append]; simp; omega)] at hl
      cases hl

theorem fromFound_foldl (new : List (BlockId × List BlockId)) (h : FromFound g dom t found) :
    FromFound g dom (new.foldl (fun t (header, blocks) => t.add g dom header blocks) t)
      (found ++ new) := by
  induction new generalizing t found with
  | nil => rwa [List.append_nil]
  | cons e new ih =>
    have := ih (h.add e.1 e.2)
    rwa [List.append_assoc] at this

/-- The loops of a graph come from what the search finds. -/
theorem exists_fromFound (g : Cfg) (dom : DomTree) :
    ∃ s' found, LoopSearch.Finds g.succs g.entry (fun _ => False) {} s' found ∧
      FromFound g dom (ofCfg g dom) found := by
  unfold ofCfg
  split
  · rename_i s hs
    refine ⟨s, s.found, LoopSearch.finds_run hs, ?_⟩
    have hnil : FromFound g dom {} [] := .nil g dom
    exact fromFound_foldl s.found hnil
  · exact ⟨{}, [], ⟨fun e he => (by cases he), fun e he => (by cases he), List.Pairwise.nil,
      fun pre e post h => (by simp at h), fun x hx hd => absurd hd.marked hx⟩, .nil g dom⟩

/-! ## Nesting -/

/-- A forest in which a loop lies inside its parent, and in which the innermost loop around a block
holds it. -/
structure Nesting (t : LoopForest) : Prop where
  innermost : ∀ b id, t.innermostOf? b = some id → b ∈ (t.get id).blocks
  parent : ∀ id p, (t.get id).parent = some p → ∀ b ∈ (t.get id).blocks, b ∈ (t.get p).blocks

theorem get_of_getElem? {id : LoopId} {l : Loop} (h : t.loops[id]? = some l) : t.get id = l := by
  rw [get, h]
  rfl

/-- A loop that has a parent is a loop of the forest. -/
theorem getElem?_of_parent {id : LoopId} {p : LoopId} (h : (t.get id).parent = some p) :
    t.loops[id]? = some (t.get id) := by
  cases hl : t.loops[id]? with
  | none =>
    rw [get, hl] at h
    cases h
  | some l => rw [get_of_getElem? hl]

theorem FromFound.getElem?_found (h : FromFound g dom t found) {id : LoopId} {l : Loop}
    (hl : t.loops[id]? = some l) : found[id]? = some (l.header, l.blocks) := by
  rw [← h.loops, List.getElem?_map, hl]
  rfl

theorem nesting_ofCfg (g : Cfg) (dom : DomTree) : (ofCfg g dom).Nesting := by
  obtain ⟨s', found, hf, h⟩ := exists_fromFound g dom
  refine ⟨fun b id hb => ?_, fun id p hp b hb => ?_⟩
  · obtain ⟨l, hl, hbl⟩ := h.innermost b id hb
    rwa [get_of_getElem? hl]
  · have hl := getElem?_of_parent hp
    obtain ⟨hlt, l', hl', hm⟩ := h.parent id _ p hl hp
    have h1 := h.getElem?_found hl
    have h2 := h.getElem?_found hl'
    obtain ⟨hi, e1⟩ := List.getElem?_eq_some_iff.mp h1
    obtain ⟨hj, e2⟩ := List.getElem?_eq_some_iff.mp h2
    have hn := List.pairwise_iff_getElem.mp hf.nested p id hj hi hlt
    rw [e1, e2] at hn
    have hself := (hf.isLoop _ (List.mem_of_getElem? h1)).header_mem
    rw [get_of_getElem? hl']
    rcases hn with hn | hn
    · exact (hn b hb).1
    · exact absurd hm (hn _ hself)

/-- The header of a loop that is recorded as reducible dominates the blocks of the loop. -/
theorem dominates_of_reducible {id : LoopId} (hr : ((ofCfg g dom).get id).reducible = true)
    {b : BlockId} (hb : b ∈ ((ofCfg g dom).get id).blocks) :
    dom.dominates ((ofCfg g dom).get id).header b = true := by
  obtain ⟨s', found, -, h⟩ := exists_fromFound g dom
  cases hl : (ofCfg g dom).loops[id]? with
  | none =>
    rw [get, hl] at hr
    cases hr
  | some l =>
    rw [get_of_getElem? hl] at hr hb ⊢
    rw [(h.isLoopOf l (List.mem_of_getElem? hl)).reducible] at hr
    exact List.all_eq_true.mp hr b hb

end LoopForest

end Lockstep
