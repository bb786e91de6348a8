import Lockstep.Cfg.Graph
import Lockstep.Proofs.Cfg.Search
import Mathlib.Data.List.Dedup

/-!
# Reachable blocks

A block is reachable if a path of branches leads to it from the entry. In a function whose
branches stay among its blocks, the reverse post-order lists the reachable blocks, each once, entry
first, and the tables of a graph hold the branches between them.
-/

namespace Lockstep

namespace Func

/-- Control can go from `a` to `b`. -/
def Reaches (f : Func) : BlockId → BlockId → Prop := Search.Reach fun b => (f.term b).targets

/-- Control can go from the entry to `b`. -/
def Reachable (f : Func) (b : BlockId) : Prop := f.Reaches f.entry b

/-- The entry and the targets of all branches are blocks of the function. -/
structure Closed (f : Func) : Prop where
  entry_lt : f.entry < f.blocks.size
  target_lt : ∀ b, ∀ t ∈ (f.term b).targets, t < f.blocks.size

theorem reachable_entry (f : Func) : f.Reachable f.entry := Search.Reach.refl _

theorem Reachable.step {f : Func} {b c : BlockId} (h : f.Reachable b)
    (hc : c ∈ (f.term b).targets) : f.Reachable c :=
  Search.Reach.tail h hc

/-- A set of blocks that holds the entry and is closed under branches holds all reachable
blocks. -/
theorem Reachable.closed {f : Func} {b : BlockId} {P : BlockId → Prop} (h : f.Reachable b)
    (he : P f.entry) (hs : ∀ x, P x → ∀ y ∈ (f.term x).targets, P y) : P b :=
  Search.Reach.closed h hs he

theorem Reachable.lt {f : Func} (hf : f.Closed) {b : BlockId} (h : f.Reachable b) :
    b < f.blocks.size :=
  h.closed hf.entry_lt fun x _ y hy => hf.target_lt x y hy

/-! ## Reverse post-order -/

/-- What the search for the reverse post-order explores. -/
theorem explored_reversePostOrder {f : Func} (hf : f.Closed) :
    ∃ s, Search.Explored (fun b => (f.term b).targets.reverse) (· = f.entry) .empty s
      f.reversePostOrder ∧ f.entry ∈ s.seen := by
  have hn : ∀ x < f.blocks.size, ∀ y ∈ (f.term x).targets.reverse, y < f.blocks.size :=
    fun x _ y hy => hf.target_lt x y (List.mem_reverse.mp hy)
  obtain ⟨new, h, he⟩ := Search.explored_visit hn (f.blocks.size + 1) f.entry .empty hf.entry_lt
    (by rw [Search.card_unseen_empty]; exact Nat.lt_succ_self _)
  have hl : f.reversePostOrder = new := by
    exact h.left_eq.trans (List.append_nil new)
  exact ⟨_, hl ▸ h, he⟩

theorem mem_reversePostOrder {f : Func} (hf : f.Closed) {b : BlockId} :
    b ∈ f.reversePostOrder ↔ f.Reachable b := by
  obtain ⟨s, h, he⟩ := explored_reversePostOrder hf
  have hseen : ∀ x, x ∈ s.seen ↔ x ∈ f.reversePostOrder := by
    intro x
    rw [h.mem_seen]
    simp [Search.empty]
  constructor
  · intro hb
    obtain ⟨r, rfl, hr⟩ := h.reached b hb
    exact hr.closed (P := f.Reachable)
      (fun x hx y hy => hx.step (List.mem_reverse.mp hy)) f.reachable_entry
  · intro hb
    refine hb.closed ((hseen _).mp he) fun x hx y hy => (hseen y).mp ?_
    exact h.closed x hx y (List.mem_reverse.mpr hy)

theorem nodup_reversePostOrder {f : Func} (hf : f.Closed) : f.reversePostOrder.Nodup := by
  obtain ⟨s, h, -⟩ := explored_reversePostOrder hf
  exact h.nodup

/-- Every block of the reverse post-order but the entry follows one of its predecessors. -/
theorem reversePostOrder_grown {f : Func} (hf : f.Closed) {pre post : List BlockId} {b : BlockId}
    (e : f.reversePostOrder = pre ++ b :: post) :
    b = f.entry ∨ ∃ p ∈ pre, b ∈ (f.term p).targets := by
  obtain ⟨s, h, -⟩ := explored_reversePostOrder hf
  obtain hb | ⟨p, hp, hb⟩ := h.grown pre b post e
  · exact .inl hb
  · exact .inr ⟨p, hp, List.mem_reverse.mp hb⟩

/-- The entry comes first. -/
theorem reversePostOrder_eq_cons {f : Func} (hf : f.Closed) :
    ∃ rest, f.reversePostOrder = f.entry :: rest := by
  have he := (mem_reversePostOrder hf).mpr f.reachable_entry
  cases hr : f.reversePostOrder with
  | nil => rw [hr] at he; cases he
  | cons b rest =>
    have hr' : f.reversePostOrder = [] ++ b :: rest := hr
    obtain hb | ⟨p, hp, -⟩ := reversePostOrder_grown hf hr'
    · exact ⟨rest, by rw [hb]⟩
    · cases hp

/-- A branch from a block leads to a later block, or to one that reaches the block again through
blocks that are listed no earlier than it. -/
theorem reversePostOrder_back {f : Func} (hf : f.Closed) {pre post : List BlockId}
    {b c : BlockId} (e : f.reversePostOrder = pre ++ b :: post) (hc : c ∈ (f.term b).targets) :
    c ∈ post ∨ ∃ before after, f.reversePostOrder = before ++ c :: after ∧
      PathIn (fun x => (f.term x).targets) (· ∈ c :: after) c b := by
  obtain ⟨s, h, -⟩ := explored_reversePostOrder hf
  rcases h.back pre b post e c (List.mem_reverse.mpr hc) with h1 | h1 | ⟨before, after, h1, hp⟩
  · exact .inl h1
  · exact absurd h1 (List.not_mem_nil)
  · refine .inr ⟨before, after, h1, hp.induct (.refl c) fun x y hx hcx hy => ?_⟩
    exact hcx.tail hx (List.mem_reverse.mp hy)

end Func

/-! ## The tables of a graph -/

namespace Cfg

variable {f : Func}

theorem mem_rpo (hf : f.Closed) {b : BlockId} : b ∈ (ofFunc f).rpo ↔ f.Reachable b :=
  Func.mem_reversePostOrder hf

theorem isReachable_iff (hf : f.Closed) {b : BlockId} :
    (ofFunc f).isReachable b = true ↔ f.Reachable b := by
  rw [← mem_rpo hf]
  exact List.contains_iff_mem

theorem getElem?_map_range {α : Type} (n : Nat) (g : Nat → α) (k : Nat) :
    ((List.range n).map g).toArray[k]? = if k < n then some (g k) else none := by
  by_cases h : k < n <;> simp [h]

theorem term_of_size_le {b : BlockId} (h : f.blocks.size ≤ b) : f.term b = .unreachable := by
  show ((f.blocks[b]?).getD default).term = _
  rw [Array.getElem?_eq_none h]
  rfl

theorem nodup_eraseDups : ∀ l : List BlockId, l.eraseDups.Nodup
  | [] => List.nodup_nil
  | b :: l => by
    rw [List.eraseDups_cons]
    refine List.nodup_cons.mpr ⟨?_, nodup_eraseDups _⟩
    simp [List.mem_eraseDups]
termination_by l => l.length
decreasing_by exact Nat.lt_succ_of_le (List.length_filter_le _ _)

theorem succs_ofFunc (hf : f.Closed) (b : BlockId) :
    (ofFunc f).succs b =
      if (ofFunc f).isReachable b then (f.term b).targets.eraseDups else [] := by
  show (((List.range f.blocks.size).map _).toArray[b]?).getD [] = _
  rw [getElem?_map_range]
  by_cases hb : b < f.blocks.size
  · rw [if_pos hb]
    rfl
  · rw [if_neg hb, if_neg fun h => hb (((isReachable_iff hf).mp h).lt hf)]
    rfl

theorem mem_succs (hf : f.Closed) {b c : BlockId} :
    c ∈ (ofFunc f).succs b ↔ f.Reachable b ∧ c ∈ (f.term b).targets := by
  rw [succs_ofFunc hf]
  by_cases h : (ofFunc f).isReachable b = true
  · rw [if_pos h, List.mem_eraseDups]
    exact (and_iff_right ((isReachable_iff hf).mp h)).symm
  · rw [if_neg h]
    simp only [List.not_mem_nil, false_iff, not_and]
    exact fun hb => absurd ((isReachable_iff hf).mpr hb) h

theorem nodup_succs (hf : f.Closed) (b : BlockId) : ((ofFunc f).succs b).Nodup := by
  rw [succs_ofFunc hf]
  split
  · exact nodup_eraseDups _
  · exact List.nodup_nil

theorem preds_ofFunc (b : BlockId) :
    (ofFunc f).preds b = if b < f.blocks.size then
      (ofFunc f).rpo.filter fun p => ((ofFunc f).succs p).contains b else [] := by
  show (((List.range f.blocks.size).map _).toArray[b]?).getD [] = _
  rw [getElem?_map_range]
  split <;> rfl

theorem mem_preds (hf : f.Closed) {b p : BlockId} :
    p ∈ (ofFunc f).preds b ↔ f.Reachable p ∧ b ∈ (f.term p).targets := by
  rw [preds_ofFunc]
  by_cases hb : b < f.blocks.size
  · rw [if_pos hb, List.mem_filter, List.contains_iff_mem, mem_succs hf, mem_rpo hf]
    tauto
  · rw [if_neg hb]
    simp only [List.not_mem_nil, false_iff, not_and]
    exact fun _ h => hb (hf.target_lt p b h)

theorem nodup_preds (hf : f.Closed) (b : BlockId) : ((ofFunc f).preds b).Nodup := by
  rw [preds_ofFunc]
  split
  · exact (Func.nodup_reversePostOrder hf).filter _
  · exact List.nodup_nil

end Cfg

end Lockstep
