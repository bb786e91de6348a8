import Lockstep.Proofs.Cfg.Idom
import Lockstep.Proofs.Func.Coherent

/-!
# The dominator tree

A tree whose parents are read off the candidates of a numbering answers two questions: who is above
whom (`dominates`), and who is next (`parent?`). `Reads` says how the tree and the candidates belong
together; from it the early end of a walk is shown to be right (`dominates_iff`), and the parent of
a block to be its lowest proper ancestor (`parent?_eq_some_iff`). With the iteration's result this
settles the dominator tree of a function: it holds exactly the reachable blocks, one is above another
if it lies on every path to it, and the parent is the strict dominator that all others dominate
(`dominators_exact`).
-/

namespace Lockstep

namespace DomTree

/-- The parents of `t` are the candidates `idoms`, in which the block at position `k` is node
`k + shift`. A block has no parent if its candidate is itself or no block. -/
structure Reads (t : DomTree) (idoms : Idom.Candidates) (shift : Nat) : Prop where
  rooted : Idom.Rooted idoms
  parent : ∀ b p, t.parent? b = some p ↔ ∃ k m, t.number? b = some k ∧ t.number? p = some m ∧
    m ≠ k ∧ idoms[k + shift]?.join = some (m + shift)

theorem number?_lt {t : DomTree} {b : BlockId} {k : Nat} (h : t.number? b = some k) :
    k < t.order.length := by
  obtain ⟨hlt, -, -⟩ := List.idxOf?_eq_some_iff.mp h
  exact hlt

theorem getElem?_order {t : DomTree} {b : BlockId} {k : Nat} (h : t.number? b = some k) :
    t.order[k]? = some b := by
  obtain ⟨hlt, e, -⟩ := List.idxOf?_eq_some_iff.mp h
  rw [List.getElem?_eq_getElem hlt, e]

theorem number?_of_getElem? {t : DomTree} (hn : t.order.Nodup) {b : BlockId} {k : Nat}
    (h : t.order[k]? = some b) : t.number? b = some k := by
  obtain ⟨hlt, e⟩ := List.getElem?_eq_some_iff.mp h
  refine List.idxOf?_eq_some_iff.mpr ⟨hlt, e, fun j hj e' => ?_⟩
  have := hn.getElem_inj_iff.mp (e'.trans e.symm)
  omega

theorem isSome_number?_iff {t : DomTree} {b : BlockId} : (t.number? b).isSome ↔ b ∈ t.order := by
  unfold number?
  simp

/-- In an order in which each block is a root or follows a block that has an edge to it, that block
has a smaller number. -/
theorem root_or_exists_earlier {order : List BlockId} (hn : order.Nodup) {R : BlockId → Prop}
    {E : BlockId → BlockId → Prop}
    (hgrown : ∀ pre x post, order = pre ++ x :: post → R x ∨ ∃ p ∈ pre, E p x) {b : BlockId} {k : Nat}
    (hb : order.idxOf? b = some k) : R b ∨ ∃ p i, order.idxOf? p = some i ∧ i < k ∧ E p b := by
  obtain ⟨hk, rfl, -⟩ := List.idxOf?_eq_some_iff.mp hb
  have hsplit : order = order.take k ++ order[k] :: order.drop (k + 1) := by
    rw [← List.drop_eq_getElem_cons hk, List.take_append_drop]
  rcases hgrown _ _ _ hsplit with hroot | ⟨p, hp, hedge⟩
  · exact .inl hroot
  · obtain ⟨i, hi, rfl⟩ := List.mem_iff_getElem.mp hp
    rw [List.length_take] at hi
    have hnum : order[i]? = some (order.take k)[i] := by
      rw [List.getElem_take, List.getElem?_eq_getElem]
    exact .inr ⟨_, i, number?_of_getElem? (t := ⟨order, .empty⟩) hn hnum, by omega, hedge⟩

namespace Reads

variable {t : DomTree} {idoms : Idom.Candidates} {shift j k : Nat} {a b p : BlockId}
  (h : t.Reads idoms shift)

include h

/-- Parents come first. -/
theorem exists_parent_lt (hp : t.parent? b = some p) :
    ∃ k m, t.number? b = some k ∧ t.number? p = some m ∧ m < k := by
  obtain ⟨k, m, hb, hm, hne, hc⟩ := (h.parent b p).mp hp
  have := h.rooted.le hc
  exact ⟨k, m, hb, hm, by omega⟩

/-- Ancestors come no later. -/
theorem exists_number_le (ha : t.Above b a) (hb : t.number? b = some k) :
    ∃ j ≤ k, t.number? a = some j := by
  induction ha with
  | refl => exact ⟨k, Nat.le_refl k, hb⟩
  | @tail x p _ hp ih =>
    obtain ⟨i, hik, hi⟩ := ih
    obtain ⟨i', m, hi', hm, hlt⟩ := h.exists_parent_lt hp
    rw [hi] at hi'
    cases hi'
    exact ⟨m, by omega, hm⟩

/-- A walk finds an ancestor: it does not end at the position of the ancestor before that. -/
theorem walk_of_above (ha : t.Above b a) (hj : t.number? a = some j) {fuel : Nat}
    (hb : t.number? b = some k) (hf : k < fuel) : t.walk a j fuel b = true := by
  induction ha using Relation.ReflTransGen.head_induction_on generalizing k fuel with
  | refl =>
    obtain ⟨fuel, rfl⟩ := Nat.exists_eq_add_one_of_ne_zero (by omega : fuel ≠ 0)
    unfold walk
    rw [if_pos rfl]
  | @head x p hp ha ih =>
    obtain ⟨fuel, rfl⟩ := Nat.exists_eq_add_one_of_ne_zero (by omega : fuel ≠ 0)
    obtain ⟨k', m, hk', hm, hlt⟩ := h.exists_parent_lt hp
    rw [hb] at hk'
    cases hk'
    obtain ⟨j', hj', hja⟩ := h.exists_number_le ha hm
    rw [hj] at hja
    cases hja
    unfold walk
    by_cases hxa : x = a
    · rw [if_pos hxa]
    · have hlimit : ¬ k < j := by omega
      rw [if_neg hxa, hb, hp]
      simpa [hlimit] using ih hm (by omega)

/-- The tree says that `a` dominates `b` if `b` is a block of the tree and `a` an ancestor. -/
theorem dominates_iff : t.dominates a b = true ↔ b ∈ t.order ∧ t.Above b a := by
  constructor
  · intro hd
    obtain ⟨_, k, _, hb, _⟩ := number?_le_of_dominates hd
    exact ⟨isSome_number?_iff.mp (by simp [hb]), above_of_dominates hd⟩
  · rintro ⟨hb, ha⟩
    obtain ⟨k, hk⟩ := Option.isSome_iff_exists.mp (isSome_number?_iff.mpr hb)
    obtain ⟨j, hjk, hj⟩ := h.exists_number_le ha hk
    have hwalk := h.walk_of_above ha hj hk (Nat.lt_succ_of_lt (number?_lt hk))
    unfold dominates
    rw [hj, hk]
    exact hwalk

/-- The parent of a block is the ancestor, other than the block, that all others are above. -/
theorem parent?_eq_some_iff : t.parent? b = some p ↔
    p ≠ b ∧ t.dominates p b = true ∧
      ∀ a, a ≠ b → t.dominates a b = true → t.dominates a p = true := by
  constructor
  · intro hp
    obtain ⟨k, m, hb, hm, hlt⟩ := h.exists_parent_lt hp
    have hmem : b ∈ t.order := isSome_number?_iff.mp (by simp [hb])
    have hpmem : p ∈ t.order := isSome_number?_iff.mp (by simp [hm])
    refine ⟨?_, h.dominates_iff.mpr ⟨hmem, .single hp⟩, fun a hab ha => ?_⟩
    · rintro rfl
      rw [hb] at hm
      cases hm
      omega
    · rcases Relation.ReflTransGen.cases_head (h.dominates_iff.mp ha).2 with e | ⟨q, hq, hqa⟩
      · exact absurd e.symm hab
      · rw [hp] at hq
        cases hq
        exact h.dominates_iff.mpr ⟨hpmem, hqa⟩
  · rintro ⟨hne, hd, hlow⟩
    obtain ⟨hb, habove⟩ := h.dominates_iff.mp hd
    rcases Relation.ReflTransGen.cases_head habove with e | ⟨q, hq, hqp⟩
    · exact absurd e.symm hne
    -- the parent `q` of `b` is below `p`, and above it because it dominates `b`
    obtain ⟨k, m, hk, hm, hlt⟩ := h.exists_parent_lt hq
    have hqmem : q ∈ t.order := isSome_number?_iff.mp (by simp [hm])
    have hqb : q ≠ b := by
      rintro rfl
      rw [hk] at hm
      cases hm
      omega
    have hpq : t.dominates p q = true := h.dominates_iff.mpr ⟨hqmem, hqp⟩
    have hqp' : t.dominates q p = true :=
      hlow q hqb (h.dominates_iff.mpr ⟨hb, .single hq⟩)
    rw [hq, dominates_antisymm hqp' hpq]

/-- A block without a parent is its only ancestor. -/
theorem parent?_eq_none_iff :
    t.parent? b = none ↔ ∀ a, t.dominates a b = true → a = b := by
  constructor
  · intro hnone a ha
    rcases Relation.ReflTransGen.cases_head (h.dominates_iff.mp ha).2 with e | ⟨q, hq, -⟩
    · exact e.symm
    · rw [hnone] at hq
      cases hq
  · intro hall
    cases hp : t.parent? b with
    | none => rfl
    | some p =>
      obtain ⟨hne, hd, -⟩ := h.parent?_eq_some_iff.mp hp
      exact absurd (hall p hd) hne

/-- Going up between blocks is going up between nodes. -/
theorem above_iff (hb : t.number? b = some k) (ha : t.number? a = some j) (hn : t.order.Nodup) :
    t.Above b a ↔ Idom.Above idoms (k + shift) (j + shift) := by
  constructor
  · intro hab
    induction hab using Relation.ReflTransGen.head_induction_on generalizing k with
    | refl =>
      rw [hb] at ha
      cases ha
      exact .refl _
    | head hp _ ih =>
      obtain ⟨k', m, hk', hm, -, hc⟩ := (h.parent _ _).mp hp
      rw [hb] at hk'
      cases hk'
      exact .up hc (ih hm)
  · intro hkj
    generalize hx : k + shift = x at hkj
    generalize hy : j + shift = y at hkj
    induction hkj generalizing k b with
    | refl v =>
      obtain rfl : k = j := by omega
      rw [number?_inj hb ha]
      exact .refl
    | @up v q y hq hqy ih =>
      subst hx
      subst hy
      -- the candidate is no earlier than the node of `a`, so it is the node of a block
      have hle := hqy.le h.rooted
      have hlt := h.rooted.le hq
      obtain ⟨m, rfl⟩ : ∃ m, q = m + shift := ⟨q - shift, by omega⟩
      by_cases hmk : m = k
      · subst hmk
        exact ih hb rfl rfl
      · have hm : m < t.order.length := by
          have := number?_lt hb
          omega
        have hnum := number?_of_getElem? hn (List.getElem?_eq_getElem hm)
        exact .head ((h.parent b _).mpr ⟨k, m, hb, hnum, hmk, hq⟩) (ih hnum rfl rfl)

/-- If `D` says which nodes of blocks are above which, the tree answers with `D`. -/
theorem dominates_iff_of (hn : t.order.Nodup) {D : BlockId → BlockId → Prop}
    (hD : ∀ {a b j k}, t.number? a = some j → t.number? b = some k →
      (Idom.Above idoms (k + shift) (j + shift) ↔ D a b)) :
    t.dominates a b = true ↔ (a ∈ t.order ∧ b ∈ t.order) ∧ D a b := by
  rw [h.dominates_iff]
  constructor
  · rintro ⟨hb, habove⟩
    obtain ⟨k, hk⟩ := Option.isSome_iff_exists.mp (isSome_number?_iff.mpr hb)
    obtain ⟨j, -, hj⟩ := h.exists_number_le habove hk
    have ha : a ∈ t.order := isSome_number?_iff.mp (by simp [hj])
    exact ⟨⟨ha, hb⟩, (hD hj hk).mp ((h.above_iff hk hj hn).mp habove)⟩
  · rintro ⟨⟨ha, hb⟩, hd⟩
    obtain ⟨j, hj⟩ := Option.isSome_iff_exists.mp (isSome_number?_iff.mpr ha)
    obtain ⟨k, hk⟩ := Option.isSome_iff_exists.mp (isSome_number?_iff.mpr hb)
    exact ⟨hb, (h.above_iff hk hj hn).mpr ((hD hj hk).mpr hd)⟩

/-- If the tree answers with `D` between the blocks of `M`, the parent of a block is the one that `D`
puts lowest above it. -/
theorem parent?_eq_some_iff_of {M : BlockId → Prop} {D : BlockId → BlockId → Prop}
    (hD : ∀ {a b}, t.dominates a b = true ↔ (M a ∧ M b) ∧ D a b)
    (hM : ∀ {a b}, D a b → M b → M a) :
    t.parent? b = some p ↔ (p ≠ b ∧ M b ∧ D p b) ∧ ∀ a, a ≠ b ∧ M b ∧ D a b → D a p := by
  rw [h.parent?_eq_some_iff]
  constructor
  · rintro ⟨hne, hd, hlow⟩
    obtain ⟨⟨-, hb⟩, hpb⟩ := hD.mp hd
    refine ⟨⟨hne, hb, hpb⟩, fun a ⟨hab, _, ha⟩ => ?_⟩
    exact (hD.mp (hlow a hab (hD.mpr ⟨⟨hM ha hb, hb⟩, ha⟩))).2
  · rintro ⟨⟨hne, hb, hpb⟩, hlow⟩
    have hp := hM hpb hb
    refine ⟨hne, hD.mpr ⟨⟨hp, hb⟩, hpb⟩, fun a hab hd => ?_⟩
    obtain ⟨⟨ha, -⟩, hab'⟩ := hD.mp hd
    exact hD.mpr ⟨⟨ha, hp⟩, hlow a ⟨hab, hb, hab'⟩⟩

end Reads

end DomTree

/-! ## Dominators of a function -/

namespace Func

/-- `b` is reachable, and every path to it passes `a`, which is another block. -/
def StrictlyDominates (f : Func) (a b : BlockId) : Prop :=
  a ≠ b ∧ f.Reachable b ∧ f.Dominates a b

variable {f : Func} {a b : BlockId}

theorem dominates_entry_iff : f.Dominates a f.entry ↔ a = f.entry := by
  constructor
  · intro h
    exact (h (.refl _)).symm
  · rintro rfl _
    rfl

/-- The entry dominates all blocks. -/
theorem entry_dominates : f.Dominates f.entry b := by
  intro h
  rcases Relation.ReflTransGen.cases_head h with e | ⟨x, ⟨hne, -⟩, -⟩
  · exact e.symm
  · exact absurd rfl hne

end Func

namespace Cfg

variable {f : Func}

theorem getElem?_predPositions {g : Cfg} {b : BlockId} {k : Nat} (h : g.rpo[k]? = some b) :
    g.predPositions[k]? = some ((g.preds b).filterMap g.rpoIndex?) := by
  rw [predPositions, List.getElem?_map, h]
  rfl

/-- The predecessors of the block at a position. -/
theorem mem_predPositions (hf : f.Closed) {b : BlockId} {i k : Nat}
    (hb : (ofFunc f).rpoIndex? b = some k) :
    i ∈ (ofFunc f).predPositions[k]?.getD [] ↔
      ∃ p, (ofFunc f).rpoIndex? p = some i ∧ b ∈ (f.term p).targets := by
  rw [getElem?_predPositions (getElem?_of_rpoIndex? hb), Option.getD_some, List.mem_filterMap]
  constructor
  · rintro ⟨p, hp, hi⟩
    exact ⟨p, hi, ((mem_preds hf).mp hp).2⟩
  · rintro ⟨p, hi, hp⟩
    have hreach := (mem_rpo hf).mp (List.mem_of_getElem? (getElem?_of_rpoIndex? hi))
    exact ⟨p, (mem_preds hf).mpr ⟨hreach, hp⟩, hi⟩

/-- The reverse post-order numbers the reachable blocks as the iteration needs it. -/
theorem numbered_predPositions (hf : f.Closed) : Idom.Numbered (ofFunc f).predPositions where
  lt v p hp := by
    rw [predPositions, List.getElem?_map] at hp
    cases hv : (ofFunc f).rpo[v]? with
    | none => simp [hv] at hp
    | some b =>
      rw [hv] at hp
      obtain ⟨q, -, hq⟩ := List.mem_filterMap.mp hp
      rw [predPositions, List.length_map]
      exact (List.getElem?_eq_some_iff.mp (getElem?_of_rpoIndex? hq)).1
  earlier v h0 hv := by
    rw [predPositions, List.length_map] at hv
    have hb := rpoIndex?_of_getElem? hf (List.getElem?_eq_getElem hv)
    rcases DomTree.root_or_exists_earlier (Func.nodup_reversePostOrder hf)
      (fun _ _ _ e => Func.reversePostOrder_grown hf e) hb with he | ⟨p, i, hi, hiv, hp⟩
    · rw [he, rpoIndex?_entry hf] at hb
      cases hb
      omega
    · exact ⟨i, (mem_predPositions hf hb).mpr ⟨p, hi, hp⟩, hiv⟩

theorem length_predPositions_pos (hf : f.Closed) : 0 < (ofFunc f).predPositions.length := by
  rw [predPositions, List.length_map]
  exact List.length_pos_of_mem ((mem_rpo hf).mpr f.reachable_entry)

/-- A path between positions is one between blocks. -/
theorem path_blocks (hf : f.Closed) {a b : BlockId} {j k : Nat}
    (ha : (ofFunc f).rpoIndex? a = some j) (hb : (ofFunc f).rpoIndex? b = some k)
    (h : Relation.ReflTransGen (fun u w => u ≠ j ∧ u ∈ (ofFunc f).predPositions[w]?.getD [] ∧
      w < (ofFunc f).predPositions.length) 0 k) : f.Path (· ≠ a) f.entry b := by
  induction h generalizing b with
  | refl =>
    have := DomTree.number?_inj (t := (ofFunc f).dominators) hb (rpoIndex?_entry hf)
    exact this ▸ .refl _
  | @tail u w _ e ih =>
    obtain ⟨hne, hu, -⟩ := e
    obtain ⟨p, hp, hpb⟩ := (mem_predPositions hf hb).mp hu
    refine (ih hp).tail ?_ hpb
    rintro rfl
    rw [ha] at hp
    cases hp
    exact hne rfl

/-- What dominates a position is what dominates the block there. -/
theorem dominates_positions_iff (hf : f.Closed) {a b : BlockId} {j k : Nat}
    (ha : (ofFunc f).rpoIndex? a = some j) (hb : (ofFunc f).rpoIndex? b = some k) :
    Idom.Dominates (ofFunc f).predPositions j k ↔ f.Dominates a b := by
  constructor
  · intro h hpath
    obtain rfl := h (path_positions hf ha hb hpath)
    exact DomTree.number?_inj (t := (ofFunc f).dominators) hb ha
  · intro h hpath
    obtain rfl := h (path_blocks hf ha hb hpath)
    rw [ha] at hb
    exact (Option.some.inj hb).symm

/-- The dominator tree of a function reads its parents off the immediate dominators of the
positions. -/
theorem reads_dominators (hf : f.Closed) :
    ∃ idoms, Idom.compute? (ofFunc f).predPositions = some idoms ∧
      (ofFunc f).dominators.Reads idoms 0 := by
  have hn : (ofFunc f).rpo.Nodup := Func.nodup_reversePostOrder hf
  obtain ⟨idoms, hc, hs, -⟩ :=
    Idom.exists_compute? (numbered_predPositions hf) (length_predPositions_pos hf)
  refine ⟨idoms, hc, hs.toRooted, fun b p => ?_⟩
  have hcompute : Idom.compute (ofFunc f).predPositions = idoms := by
    unfold Idom.compute
    rw [hc, Option.getD_some]
  have hparent : (ofFunc f).dominators.parent? b = some p ↔ ∃ k, (ofFunc f).rpo.idxOf? b = some k ∧
      ∃ m, idoms[k]?.join = some m ∧ m ≠ k ∧ (ofFunc f).rpo[m]? = some p := by
    rw [← hcompute]
    unfold dominators
    rw [DomTree.parent?_ofParents hn, Option.bind_eq_some_iff]
    refine exists_congr fun k => and_congr_right fun _ => ⟨fun h => ?_, ?_⟩
    · split at h
      · rename_i m hm
        split at h
        · cases h
        · rename_i hmk
          exact ⟨m, hm, hmk, h⟩
      · cases h
    · rintro ⟨m, hm, hmk, hp⟩
      split
      · rename_i m' hm'
        obtain rfl : m = m' := Option.some.inj (hm.symm.trans hm')
        rwa [if_neg hmk]
      · rename_i hnone
        exact absurd (hm.symm.trans hnone) (Option.some_ne_none m)
  rw [hparent]
  constructor
  · rintro ⟨k, hk, m, hm, hmk, hp⟩
    exact ⟨k, m, hk, rpoIndex?_of_getElem? hf hp, hmk, hm⟩
  · rintro ⟨k, m, hk, hm, hmk, hcand⟩
    exact ⟨k, hk, m, hcand, hmk, getElem?_of_rpoIndex? (g := ofFunc f) hm⟩

theorem mem_order_dominators (hf : f.Closed) {b : BlockId} :
    b ∈ (ofFunc f).dominators.order ↔ f.Reachable b :=
  mem_rpo hf

theorem dominates_dominators_iff (hf : f.Closed) {a b : BlockId} :
    (ofFunc f).dominators.dominates a b = true ↔
      (f.Reachable a ∧ f.Reachable b) ∧ f.Dominates a b := by
  obtain ⟨idoms, hc, hr⟩ := reads_dominators hf
  rw [← mem_order_dominators hf, ← mem_order_dominators hf]
  refine hr.dominates_iff_of (Func.nodup_reversePostOrder hf) fun {a b j k} ha hb => ?_
  have hk : k < (ofFunc f).predPositions.length := by
    rw [predPositions, List.length_map]
    exact DomTree.number?_lt hb
  calc Idom.Above idoms k j ↔ Idom.Dominates (ofFunc f).predPositions j k :=
        Idom.above_iff_dominates (numbered_predPositions hf) hc hk
    _ ↔ f.Dominates a b := dominates_positions_iff hf ha hb

/-- The dominator tree is exact. It says that `a` dominates `b` if both are reachable and every path
from the entry to `b` passes `a`; only the entry and the unreachable blocks have no parent; and the
parent of a block is the strict dominator of it that every strict dominator of it dominates. -/
theorem dominators_exact (hf : f.Closed) :
    (∀ a b, (ofFunc f).dominators.dominates a b = true ↔
      (f.Reachable a ∧ f.Reachable b) ∧ f.Dominates a b) ∧
    (∀ b, (ofFunc f).dominators.parent? b = none ↔ b = f.entry ∨ ¬ f.Reachable b) ∧
    ∀ b p, (ofFunc f).dominators.parent? b = some p ↔
      f.StrictlyDominates p b ∧ ∀ a, f.StrictlyDominates a b → f.Dominates a p := by
  obtain ⟨idoms, -, hr⟩ := reads_dominators hf
  refine ⟨fun a b => dominates_dominators_iff hf, fun b => ?_, fun b p => ?_⟩
  · rw [hr.parent?_eq_none_iff]
    constructor
    · intro hall
      by_cases hb : f.Reachable b
      · have hentry := (dominates_dominators_iff hf).mpr
          ⟨⟨f.reachable_entry, hb⟩, Func.entry_dominates⟩
        exact .inl (hall f.entry hentry).symm
      · exact .inr hb
    · intro hb a ha
      obtain ⟨⟨-, hreach⟩, hd⟩ := (dominates_dominators_iff hf).mp ha
      rcases hb with rfl | hb
      · exact Func.dominates_entry_iff.mp hd
      · exact absurd hreach hb
  · exact hr.parent?_eq_some_iff_of (dominates_dominators_iff hf) fun hd hb => hd.reachable hb

/-- A loop that is entered at both of its blocks, and a block that nothing leads to. -/
def crossing : Func where
  params := [.bool]
  retTy := .void
  blocks := #[
    { term := .brIf (.param 0) 1 2 },
    { term := .brIf (.param 0) 2 3 },
    { term := .brIf (.param 0) 1 3 },
    { term := .ret none },
    { term := .br 3 }]
  insts := #[]
  layout := [0, 1, 2, 3, 4]

theorem dominators_exact_crossing :
    crossing.Closed ∧ crossing.StrictlyDominates 0 3 ∧
      (∀ a, crossing.StrictlyDominates a 3 → crossing.Dominates a 0) ∧
      ¬ crossing.Dominates 1 3 ∧ ¬ crossing.Reachable 4 := by
  have hf : crossing.Closed := (by decide : crossing.Coherent).toClosed
  obtain ⟨hdom, hnone, hsome⟩ := dominators_exact hf
  have h3 := (hsome 3 0).mp (by decide)
  refine ⟨hf, h3.1, h3.2, fun h => ?_, ?_⟩
  · have h1 : crossing.Reachable 1 := ((hdom 0 1).mp (by decide)).1.2
    have : (ofFunc crossing).dominators.dominates 1 3 = true :=
      (hdom 1 3).mpr ⟨⟨h1, h3.1.2.1⟩, h⟩
    exact absurd this (by decide)
  · rcases (hnone 4).mp (by decide) with h | h
    · exact absurd h (by decide)
    · exact h

end Cfg

end Lockstep
