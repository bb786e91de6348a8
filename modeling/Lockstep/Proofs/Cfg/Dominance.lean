import Lockstep.Proofs.Cfg.LoopSearch
import Lockstep.Proofs.Cfg.Tree

/-!
# Dominance

A candidate list that a pass leaves as it is gives dominators: what is above a node in it lies on every
path from the root to the node. Hence a block that dominates another in the dominator tree lies on
every path from the entry to it, and the parent of a block in the post-dominator tree on every path
from the block to an exit.
-/

namespace Lockstep

namespace Idom

/-- `a` is `v`, or the candidate of `v`, or its candidate, and so on. -/
inductive Above (idoms : Candidates) : Nat → Nat → Prop
  | refl (v : Nat) : Above idoms v v
  | up {v p a : Nat} : idoms[v]?.join = some p → Above idoms p a → Above idoms v a

variable {idoms : Candidates} {preds : List (List Nat)} {a b m v : Nat}

/-- What is above a node is the node, or above its candidate. -/
theorem Above.cases_up (h : Above idoms v a) :
    v = a ∨ ∃ p, idoms[v]?.join = some p ∧ Above idoms p a := by
  cases h with
  | refl => exact .inl rfl
  | up hp h => exact .inr ⟨_, hp, h⟩

theorem Above.trans (h : Above idoms v a) (k : Above idoms a b) : Above idoms v b := by
  induction h with
  | refl => exact k
  | up hp _ ih => exact .up hp (ih k)

/-- The common ancestor of two nodes is above both. -/
theorem above_meet {fuel : Nat} (h : meet idoms fuel a b = some m) :
    Above idoms a m ∧ Above idoms b m := by
  induction fuel generalizing a b with
  | zero => cases h
  | succ fuel ih =>
    unfold meet at h
    split at h
    · rename_i e
      cases h
      exact ⟨.refl _, e ▸ .refl _⟩
    · split at h
      · split at h
        · rename_i hp
          obtain ⟨h1, h2⟩ := ih h
          exact ⟨.up hp h1, h2⟩
        · cases h
      · split at h
        · rename_i hp
          obtain ⟨h1, h2⟩ := ih h
          exact ⟨h1, .up hp h2⟩
        · cases h

/-- The common ancestor of a list is above all of its nodes that have a candidate, and above the node
that the search starts with. -/
theorem above_meetAll {ps : List Nat} {acc : Option Nat} {r : Option Nat}
    (h : meetAll idoms ps acc = some r) :
    (∀ p ∈ ps, (idoms[p]?.join).isSome → ∃ m, r = some m ∧ Above idoms p m) ∧
      ∀ o, acc = some o → ∃ m, r = some m ∧ Above idoms o m := by
  induction ps generalizing acc with
  | nil =>
    cases h
    exact ⟨fun p hp => (by cases hp), fun o ho => ⟨o, ho, .refl o⟩⟩
  | cons p ps ih =>
    unfold meetAll at h
    split at h
    · rename_i hnone
      obtain ⟨h1, h2⟩ := ih h
      refine ⟨fun q hq hs => ?_, h2⟩
      rcases List.mem_cons.mp hq with rfl | hq
      · rw [hnone] at hs
        cases hs
      · exact h1 q hq hs
    · split at h
      · obtain ⟨h1, h2⟩ := ih h
        refine ⟨fun q hq hs => ?_, fun o ho => by cases ho⟩
        rcases List.mem_cons.mp hq with rfl | hq
        · exact h2 _ rfl
        · exact h1 q hq hs
      · rename_i other
        split at h
        · rename_i m hm
          obtain ⟨h1, h2⟩ := ih h
          obtain ⟨k1, k2⟩ := above_meet hm
          obtain ⟨n, hn, hmn⟩ := h2 m rfl
          refine ⟨fun q hq hs => ?_, fun o ho => ?_⟩
          · rcases List.mem_cons.mp hq with rfl | hq
            · exact ⟨n, hn, k1.trans hmn⟩
            · exact h1 q hq hs
          · cases ho
            exact ⟨n, hn, k2.trans hmn⟩
        · cases h

/-! ## Fixed points -/

/-- Candidates that no pass changes. -/
structure IsFixed (preds : List (List Nat)) (idoms : Candidates) : Prop where
  size : idoms.size = preds.length
  start : 0 < preds.length → (idoms[0]?.join).isSome
  root : ∀ p, idoms[0]?.join = some p → p = 0
  update : ∀ v, 1 ≤ v → v < preds.length → update preds idoms v = some idoms

theorem update_eq {idoms' : Candidates} (h : update preds idoms v = some idoms') :
    idoms'.size = idoms.size ∧ ∀ w, w ≠ v → idoms'[w]? = idoms[w]? := by
  unfold update at h
  split at h
  · cases h
    refine ⟨Array.size_setIfInBounds, fun w hw => ?_⟩
    rw [Array.getElem?_setIfInBounds, if_neg fun e => hw e.symm]
  · cases h
    exact ⟨rfl, fun _ _ => rfl⟩
  · cases h

/-- Renewing candidates one after the other: those of the other nodes stay. -/
theorem foldlM_update {vs : List Nat} {idoms idoms' : Candidates}
    (h : vs.foldlM (update preds) idoms = some idoms') :
    idoms'.size = idoms.size ∧ ∀ w, w ∉ vs → idoms'[w]? = idoms[w]? := by
  induction vs generalizing idoms with
  | nil =>
    cases h
    exact ⟨rfl, fun _ _ => rfl⟩
  | cons v vs ih =>
    rw [List.foldlM_cons] at h
    obtain ⟨next, hv, h⟩ := Option.bind_eq_some_iff.mp h
    obtain ⟨h1, h2⟩ := update_eq hv
    obtain ⟨h3, h4⟩ := ih h
    refine ⟨h3.trans h1, fun w hw => ?_⟩
    rw [List.mem_cons, not_or] at hw
    rw [h4 w hw.2, h2 w hw.1]

/-- A pass over different nodes that changes nothing in the end changes nothing on the way. -/
theorem update_eq_self {vs : List Nat} (hn : vs.Nodup)
    (h : vs.foldlM (update preds) idoms = some idoms) :
    ∀ v ∈ vs, update preds idoms v = some idoms := by
  induction vs with
  | nil => intro v hv; cases hv
  | cons v vs ih =>
    rw [List.foldlM_cons] at h
    obtain ⟨next, hv, h⟩ := Option.bind_eq_some_iff.mp h
    obtain ⟨hv', hn⟩ := List.nodup_cons.mp hn
    obtain ⟨h1, h2⟩ := update_eq hv
    obtain ⟨-, h4⟩ := foldlM_update h
    have hsame : next = idoms := by
      refine Array.ext_getElem? fun w => ?_
      by_cases hw : w = v
      · rw [hw, h4 v hv']
      · exact h2 w hw
    subst hsame
    intro w hw
    rcases List.mem_cons.mp hw with rfl | hw
    · exact hv
    · exact ih hn h w hw

theorem isFixed_of_fixpoint {fuel : Nat} {idoms' : Candidates}
    (hsize : idoms'.size = preds.length)
    (hstart : 0 < preds.length → (idoms'[0]?.join).isSome) (hroot : ∀ p, idoms'[0]?.join = some p → p = 0)
    (h : fixpoint preds fuel idoms' = some idoms) : IsFixed preds idoms := by
  induction fuel generalizing idoms' with
  | zero => cases h
  | succ fuel ih =>
    unfold fixpoint at h
    split at h
    · cases h
    · rename_i next hpass
      split at h
      · rename_i e
        cases h
        subst e
        refine ⟨hsize, hstart, hroot, fun v h1 h2 => update_eq_self List.nodup_range' hpass v ?_⟩
        rw [List.mem_range'_1]
        omega
      · have h0 := (foldlM_update hpass).2 0 (by rw [List.mem_range'_1]; omega)
        refine ih ((foldlM_update hpass).1.trans hsize) ?_ ?_ h
        · rw [h0]
          exact hstart
        · rw [h0]
          exact hroot

theorem isFixed_compute? (h : compute? preds = some idoms) : IsFixed preds idoms := by
  refine isFixed_of_fixpoint (by simp [initial]) (fun hn => ?_) ?_ h
  · unfold initial
    rw [Array.getElem?_setIfInBounds, if_pos rfl, Array.size_replicate, if_pos hn]
    rfl
  intro p hp
  unfold initial at hp
  rw [Array.getElem?_setIfInBounds] at hp
  split at hp
  · split at hp
    · cases hp
      rfl
    · cases hp
  · rename_i hne
    exact absurd rfl hne

/-- Nothing but the root is above the root. -/
theorem IsFixed.above_root (h : IsFixed preds idoms) (ha : Above idoms v a) (hv : v = 0) :
    a = 0 := by
  induction ha with
  | refl => exact hv
  | up hp _ ih =>
    subst hv
    exact ih (h.root _ hp)

/-- What is above a node lies on every path from the root to it: a path that avoids `a` before its end
ends in `a` if `a` is above its end. -/
theorem IsFixed.eq_of_path (h : IsFixed preds idoms) (h0 : 0 < preds.length)
    (hp : Relation.ReflTransGen
      (fun u w => u ≠ a ∧ u ∈ preds[w]?.getD [] ∧ w < preds.length) 0 v) :
    (idoms[v]?.join).isSome ∧ (Above idoms v a → v = a) := by
  have h0 := h.start h0
  induction hp with
  | refl => exact ⟨h0, fun ha => (h.above_root ha rfl).symm⟩
  | @tail u w _ e ih =>
    obtain ⟨hua, hu, hw⟩ := e
    obtain ⟨hs, hu'⟩ := ih
    rcases Nat.eq_zero_or_pos w with rfl | hpos
    · exact ⟨h0, fun ha => (h.above_root ha rfl).symm⟩
    · have hup := h.update w hpos hw
      unfold Idom.update at hup
      split at hup
      · rename_i m hm
        obtain ⟨m', e, hum⟩ := (above_meetAll hm).1 u hu hs
        cases e
        have hm' : idoms[w]? = some (some m) := by
          rw [← Option.some.inj hup, Array.getElem?_setIfInBounds, if_pos rfl,
            if_pos (by rw [h.size]; exact hw)]
        refine ⟨by rw [hm']; rfl, fun ha => ?_⟩
        rcases ha.cases_up with e | ⟨p, hp, hpa⟩
        · exact e
        · rw [hm'] at hp
          cases hp
          exact absurd (hu' (hum.trans hpa)) hua
      · rename_i hm
        obtain ⟨m', e, -⟩ := (above_meetAll hm).1 u hu hs
        cases e
      · cases hup

end Idom

/-! ## Walks in a tree -/

namespace DomTree

/-- `a` is reached from `b` by going from blocks to their parents. -/
def Above (t : DomTree) : BlockId → BlockId → Prop :=
  Relation.ReflTransGen fun b p => t.parent? b = some p

theorem above_of_walk {t : DomTree} {a b : BlockId} {limit fuel : Nat}
    (h : t.walk a limit fuel b = true) : t.Above b a := by
  induction fuel generalizing b with
  | zero => cases h
  | succ fuel ih =>
    unfold walk at h
    split at h
    · rename_i e
      exact e ▸ Relation.ReflTransGen.refl
    · split at h
      · cases h
      · split at h
        · rename_i p hp
          exact Relation.ReflTransGen.head hp (ih h)
        · cases h

theorem above_of_dominates {t : DomTree} {a b : BlockId} (h : t.dominates a b = true) :
    t.Above b a := by
  unfold dominates at h
  split at h
  · exact above_of_walk h
  · cases h

end DomTree

namespace Func

/-- Control goes from `a` to `b` through blocks that satisfy `P`; `b` need not. -/
abbrev Path (f : Func) (P : BlockId → Prop) : BlockId → BlockId → Prop :=
  PathIn (fun b => (f.term b).targets) P

/-- Every path from the entry to `b` passes `a`. -/
def Dominates (f : Func) (a b : BlockId) : Prop := f.Path (· ≠ a) f.entry b → b = a

variable {f : Func} {a b c : BlockId}

/-- Reachable blocks are those at the end of a path. -/
theorem Reachable.path (h : f.Reachable b) : f.Path (fun _ => True) f.entry b :=
  Relation.ReflTransGen.mono (fun _ _ e => ⟨trivial, e⟩) _ _ h

/-- A path passes `a` or avoids it. -/
theorem reaches_or_path {u v : BlockId} (h : f.Reaches u v) (a : BlockId) :
    (f.Reaches u a ∧ f.Reaches a v) ∨ f.Path (· ≠ a) u v := by
  induction h using Relation.ReflTransGen.head_induction_on with
  | refl => exact .inr (.refl _)
  | @head u w hw hv ih =>
    by_cases hua : u = a
    · subst hua
      exact .inl ⟨.refl _, .head hw hv⟩
    · rcases ih with ⟨h1, h2⟩ | hpath
      · exact .inl ⟨.head hw h1, h2⟩
      · exact .inr (.head hua hw hpath)

/-- What dominates a reachable block is reachable. -/
theorem Dominates.reachable (h : f.Dominates a b) (hb : f.Reachable b) : f.Reachable a := by
  rcases reaches_or_path hb a with ⟨ha, -⟩ | hpath
  · exact ha
  · exact h hpath ▸ hb

theorem Dominates.refl (f : Func) (a : BlockId) : f.Dominates a a := fun _ => rfl

theorem Dominates.trans (h : f.Dominates a b) (k : f.Dominates b c) : f.Dominates a c := by
  intro hp
  rcases hp.avoid_or_last (· = b) with h1 | ⟨x, y, hx, -, rfl, -, -⟩
  · obtain rfl := k (h1.mono fun _ h => h.2)
    exact h hp
  · obtain rfl := h hx
    exact k hp

/-- Reachable blocks that dominate each other are one. -/
theorem Dominates.antisymm (hb : f.Reachable b) (h : f.Dominates a b) (k : f.Dominates b a) :
    a = b := by
  obtain ⟨c, hc, hp⟩ := hb.path.exists_first (fun x => x = a ∨ x = b) (.inr rfl)
  rcases hc with rfl | rfl
  · exact k (hp.mono fun x hx e => hx.2 (.inr e))
  · exact (h (hp.mono fun x hx e => hx.2 (.inl e))).symm

/-- What dominates a block dominates its predecessors, or is the block. -/
theorem Dominates.pred (h : f.Dominates a c) (hc : c ≠ a) (hbc : c ∈ (f.term b).targets) :
    f.Dominates a b := by
  intro hp
  by_contra hb
  exact hc (h (hp.tail hb hbc))

end Func

namespace Cfg

variable {f : Func}

/-- The positions of the predecessors of each block. -/
def predPositions (g : Cfg) : List (List Nat) :=
  g.rpo.map fun b => (g.preds b).filterMap g.rpoIndex?

theorem reachable_of_path {P : BlockId → Prop} {b : BlockId} (h : f.Path P f.entry b) :
    f.Reachable b :=
  h.induct f.reachable_entry fun _ _ _ hx hy => hx.step hy

/-- The position of a reachable block. -/
theorem exists_rpoIndex? (hf : f.Closed) {b : BlockId} (h : f.Reachable b) :
    ∃ k, (ofFunc f).rpoIndex? b = some k := by
  cases hk : (ofFunc f).rpoIndex? b with
  | none => exact absurd ((mem_rpo hf).mpr h) (List.idxOf?_eq_none_iff.mp hk)
  | some k => exact ⟨k, rfl⟩

theorem getElem?_of_rpoIndex? {g : Cfg} {b : BlockId} {k : Nat} (h : g.rpoIndex? b = some k) :
    g.rpo[k]? = some b := by
  obtain ⟨hlt, e, -⟩ := List.idxOf?_eq_some_iff.mp h
  rw [List.getElem?_eq_getElem hlt, e]

theorem rpoIndex?_of_getElem? (hf : f.Closed) {b : BlockId} {k : Nat}
    (h : (ofFunc f).rpo[k]? = some b) : (ofFunc f).rpoIndex? b = some k := by
  obtain ⟨hlt, e⟩ := List.getElem?_eq_some_iff.mp h
  refine List.idxOf?_eq_some_iff.mpr ⟨hlt, e, fun j hj e' => ?_⟩
  have hn : (ofFunc f).rpo.Nodup := Func.nodup_reversePostOrder hf
  have := hn.getElem_inj_iff.mp (e'.trans e.symm)
  omega

theorem rpoIndex?_entry (hf : f.Closed) : (ofFunc f).rpoIndex? f.entry = some 0 := by
  obtain ⟨rest, hr⟩ := Func.reversePostOrder_eq_cons hf
  show (ofFunc f).rpo.idxOf? f.entry = some 0
  rw [show (ofFunc f).rpo = f.entry :: rest from hr, List.idxOf?_cons, beq_self_eq_true]
  rfl

/-- A path between blocks is one between their positions. -/
theorem path_positions (hf : f.Closed) {a b : BlockId} {j k : Nat}
    (ha : (ofFunc f).rpoIndex? a = some j) (hb : (ofFunc f).rpoIndex? b = some k)
    (h : f.Path (· ≠ a) f.entry b) :
    Relation.ReflTransGen (fun u w => u ≠ j ∧ u ∈ (ofFunc f).predPositions[w]?.getD [] ∧
      w < (ofFunc f).predPositions.length) 0 k := by
  induction h generalizing k with
  | refl =>
    rw [rpoIndex?_entry hf] at hb
    cases hb
    exact Relation.ReflTransGen.refl
  | @tail x y hx e ih =>
    obtain ⟨hne, hy⟩ := e
    have hreach := reachable_of_path hx
    obtain ⟨i, hi⟩ := exists_rpoIndex? hf hreach
    have hk := getElem?_of_rpoIndex? hb
    refine Relation.ReflTransGen.tail (ih hi) ⟨?_, ?_, ?_⟩
    · rintro rfl
      have h1 := getElem?_of_rpoIndex? hi
      rw [getElem?_of_rpoIndex? ha] at h1
      exact hne (Option.some.inj h1).symm
    · rw [predPositions, List.getElem?_map, hk]
      exact List.mem_filterMap.mpr ⟨x, (mem_preds hf).mpr ⟨hreach, hy⟩, hi⟩
    · rw [predPositions, List.length_map]
      exact (List.getElem?_eq_some_iff.mp hk).1

/-- Going up in the dominator tree is going up between positions. -/
theorem above_positions (hf : f.Closed) {a b : BlockId} {k : Nat}
    (hb : (ofFunc f).rpoIndex? b = some k) (h : (ofFunc f).dominators.Above b a) :
    ∃ j, (ofFunc f).rpoIndex? a = some j ∧
      Idom.Above (Idom.compute (ofFunc f).predPositions) k j := by
  induction h with
  | refl => exact ⟨k, hb, .refl k⟩
  | @tail x p _ e ih =>
    obtain ⟨i, hi, hki⟩ := ih
    have hn : (ofFunc f).rpo.Nodup := Func.nodup_reversePostOrder hf
    rw [dominators, DomTree.parent?_ofParents hn] at e
    obtain ⟨i', hi', hp⟩ := Option.bind_eq_some_iff.mp e
    have : i' = i := by
      have h1 : (ofFunc f).rpoIndex? x = some i' := hi'
      rw [hi] at h1
      exact (Option.some.inj h1).symm
    subst this
    split at hp
    · rename_i m hm
      split at hp
      · cases hp
      · exact ⟨m, rpoIndex?_of_getElem? hf hp, hki.trans (.up hm (.refl m))⟩
    · cases hp

/-- A block that dominates another in the tree lies on every path from the entry to it. -/
theorem dominates_of_dominators (hf : f.Closed) {a b : BlockId}
    (h : (Analyses.ofFunc f).dom.dominates a b = true) : f.Dominates a b := by
  intro hp
  have habove : (ofFunc f).dominators.Above b a := DomTree.above_of_dominates h
  obtain ⟨k, hk⟩ := exists_rpoIndex? hf (reachable_of_path hp)
  obtain ⟨j, hj, hkj⟩ := above_positions hf hk habove
  unfold Idom.compute at hkj
  cases hc : Idom.compute? (ofFunc f).predPositions with
  | none =>
    rw [hc] at hkj
    rcases hkj.cases_up with rfl | ⟨p, hp, -⟩
    · have h1 := getElem?_of_rpoIndex? hk
      rw [getElem?_of_rpoIndex? hj] at h1
      exact (Option.some.inj h1).symm
    · simp at hp
  | some idoms =>
    rw [hc] at hkj
    have hfixed := Idom.isFixed_compute? hc
    have hpos : 0 < (ofFunc f).predPositions.length := by
      rw [predPositions, List.length_map]
      exact List.length_pos_of_mem ((mem_rpo hf).mpr f.reachable_entry)
    have := (hfixed.eq_of_path hpos (path_positions hf hj hk hp)).2 hkj
    subst this
    have h1 := getElem?_of_rpoIndex? hk
    rw [getElem?_of_rpoIndex? hj] at h1
    exact (Option.some.inj h1).symm

end Cfg

end Lockstep
