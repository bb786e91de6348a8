import Lockstep.Proofs.Cfg.DominatorTree

/-!
# The iteration for immediate dominators succeeds

Between two turns the candidates are those of a pass under way (`Reaches.midway`): a tree in which
whoever is a candidate has one. A walk to a common ancestor that starts at two nodes with candidates
therefore stays among such nodes, and every node that it steps up from has a candidate. A pass that
changes something lowers the sum of the candidates, which is at most the square of the number of
nodes before the first pass, so that no more passes than that are needed; a larger bound does not
change what comes out (`fixpoint_mono`).
-/

namespace Lockstep

namespace Idom

variable {preds : List (List Nat)} {t t' : Candidates} {a b v x y : Nat}

/-- The pairs of nodes that the walk from `a` and `b` to their common ancestor goes through: it steps
up from the larger number of a pair. -/
inductive Walk (idoms : Candidates) (a b : Nat) : Nat → Nat → Prop
  | start : Walk idoms a b a b
  | left {x y p : Nat} : Walk idoms a b x y → y < x → idoms[x]?.join = some p → Walk idoms a b p y
  | right {x y p : Nat} : Walk idoms a b x y → x < y → idoms[y]?.join = some p → Walk idoms a b x p

/-- The candidates that the iteration goes through, with the node that is next to have its turn. -/
inductive Reaches (preds : List (List Nat)) : Nat → Candidates → Prop
  | start : Reaches preds 1 (initial preds.length)
  | turn {v : Nat} {t t' : Candidates} : Reaches preds v t → v < preds.length →
      update preds t v = some t' → Reaches preds (v + 1) t'
  | again {t : Candidates} : Reaches preds preds.length t → Reaches preds 1 t

/-! ## Walks -/

theorem Walk.known (ht : Rooted t) (h : Walk t a b x y) (ha : (t[a]?.join).isSome)
    (hb : (t[b]?.join).isSome) : (t[x]?.join).isSome ∧ (t[y]?.join).isSome := by
  induction h with
  | start => exact ⟨ha, hb⟩
  | left _ _ hp ih => exact ⟨ht.known _ _ hp, ih.2⟩
  | right _ _ hp ih => exact ⟨ih.1, ht.known _ _ hp⟩

/-- The node that a walk steps up from has a candidate. -/
theorem Walk.known_max (ht : Rooted t) (h : Walk t a b x y) (ha : (t[a]?.join).isSome)
    (hb : (t[b]?.join).isSome) : (t[max x y]?.join).isSome := by
  obtain ⟨hx, hy⟩ := h.known ht ha hb
  rcases Nat.le_total x y with hle | hle
  · rwa [Nat.max_eq_right hle]
  · rwa [Nat.max_eq_left hle]

/-! ## What the iteration goes through -/

theorem Reaches.size_eq (h : Reaches preds v t) : t.size = preds.length := by
  induction h with
  | start => simp [initial]
  | turn _ _ hu ih => exact (update_eq hu).1.trans ih
  | again _ ih => exact ih

/-- Between two turns a pass is under way. -/
theorem Reaches.midway (hn : Numbered preds) (hpos : 0 < preds.length) (h : Reaches preds v t) :
    0 < v ∧ ∃ start, Settled preds start ∧ Midway preds start v t := by
  induction h with
  | start =>
    have hs := settled_initial hpos
    exact ⟨Nat.one_pos, _, hs, hs.midway⟩
  | turn _ hv hu ih =>
    obtain ⟨h0, start, hs, hmid⟩ := ih
    obtain ⟨next, hnext, hmid'⟩ := hmid.step hn hs h0 hv
    obtain rfl := Option.some.inj (hu.symm.trans hnext)
    exact ⟨Nat.succ_pos _, start, hs, hmid'⟩
  | again _ ih =>
    obtain ⟨-, start, -, hmid⟩ := ih
    exact ⟨Nat.one_pos, _, hmid.settled, hmid.settled.midway⟩

/-- Only tables with a root have nodes with candidates. -/
theorem Reaches.rooted (hn : Numbered preds) (h : Reaches preds v t)
    (ha : (t[a]?.join).isSome) : Rooted t := by
  have hlt : a < t.size := by
    by_contra hge
    rw [Array.getElem?_eq_none (Nat.le_of_not_lt hge)] at ha
    cases ha
  obtain ⟨-, start, -, hmid⟩ := h.midway hn (by rw [← h.size_eq]; omega)
  exact hmid.toRooted

/-! ## The bound on the passes -/

/-- A larger bound does not change the outcome. -/
theorem fixpoint_mono {fuel fuel' : Nat} (hle : fuel ≤ fuel') (h : fixpoint preds fuel t = some t') :
    fixpoint preds fuel' t = some t' := by
  induction fuel generalizing fuel' t with
  | zero => cases h
  | succ fuel ih =>
    obtain ⟨k, rfl⟩ := Nat.exists_eq_add_one_of_ne_zero (by omega : fuel' ≠ 0)
    unfold fixpoint at h ⊢
    cases hp : pass preds t with
    | none =>
      rw [hp] at h
      cases h
    | some next =>
      rw [hp] at h
      by_cases e : next = t
      · simpa only [if_pos e] using h
      · simp only [if_neg e] at h ⊢
        exact ih (by omega) h

/-- As many passes as the square of the number of nodes are enough, and one that shows that nothing
changes any more. -/
theorem exists_fixpoint_initial (hn : Numbered preds) :
    ∃ t, fixpoint preds (preds.length * preds.length + 1) (initial preds.length) = some t ∧
      t.size = preds.length ∧ (0 < preds.length → Rooted t) ∧
        ∀ v < preds.length, (t[v]?.join).isSome := by
  rcases Nat.eq_zero_or_pos preds.length with h0 | hpos
  · obtain rfl := List.eq_nil_of_length_eq_zero h0
    exact ⟨#[], rfl, rfl, fun h => absurd h (Nat.lt_irrefl 0), fun v hv => absurd hv (Nat.not_lt_zero v)⟩
  · have hs := settled_initial hpos
    have hw := weight_le (t := initial preds.length) preds.length fun v hv => hs.getD_le hv
    obtain ⟨t, ht, hset, hknown⟩ := exists_fixpoint hn hpos hs (Nat.lt_succ_of_le hw)
    exact ⟨t, ht, hset.size, fun _ => hset.toRooted, hknown⟩

/-- The iteration succeeds for every table of predecessors in which each node but the root has one
with a smaller number. Whenever it walks up from two nodes with candidates, the node that it steps up
from has a candidate; a number of passes that depends on the number of nodes only is enough; and in
the result the root is its own candidate, and every other node has one with a smaller number. -/
theorem compute?_total (hn : Numbered preds) :
    (∀ v t, Reaches preds v t → ∀ a b, (t[a]?.join).isSome → (t[b]?.join).isSome →
      ∀ x y, Walk t a b x y → (t[max x y]?.join).isSome) ∧
    ∃ t, compute? preds = some t ∧
      (∀ fuel, preds.length * preds.length < fuel →
        fixpoint preds fuel (initial preds.length) = some t) ∧
      t.size = preds.length ∧ (0 < preds.length → t[0]?.join = some 0) ∧
      ∀ v, 0 < v → v < preds.length → ∃ p < v, t[v]?.join = some p := by
  refine ⟨fun v t h a b ha hb x y hwalk => hwalk.known_max (h.rooted hn ha) ha hb, ?_⟩
  obtain ⟨t, ht, hsize, hrooted, hknown⟩ := exists_fixpoint_initial hn
  refine ⟨t, fixpoint_mono (by omega) ht, fun fuel hf => fixpoint_mono hf ht, hsize,
    fun hpos => (hrooted hpos).root, fun v h0 hv => ?_⟩
  obtain ⟨p, hp⟩ := Option.isSome_iff_exists.mp (hknown v hv)
  exact ⟨p, (hrooted (by omega)).lt v p h0 hp, hp⟩

/-- In the loop that is entered at both of its blocks, one block comes before one of its
predecessors. -/
theorem compute?_total_crossing : Numbered (Cfg.ofFunc Cfg.crossing).predPositions ∧
    (Cfg.ofFunc Cfg.crossing).predPositions = [[], [0, 2], [0, 1], [1, 2]] ∧
      ∃ t, compute? [[], [0, 2], [0, 1], [1, 2]] = some t ∧
        ∀ v, 0 < v → v < 4 → ∃ p < v, t[v]?.join = some p := by
  have hf : Cfg.crossing.Closed := (by decide : Cfg.crossing.Coherent).toClosed
  have hn := Cfg.numbered_predPositions hf
  have e : (Cfg.ofFunc Cfg.crossing).predPositions = [[], [0, 2], [0, 1], [1, 2]] := by decide
  obtain ⟨-, t, ht, -, -, -, hlt⟩ := compute?_total hn
  rw [e] at ht hlt
  exact ⟨hn, e, t, ht, hlt⟩

end Idom

end Lockstep
