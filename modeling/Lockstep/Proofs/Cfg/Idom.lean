import Lockstep.Proofs.Cfg.Dominance
import Mathlib.Algebra.Order.BigOperators.Group.Finset

/-!
# The iteration for immediate dominators

Nodes are numbered so that every node but the root has a predecessor with a smaller number. The
candidates of such nodes are a tree in which the numbers fall towards the root, and a pass over all
nodes keeps this (`Settled`). What carries the argument is a comparison of the tree that a pass
starts with and the tree while the pass is under way (`Midway`):

1. the candidate of a node is above its predecessors with smaller numbers, because these are not
   touched any more when the node has had its turn;
2. hence a new candidate is above the old one, so that what is above a node only gets less, and the
   numbers of the candidates fall: the iteration ends (`exists_compute?`);
3. what dominates a node other than itself dominates its candidate, so that dominators stay above.

With what a fixed point is known to satisfy, what is above a node in the result is what dominates it
(`above_iff_dominates`).
-/

namespace Lockstep

namespace Idom

variable {preds : List (List Nat)} {start t t' : Candidates} {a b c m o p s v w x : Nat}

/-- Predecessors are nodes, and every node but the root has one with a smaller number. -/
structure Numbered (preds : List (List Nat)) : Prop where
  lt : ∀ v : Nat, ∀ p ∈ preds[v]?.getD [], p < preds.length
  earlier : ∀ v : Nat, 0 < v → v < preds.length → ∃ p ∈ preds[v]?.getD [], p < v

/-- Every path from the root to `v` passes `a`. -/
def Dominates (preds : List (List Nat)) (a v : Nat) : Prop :=
  Relation.ReflTransGen (fun u w => u ≠ a ∧ u ∈ preds[w]?.getD [] ∧ w < preds.length) 0 v → v = a

/-- What dominates a node other than itself dominates its predecessors. -/
theorem Dominates.pred (h : Dominates preds a v) (hne : v ≠ a) (hp : p ∈ preds[v]?.getD [])
    (hv : v < preds.length) : Dominates preds a p := by
  intro hpath
  by_contra hpa
  exact hne (h (hpath.tail ⟨hpa, hp, hv⟩))

theorem Dominates.root (h : Dominates preds a 0) : a = 0 := (h .refl).symm

/-! ## Trees in which the numbers fall -/

/-- Candidates have smaller numbers than their nodes, and candidates themselves. -/
structure Rooted (t : Candidates) : Prop where
  root : t[0]?.join = some 0
  lt : ∀ v p : Nat, 0 < v → t[v]?.join = some p → p < v
  known : ∀ v p : Nat, t[v]?.join = some p → (t[p]?.join).isSome

theorem Rooted.le (ht : Rooted t) (hp : t[v]?.join = some p) : p ≤ v := by
  rcases Nat.eq_zero_or_pos v with rfl | hv
  · rw [ht.root] at hp
    simp_all
  · exact Nat.le_of_lt (ht.lt v p hv hp)

theorem Above.le (ht : Rooted t) (h : Above t v c) : c ≤ v := by
  induction h with
  | refl => exact Nat.le_refl _
  | up hp _ ih => exact Nat.le_trans ih (ht.le hp)

theorem Above.isSome (ht : Rooted t) (h : Above t v c) (hv : (t[v]?.join).isSome) :
    (t[c]?.join).isSome := by
  induction h with
  | refl => exact hv
  | up hp _ ih => exact ih (ht.known _ _ hp)

/-- Nothing but the root is above the root. -/
theorem Above.eq_zero (ht : Rooted t) (h : Above t 0 c) : c = 0 :=
  Nat.le_zero.mp (h.le ht)

/-- What is above a node depends on the candidates up to the node only. -/
theorem Above.congr (ht : Rooted t) (hsame : ∀ w ≤ x, t'[w]?.join = t[w]?.join) :
    Above t' x c ↔ Above t x c := by
  constructor
  · intro h
    induction h with
    | refl => exact .refl _
    | @up v p a hp h ih =>
      rw [hsame v (Nat.le_refl v)] at hp
      exact .up hp (ih fun w hw => hsame w (Nat.le_trans hw (ht.le hp)))
  · intro h
    induction h with
    | refl => exact .refl _
    | @up v p a hp h ih =>
      have hp' := hp
      rw [← hsame v (Nat.le_refl v)] at hp'
      exact .up hp' (ih fun w hw => hsame w (Nat.le_trans hw (ht.le hp)))

/-! ## Nearest common ancestors -/

/-- Two nodes have a common ancestor, and what is above both is above it. -/
theorem exists_meet (ht : Rooted t) {fuel : Nat} (ha : (t[a]?.join).isSome)
    (hb : (t[b]?.join).isSome) (hf : a + b < fuel) :
    ∃ m, meet t fuel a b = some m ∧ ∀ c, Above t a c → Above t b c → Above t m c := by
  induction fuel generalizing a b with
  | zero => omega
  | succ fuel ih =>
    obtain ⟨p, hp⟩ := Option.isSome_iff_exists.mp ha
    obtain ⟨q, hq⟩ := Option.isSome_iff_exists.mp hb
    unfold meet
    by_cases hab : a = b
    · rw [if_pos hab]
      exact ⟨a, rfl, fun c h _ => h⟩
    rw [if_neg hab]
    by_cases hlt : b < a
    · have hpa := ht.lt a p (by omega) hp
      obtain ⟨m, hm, hc⟩ := ih (ht.known a p hp) hb (by omega)
      refine ⟨m, by rw [if_pos hlt, hp]; exact hm, fun c h1 h2 => hc c ?_ h2⟩
      -- what is above both is no later than `b`, so it is not `a`
      rcases h1.cases_up with rfl | ⟨p', hp', h1⟩
      · have := h2.le ht
        omega
      · rw [hp] at hp'
        cases hp'
        exact h1
    · have hqb := ht.lt b q (by omega) hq
      obtain ⟨m, hm, hc⟩ := ih ha (ht.known b q hq) (by omega)
      refine ⟨m, by rw [if_neg hlt, hq]; exact hm, fun c h1 h2 => hc c h1 ?_⟩
      rcases h2.cases_up with rfl | ⟨q', hq', h2⟩
      · have := h1.le ht
        omega
      · rw [hq] at hq'
        cases hq'
        exact h2

/-- `c` is above all predecessors of `v` that have a candidate. -/
def Common (preds : List (List Nat)) (t : Candidates) (v c : Nat) : Prop :=
  ∀ p ∈ preds[v]?.getD [], (t[p]?.join).isSome → Above t p c

/-- What is above all nodes of a list that have a candidate is above their common ancestor. -/
theorem exists_meetAll (ht : Rooted t) {ps : List Nat} {acc : Option Nat}
    (hacc : ∀ o ∈ acc, (t[o]?.join).isSome) :
    ∃ r, meetAll t ps acc = some r ∧ ∀ m ∈ r, ∀ c,
      (∀ p ∈ ps, (t[p]?.join).isSome → Above t p c) → (∀ o ∈ acc, Above t o c) → Above t m c := by
  induction ps generalizing acc with
  | nil => exact ⟨acc, rfl, fun m hm c _ h => h m hm⟩
  | cons p ps ih =>
    unfold meetAll
    cases hp : t[p]?.join with
    | none =>
      obtain ⟨r, hr, hc⟩ := ih hacc
      exact ⟨r, hr, fun m hm c h => hc m hm c fun q hq => h q (List.mem_cons_of_mem _ hq)⟩
    | some k =>
      have hsome : (t[p]?.join).isSome := by simp [hp]
      cases acc with
      | none =>
        have hp' : ∀ o ∈ some p, (t[o]?.join).isSome := by
          rintro _ ⟨⟩
          exact hsome
        obtain ⟨r, hr, hc⟩ := ih hp'
        refine ⟨r, hr, fun m hm c h _ => hc m hm c ?_ ?_⟩
        · exact fun q hq => h q (List.mem_cons_of_mem _ hq)
        · simpa using h p List.mem_cons_self hsome
      | some o =>
        have ho := hacc o rfl
        obtain ⟨n, hn, hcn⟩ := exists_meet ht hsome ho (Nat.lt_succ_self (p + o))
        have hpn := (above_meet hn).1
        have hn' : ∀ o ∈ some n, (t[o]?.join).isSome := by
          rintro _ ⟨⟩
          exact hpn.isSome ht hsome
        obtain ⟨r, hr, hc⟩ := ih hn'
        refine ⟨r, by simp only [hn]; exact hr, fun m hm c h1 h2 => hc m hm c ?_ ?_⟩
        · exact fun q hq => h1 q (List.mem_cons_of_mem _ hq)
        · simpa using hcn c (h1 p List.mem_cons_self hsome) (h2 o rfl)

/-- A node gets the nearest common ancestor of its predecessors, if the nodes before it have
candidates. -/
theorem exists_update (hn : Numbered preds) (ht : Rooted t) (h0 : 0 < v) (hv : v < preds.length)
    (hknown : ∀ w < v, (t[w]?.join).isSome) :
    ∃ m < v, update preds t v = some (t.setIfInBounds v (some m)) ∧ (t[m]?.join).isSome ∧
      Common preds t v m ∧ ∀ c, Common preds t v c → Above t m c := by
  have hnone : ∀ o ∈ (none : Option Nat), (t[o]?.join).isSome := by simp
  obtain ⟨r, hr, hc⟩ : ∃ r, meetAll t (preds[v]?.getD []) none = some r ∧ ∀ m ∈ r, ∀ c, _ :=
    exists_meetAll ht hnone
  obtain ⟨q, hq, hqv⟩ := hn.earlier v h0 hv
  obtain ⟨m, rfl, hqm⟩ := (above_meetAll hr).1 q hq (hknown q hqv)
  have hcommon : Common preds t v m := by
    intro p hp hs
    obtain ⟨m', e, h⟩ := (above_meetAll hr).1 p hp hs
    cases e
    exact h
  refine ⟨m, Nat.lt_of_le_of_lt (hqm.le ht) hqv, ?_, hqm.isSome ht (hknown q hqv), hcommon,
    fun c h => hc m rfl c h (by simp)⟩
  unfold update
  rw [hr]

/-- A candidate that is renewed. -/
theorem candidate_set (hv : v < t.size) (m w : Nat) :
    (t.setIfInBounds v (some m))[w]?.join = if w = v then some m else t[w]?.join := by
  rw [Array.getElem?_setIfInBounds]
  by_cases h : v = w
  · subst h
    simp [hv]
  · rw [if_neg h, if_neg fun e => h e.symm]

/-! ## Dominators stay above -/

/-- What dominates a node other than itself dominates its candidate. -/
def KeepsDominators (preds : List (List Nat)) (t : Candidates) : Prop :=
  ∀ x o : Nat, 0 < x → t[x]?.join = some o → ∀ a, a ≠ x → Dominates preds a x → Dominates preds a o

/-- The dominators of a node with a candidate are above it. -/
theorem above_of_dominates (ht : Rooted t) (hd : KeepsDominators preds t)
    (hx : (t[x]?.join).isSome) (h : Dominates preds a x) : Above t x a := by
  induction x using Nat.strong_induction_on with
  | _ x ih =>
    by_cases hxa : x = a
    · exact hxa ▸ .refl x
    rcases Nat.eq_zero_or_pos x with rfl | h0
    · exact absurd h.root.symm hxa
    · obtain ⟨o, ho⟩ := Option.isSome_iff_exists.mp hx
      have hoa := hd x o h0 ho a (Ne.symm hxa) h
      exact .up ho (ih o (ht.lt x o h0 ho) (ht.known x o ho) hoa)

/-- On the way up to a node that is no earlier than `a`, nothing that `a` dominates is left. -/
theorem dominates_of_above (ht : Rooted t) (hd : KeepsDominators preds t) (h : Above t x m)
    (ham : a ≤ m) (hx : Dominates preds a x) : Dominates preds a m := by
  induction h with
  | refl => exact hx
  | @up v p m hp h ih =>
    rcases Nat.eq_zero_or_pos v with rfl | h0
    · rw [ht.root] at hp
      cases hp
      exact ih ham hx
    · have hmp := h.le ht
      have hpv := ht.lt v p h0 hp
      exact ih ham (hd v p h0 hp a (by omega) hx)

/-! ## A pass -/

/-- What holds of the candidates before and after each pass. -/
structure Settled (preds : List (List Nat)) (t : Candidates) : Prop extends Rooted t where
  size : t.size = preds.length
  near : ∀ x o : Nat, 0 < x → t[x]?.join = some o → ∀ s ∈ preds[x]?.getD [], s < x → Above t s o
  bounded : ∀ x o : Nat, 0 < x → t[x]?.join = some o → ∀ c, Common preds t x c → c ≤ o
  dominators : KeepsDominators preds t

/-- What holds of the candidates `t` in a pass that began with `start`, when the nodes before `v`
have had their turn. -/
structure Midway (preds : List (List Nat)) (start : Candidates) (v : Nat) (t : Candidates) : Prop
    extends Rooted t where
  size : t.size = preds.length
  later : ∀ w : Nat, v ≤ w → t[w]?.join = start[w]?.join
  before : ∀ w < v, (t[w]?.join).isSome
  near : ∀ x o : Nat, 0 < x → x < v → t[x]?.join = some o → ∀ s ∈ preds[x]?.getD [], s < x → Above t s o
  lower : ∀ x o m : Nat, 0 < x → x < v → start[x]?.join = some o → t[x]?.join = some m → Above t o m
  bounded : ∀ x o : Nat, 0 < x → t[x]?.join = some o → ∀ c, Common preds t x c → c ≤ o
  dominators : KeepsDominators preds t

theorem Settled.midway (h : Settled preds start) : Midway preds start 1 start :=
  { h with
    later := fun _ _ => rfl
    before := fun w hw => by
      obtain rfl : w = 0 := by omega
      simp [h.root]
    near := fun x o h0 hx => by omega
    lower := fun x o m h0 hx => by omega }

/-- What was above a node before the pass and is no earlier than what is above it now has the latter
above itself. -/
theorem Midway.above_of_above_start (h : Midway preds start v t) (hs : Rooted start)
    (hsv : s < v) (ho : Above start s o) (hm : Above t s m) (hmo : m ≤ o) : Above t o m := by
  induction s using Nat.strong_induction_on with
  | _ s ih =>
    rcases ho.cases_up with rfl | ⟨r, hr, ho⟩
    · exact hm
    rcases Nat.eq_zero_or_pos s with rfl | h0
    · rw [hs.root] at hr
      cases hr
      exact ho.eq_zero hs ▸ hm
    have hrs := hs.lt s r h0 hr
    have hor := ho.le hs
    rcases hm.cases_up with rfl | ⟨p, hp, hm⟩
    · omega
    · exact ih r hrs (by omega) ho ((h.lower s r p h0 hsv hr hp).trans hm)

/-- The new candidate of a node is above the old one. -/
theorem Midway.above_candidate (hn : Numbered preds) (hs : Settled preds start)
    (h : Midway preds start v t) (h0 : 0 < v) (hv : v < preds.length) (hm : Common preds t v m)
    (ho : t[v]?.join = some o) : Above t o m := by
  obtain ⟨s, hsp, hsv⟩ := hn.earlier v h0 hv
  have hso : Above start s o := hs.near v o h0 (by rw [← h.later v (Nat.le_refl v)]; exact ho) s hsp hsv
  have hsm : Above t s m := hm s hsp (h.before s hsv)
  exact h.above_of_above_start hs.toRooted hsv hso hsm (h.bounded v o h0 ho m hm)

section Step

variable (h : Midway preds start v t) (hv : v < preds.length)

include h hv

theorem Midway.candidate (m w : Nat) :
    (t.setIfInBounds v (some m))[w]?.join = if w = v then some m else t[w]?.join :=
  candidate_set (h.size.symm ▸ hv) m w

/-- What is above a node before `v` does not depend on the candidate of `v`. -/
theorem Midway.above_before (hx : x < v) :
    Above (t.setIfInBounds v (some m)) x c ↔ Above t x c :=
  Above.congr h.toRooted fun w hw => by
    rw [h.candidate hv, if_neg (by omega)]

theorem Midway.rooted_set (h0 : 0 < v) (hmv : m < v) :
    Rooted (t.setIfInBounds v (some m)) where
  root := by
    rw [h.candidate hv, if_neg (by omega)]
    exact h.root
  lt x p hx hp := by
    rw [h.candidate hv] at hp
    split at hp
    · cases hp
      omega
    · exact h.lt x p hx hp
  known x p hp := by
    rw [h.candidate hv] at hp ⊢
    split at hp
    · cases hp
      rw [if_neg (by omega)]
      exact h.before _ hmv
    · split
      · rfl
      · exact h.known x p hp

/-- What is above a node only gets less. -/
theorem Midway.above_of_above_set (hold : ∀ o, t[v]?.join = some o → Above t o m)
    (hy : Above (t.setIfInBounds v (some m)) x c) (hx : (t[x]?.join).isSome) : Above t x c := by
  induction hy with
  | refl => exact .refl _
  | @up y p c hp hy ih =>
    rw [h.candidate hv] at hp
    split at hp
    · cases hp
      subst y
      obtain ⟨o, ho⟩ := Option.isSome_iff_exists.mp hx
      have hom := hold o ho
      exact .up ho (hom.trans (ih (hom.isSome h.toRooted (h.known v o ho))))
    · exact .up hp (ih (h.known y p hp))

theorem Midway.common_of_common_set (hold : ∀ o, t[v]?.join = some o → Above t o m)
    (hc : Common preds (t.setIfInBounds v (some m)) x c) : Common preds t x c := by
  intro p hp hs
  refine h.above_of_above_set hv hold (hc p hp ?_) hs
  rw [h.candidate hv]
  split
  · rfl
  · exact hs

end Step

/-- The next node has its turn. -/
theorem Midway.step (hn : Numbered preds) (hs : Settled preds start) (h : Midway preds start v t)
    (h0 : 0 < v) (hv : v < preds.length) :
    ∃ t', update preds t v = some t' ∧ Midway preds start (v + 1) t' := by
  obtain ⟨m, hmv, hup, -, hm, hmax⟩ := exists_update hn h.toRooted h0 hv h.before
  have hold : ∀ o, t[v]?.join = some o → Above t o m :=
    fun o ho => h.above_candidate hn hs h0 hv hm ho
  refine ⟨_, hup, { h.rooted_set hv h0 hmv with
    size := by rw [Array.size_setIfInBounds]; exact h.size
    later := fun w hw => ?_
    before := fun w hw => ?_
    near := fun x o hx hxv ho s hsp hsx => ?_
    lower := fun x o k hx hxv ho hk => ?_
    bounded := fun x o hx ho c hc => ?_
    dominators := fun x o hx ho a hax hd => ?_ }⟩
  · rw [h.candidate hv, if_neg (by omega)]
    exact h.later w (by omega)
  · rw [h.candidate hv]
    split
    · rfl
    · exact h.before w (by omega)
  · rw [h.candidate hv] at ho
    split at ho
    · cases ho
      subst x
      exact (h.above_before hv hsx).mpr (hm s hsp (h.before s hsx))
    · exact (h.above_before hv (by omega)).mpr (h.near x o hx (by omega) ho s hsp hsx)
  · have hox := hs.lt x o hx ho
    refine (h.above_before hv (by omega)).mpr ?_
    rw [h.candidate hv] at hk
    split at hk
    · cases hk
      subst x
      exact hold o ((h.later v (Nat.le_refl v)).trans ho)
    · exact h.lower x o k hx (by omega) ho hk
  · have hc := h.common_of_common_set hv hold hc
    rw [h.candidate hv] at ho
    split at ho
    · cases ho
      subst x
      exact (hmax c hc).le h.toRooted
    · exact h.bounded x o hx ho c hc
  · rw [h.candidate hv] at ho
    split at ho
    · cases ho
      subst x
      -- `a` dominates the predecessors, so it is above them and hence above the new candidate
      have hpred : ∀ p ∈ preds[v]?.getD [], Dominates preds a p :=
        fun p hp => hd.pred (Ne.symm hax) hp hv
      have hma : Above t m a := hmax a fun p hp hsome =>
        above_of_dominates h.toRooted h.dominators hsome (hpred p hp)
      obtain ⟨s, hsp, hsv⟩ := hn.earlier v h0 hv
      exact dominates_of_above h.toRooted h.dominators (hm s hsp (h.before s hsv))
        (hma.le h.toRooted) (hpred s hsp)
    · exact h.dominators x o hx ho a hax hd

/-- A pass goes through. -/
theorem Settled.exists_pass (hn : Numbered preds) (hpos : 0 < preds.length)
    (hs : Settled preds start) :
    ∃ t, pass preds start = some t ∧ Midway preds start preds.length t := by
  have key : ∀ k v t, Midway preds start v t → 0 < v → v + k = preds.length →
      ∃ t', (List.range' v k).foldlM (update preds) t = some t' ∧
        Midway preds start preds.length t' := by
    intro k
    induction k with
    | zero =>
      intro v t h _ e
      exact ⟨t, rfl, by rw [← e]; exact h⟩
    | succ k ih =>
      intro v t h h0 e
      obtain ⟨t1, h1, hmid⟩ := h.step hn hs h0 (by omega)
      obtain ⟨t2, h2, hend⟩ := ih (v + 1) t1 hmid (by omega) (by omega)
      refine ⟨t2, ?_, hend⟩
      rw [List.range'_succ, List.foldlM_cons, h1]
      exact h2
  exact key (preds.length - 1) 1 start hs.midway Nat.one_pos (by omega)

theorem Midway.settled (h : Midway preds start preds.length t) : Settled preds t :=
  { h with
    near := fun x o h0 ho => by
      have hx : x < preds.length := by
        by_contra hx
        rw [Array.getElem?_eq_none (by rw [h.size]; omega)] at ho
        cases ho
      exact h.near x o h0 hx ho }

/-! ## The end of the iteration -/

/-- The sum of the numbers of the candidates; a missing one counts as the number of nodes. -/
def weight (n : Nat) (t : Candidates) : Nat := ∑ v ∈ Finset.range n, (t[v]?.join).getD n

theorem weight_le (n : Nat) (h : ∀ v < n, (t[v]?.join).getD n ≤ n) : weight n t ≤ n * n := by
  calc weight n t ≤ ∑ _v ∈ Finset.range n, n :=
        Finset.sum_le_sum fun v hv => h v (Finset.mem_range.mp hv)
    _ = n * n := by simp

theorem Rooted.getD_le (ht : Rooted t) {n : Nat} (hv : v < n) : (t[v]?.join).getD n ≤ n := by
  cases hp : t[v]?.join with
  | none => exact Nat.le_refl _
  | some p => exact Nat.le_trans (ht.le hp) (Nat.le_of_lt hv)

/-- A pass that changes something makes the sum smaller. -/
theorem Midway.weight_lt (hs : Settled preds start) (h : Midway preds start preds.length t)
    (hne : t ≠ start) : weight preds.length t < weight preds.length start := by
  have hle : ∀ v < preds.length, (t[v]?.join).getD preds.length ≤
      (start[v]?.join).getD preds.length ∧ (t[v]?.join ≠ start[v]?.join →
        (t[v]?.join).getD preds.length < (start[v]?.join).getD preds.length) := by
    intro v hv
    rcases Nat.eq_zero_or_pos v with rfl | h0
    · rw [h.root, hs.root]
      simp
    obtain ⟨m, hm⟩ := Option.isSome_iff_exists.mp (h.before v hv)
    have hmv := h.lt v m h0 hm
    rw [hm]
    cases ho : start[v]?.join with
    | none => simp; omega
    | some o =>
      have hmo := (h.lower v o m h0 hv ho hm).le h.toRooted
      simp
      omega
  obtain ⟨v, hv, hdiff⟩ : ∃ v < preds.length, t[v]?.join ≠ start[v]?.join := by
    by_contra hall
    push Not at hall
    refine hne (Array.ext (h.size.trans hs.size.symm) fun i h1 h2 => ?_)
    have := hall i (h.size ▸ h1)
    simpa [h1, h2] using this
  exact Finset.sum_lt_sum (fun v hv => (hle v (Finset.mem_range.mp hv)).1)
    ⟨v, Finset.mem_range.mpr hv, (hle v hv).2 hdiff⟩

/-- The iteration ends, with a candidate for every node. -/
theorem exists_fixpoint (hn : Numbered preds) (hpos : 0 < preds.length) {fuel : Nat}
    (hs : Settled preds start) (hf : weight preds.length start < fuel) :
    ∃ t, fixpoint preds fuel start = some t ∧ Settled preds t ∧
      ∀ v < preds.length, (t[v]?.join).isSome := by
  induction fuel generalizing start with
  | zero => omega
  | succ fuel ih =>
    obtain ⟨next, hp, hmid⟩ := hs.exists_pass hn hpos
    unfold fixpoint
    rw [hp]
    by_cases e : next = start
    · subst e
      exact ⟨next, if_pos rfl, hs, hmid.before⟩
    · have hlt := hmid.weight_lt hs e
      obtain ⟨t, ht, hresult⟩ := ih hmid.settled (by omega)
      exact ⟨t, (if_neg e).trans ht, hresult⟩

theorem candidate_initial {n : Nat} (hn : 0 < n) (v : Nat) :
    (initial n)[v]?.join = if v = 0 then some 0 else none := by
  unfold initial
  rw [Array.getElem?_setIfInBounds, Array.getElem?_replicate, Array.size_replicate]
  by_cases h : v = 0
  · subst h
    simp [hn]
  · rw [if_neg fun e => h e.symm, if_neg h]
    split <;> rfl

theorem settled_initial (hpos : 0 < preds.length) : Settled preds (initial preds.length) := by
  have hnone : ∀ x o, 0 < x → (initial preds.length)[x]?.join ≠ some o := by
    intro x o hx
    rw [candidate_initial hpos, if_neg (by omega)]
    simp
  refine ⟨⟨by rw [candidate_initial hpos]; rfl, fun x o hx ho => absurd ho (hnone x o hx),
    fun x o ho => ?_⟩, by simp [initial], fun x o hx ho => absurd ho (hnone x o hx),
    fun x o hx ho => absurd ho (hnone x o hx), fun x o hx ho => absurd ho (hnone x o hx)⟩
  rcases Nat.eq_zero_or_pos x with rfl | hx
  · rw [candidate_initial hpos] at ho
    cases ho
    rw [candidate_initial hpos]
    rfl
  · exact absurd ho (hnone x o hx)

/-- Numbered nodes get immediate dominators: the iteration ends, no walk fails, and every node but
the root gets a candidate with a smaller number. -/
theorem exists_compute? (hn : Numbered preds) (hpos : 0 < preds.length) :
    ∃ t, compute? preds = some t ∧ Settled preds t ∧
      ∀ v < preds.length, (t[v]?.join).isSome := by
  have hs := settled_initial hpos
  refine exists_fixpoint hn hpos hs ?_
  have := weight_le (t := initial preds.length) preds.length fun v hv => hs.getD_le hv
  omega

/-- What is above a node in the result is what dominates it. -/
theorem above_iff_dominates (hn : Numbered preds) (h : compute? preds = some t)
    (hv : v < preds.length) : Above t v a ↔ Dominates preds a v := by
  have hpos : 0 < preds.length := by omega
  obtain ⟨t', ht', hs, hknown⟩ := exists_compute? hn hpos
  rw [h] at ht'
  cases ht'
  constructor
  · intro ha hpath
    exact ((isFixed_compute? h).eq_of_path hpos hpath).2 ha
  · exact above_of_dominates hs.toRooted hs.dominators (hknown v hv)

end Idom

end Lockstep
