import Lockstep.Proofs.Cfg.LoopSearch
import Mathlib.Data.Finset.Card

/-!
# The search for loops succeeds

The search needs no more fuel than there are blocks that are not marked: a block is marked while its
successors are visited, and when the blocks of a loop are searched again, their header stays marked.
Its two checks of the stack hold. A loop leaves nothing on the stack when it is searched again, since
that would lead below its header (`eq_nil_inside`); and a block without a position below it is on top
of the stack, since nothing that it leads to has stayed there.
-/

namespace Lockstep

namespace LoopSearch

variable {succs : BlockId → List BlockId} {entry : BlockId} {X : BlockId → Prop} {n fuel : Nat}
  {s s' : LoopSearch} {b : BlockId}

/-- The blocks below `n` that are not marked. -/
def unmarked (n : Nat) (s : LoopSearch) : Finset BlockId :=
  {b ∈ Finset.range n | s.marks.get? b = none}

theorem mem_unmarked : b ∈ unmarked n s ↔ b < n ∧ ¬ Marked s b := by
  rw [unmarked, Finset.mem_filter, Finset.mem_range, Marked, not_not]

theorem card_unmarked_le (h : ∀ x, Marked s x → Marked s' x) :
    (unmarked n s').card ≤ (unmarked n s).card := by
  refine Finset.card_le_card fun x hx => ?_
  obtain ⟨hlt, hm⟩ := mem_unmarked.mp hx
  exact mem_unmarked.mpr ⟨hlt, fun hs => hm (h x hs)⟩

/-- Where one block more is marked, there are fewer blocks left. -/
theorem card_unmarked_lt (h : ∀ x, Marked s x → Marked s' x) (hb : b < n) (hs : ¬ Marked s b)
    (hs' : Marked s' b) : (unmarked n s').card < (unmarked n s).card := by
  refine Finset.card_lt_card ((Finset.ssubset_iff_of_subset fun x hx => ?_).mpr
    ⟨b, mem_unmarked.mpr ⟨hb, hs⟩, fun e => (mem_unmarked.mp e).2 hs'⟩)
  obtain ⟨hlt, hm⟩ := mem_unmarked.mp hx
  exact mem_unmarked.mpr ⟨hlt, fun hs => hm (h x hs)⟩

/-- There are no more blocks to mark than blocks. -/
theorem card_unmarked_le_size (n : Nat) (s : LoopSearch) : (unmarked n s).card ≤ n :=
  (Finset.card_filter_le _ _).trans_eq (Finset.card_range n)

/-- That every visit succeeds from a state in which it does what it should, if the fuel exceeds the
number of blocks that are not marked. -/
def VisitEnds (succs : BlockId → List BlockId) (entry : BlockId) (n fuel : Nat) : Prop :=
  ∀ (X : BlockId → Prop) (b : BlockId) (s : LoopSearch), (unmarked n s).card < fuel →
    Consistent succs X s → (∀ x, X x → Done s x) → PathIn succs (Marked s) entry b →
      ∃ r s', visit succs fuel b s = .ok (r, s')

/-- Visiting blocks one after the other succeeds. -/
theorem exists_foldlM_eq_ok (hends : VisitEnds succs entry n fuel) (hs : Consistent succs X s)
    (hX : ∀ x, X x → Done s x) (hfuel : (unmarked n s).card < fuel) (cs : List BlockId)
    (hacc : ∀ pre c post, cs = pre ++ c :: post →
      PathIn succs (fun x => Marked s x ∨ x ∈ pre) entry c) :
    ∃ r s', cs.foldlM (visitNext succs fuel) (none, s) = .ok (r, s') := by
  have key : ∀ (rest done : List BlockId) (r₀ : Option Nat) (s₀ : LoopSearch)
      (t : List BlockId) (new : List (BlockId × List BlockId)), cs = done ++ rest →
      Visits succs entry X s done r₀ s₀ t new →
      ∃ r s', rest.foldlM (visitNext succs fuel) (r₀, s₀) = .ok (r, s') := by
    intro rest
    induction rest with
    | nil => exact fun done r₀ s₀ t new _ _ => ⟨r₀, s₀, rfl⟩
    | cons c rest ih =>
      intro done r₀ s₀ t new e hv
      have hp : PathIn succs (Marked s₀) entry c :=
        (hacc done c rest e).mono fun x hx => hx.elim hv.marked (hv.reached x)
      have hXd : ∀ x, X x → Done s₀ x := fun x hx => hv.done' (hX x hx)
      obtain ⟨next, s₁, h₁⟩ := hends X c s₀
        (Nat.lt_of_le_of_lt (card_unmarked_le fun _ => hv.marked) hfuel) hv.consistent hXd hp
      obtain ⟨t', new', hv'⟩ := visits_visit fuel X c s₀ next s₁ h₁ hv.consistent hXd hp
      obtain ⟨r, s', h⟩ := ih (done ++ [c]) _ _ _ _ (by rw [e, List.append_assoc]; rfl)
        (hv.append hs hv')
      refine ⟨r, s', ?_⟩
      rw [List.foldlM_cons, show visitNext succs fuel (r₀, s₀) c = .ok (earlier r₀ next, s₁) by
        unfold visitNext
        rw [h₁]
        rfl]
      exact h
  exact key cs [] none s [] [] rfl (.nil hs)

/-- The same blocks visited for the state alone. -/
theorem foldlM_snd_eq_ok {cs : List BlockId} {r r' : Option Nat}
    (h : cs.foldlM (visitNext succs fuel) (r, s) = .ok (r', s')) :
    cs.foldlM (fun s c => do return (← visit succs fuel c s).2) s = .ok s' := by
  induction cs generalizing r s with
  | nil =>
    cases h
    rfl
  | cons c cs ih =>
    rw [List.foldlM_cons] at h
    obtain ⟨⟨r₁, s₁⟩, h₁, h⟩ := exists_of_bind_eq_ok h
    obtain ⟨⟨next, s₂⟩, h₂, h₁⟩ := exists_of_bind_eq_ok h₁
    cases h₁
    rw [List.foldlM_cons, h₂]
    exact ih h

/-- The loop of a block can be searched again, and leaves the stack as it was. -/
theorem exists_inside (hends : VisitEnds succs entry n fuel) {t : List BlockId}
    {new : List (BlockId × List BlockId)} (hs : Consistent succs X s) (hX : ∀ x, X x → Done s x)
    (hb : ¬ Marked s b)
    (hfuel : (unmarked n (s'.recordLoop b s.stack.length)).card < fuel)
    (hv : Visits succs entry X (s.push b) (succs b) (some s.stack.length) s' t new)
    (hp : PathIn succs (Marked s) entry b) :
    ∃ s'', t.foldlM (fun s c => do return (← visit succs fuel c s).2)
        (s'.recordLoop b s.stack.length) = .ok s'' ∧ s''.stack = s'.stack := by
  have hX' : ∀ x, X x ∨ x = b → Done (s'.recordLoop b s.stack.length) x :=
    fun _ hx => done_recordLoop_of_done hb hv hX hx
  have hacc := fun pre c post (e : t = pre ++ c :: post) => path_recordLoop hb hv hp e
  obtain ⟨r', s'', h⟩ := exists_foldlM_eq_ok hends (consistent_recordLoop hv) hX' hfuel t hacc
  obtain ⟨t', new', hi⟩ := visits_foldlM (visits_visit fuel) (consistent_recordLoop hv) hX' t hacc h
  refine ⟨s'', foldlM_snd_eq_ok h, ?_⟩
  rw [hi.stack, eq_nil_inside hv hi hs hb rfl, List.append_nil]
  rfl

/-- The visit of a block that is not marked succeeds if its successors can be visited, its loop can be
searched again with the stack as it was, and the block is on top of the stack if it is on no cycle. -/
theorem exists_visit_eq_ok {first : Option Nat} (hb : ¬ Marked s b)
    (h : (succs b).foldlM (visitNext succs fuel) (none, s.push b) = .ok (first, s'))
    (hloop : first = some s.stack.length →
      ∃ s'', (s'.stack.drop (s.stack.length + 1)).foldlM
          (fun s c => do return (← visit succs fuel c s).2) (s'.recordLoop b s.stack.length) = .ok s'' ∧
        s''.stack = s'.stack)
    (htop : first = none → s'.stack.getLast? = some b) :
    ∃ r s', visit succs (fuel + 1) b s = .ok (r, s') := by
  have hnone : s.marks.get? b = none := not_not.mp hb
  unfold visit
  rw [hnone]
  show ∃ r s', ((succs b).foldlM (visitNext succs fuel) (none, s.push b) >>= _) = .ok (r, s')
  rw [h]
  by_cases hfirst : first = some s.stack.length
  · obtain ⟨s'', h', hstack⟩ := hloop hfirst
    refine ⟨none, { s'' with stack := s''.stack.take s.stack.length }, ?_⟩
    show (if first = some s.stack.length then _ else _) = _
    rw [if_pos hfirst]
    show (List.foldlM _ _ _ >>= _) = _
    rw [h']
    show (if s''.stack.length ≠ s'.stack.length then _ else _) = _
    rw [if_neg (by rw [hstack]; exact fun e => e rfl)]
    rfl
  · cases first with
    | none =>
      refine ⟨none, { s' with stack := s'.stack.dropLast }.complete b, ?_⟩
      show (if s'.stack.getLast? ≠ some b then _ else _) = _
      rw [if_neg (by rw [htop rfl]; exact fun e => e rfl)]
      rfl
    | some k =>
      refine ⟨some k, s', ?_⟩
      show (if some k = some s.stack.length then _ else _) = _
      rw [if_neg hfirst]
      rfl

/-- No visit fails if only blocks below `n` have successors. -/
theorem visitEnds (hn : ∀ x, n ≤ x → succs x = []) (fuel : Nat) :
    VisitEnds succs entry n fuel := by
  induction fuel with
  | zero => exact fun X b s h => absurd h (Nat.not_lt_zero _)
  | succ fuel ih =>
    intro X b s hfuel hs hX hp
    by_cases hm : Marked s b
    · unfold visit
      rcases hm.cases with hd | ⟨k, hk⟩
      · have hd : s.marks.get? b = some .complete := hd
        rw [hd]
        exact ⟨_, _, rfl⟩
      · have hk : s.marks.get? b = some (.pending k) := hk
        rw [hk]
        exact ⟨_, _, rfl⟩
    by_cases hlt : b < n
    · -- from here on `b` is marked besides what was marked before
      have hless : ∀ s' : LoopSearch, (∀ x, Marked s x → Marked s' x) → Marked s' b →
          (unmarked n s').card < fuel := fun s' h hb =>
        Nat.lt_of_lt_of_le (card_unmarked_lt h hlt hm hb) (Nat.lt_succ_iff.mp hfuel)
      have hXp : ∀ x, X x → Done (s.push b) x := fun x hx => (done_push hm).mpr (hX x hx)
      have hacc : ∀ pre c post, succs b = pre ++ c :: post →
          PathIn succs (fun x => Marked (s.push b) x ∨ x ∈ pre) entry c := fun pre c post e =>
        (path_push hm hp (by rw [e]; simp)).mono fun _ => .inl
      obtain ⟨first, s₁, h₁⟩ := exists_foldlM_eq_ok ih (consistent_push hs hm) hXp
        (hless _ (fun _ => marked_push hm) (waits_push s b).marked) (succs b) hacc
      obtain ⟨t, new, hv⟩ := visits_foldlM (visits_visit fuel) (consistent_push hs hm) hXp (succs b)
        hacc h₁
      refine exists_visit_eq_ok hm h₁ (fun hfirst => ?_) fun hfirst => ?_
      · subst hfirst
        have hkept : ∀ x, Marked s x → Marked (s₁.recordLoop b s.stack.length) x :=
          fun _ hx => marked_recordLoop hm hv hx
        rw [drop_succ_stack_after hv]
        exact exists_inside ih hs hX hm (hless _ hkept (done_recordLoop_self hv).marked) hv hp
      · subst hfirst
        rw [stack_after hv, (visits_complete hs hm hv).1]
        exact List.getLast?_concat
    · have h : (succs b).foldlM (visitNext succs fuel) (none, s.push b) = .ok (none, s.push b) := by
        rw [hn b (Nat.le_of_not_lt hlt)]
        rfl
      exact exists_visit_eq_ok hm h (fun e => by cases e) fun _ => List.getLast?_concat

/-- The search for the loops of a graph succeeds. -/
theorem exists_run_eq_ok (g : Cfg) : ∃ s, run g = .ok s := by
  obtain ⟨r, s, h⟩ := visitEnds (fun _ => g.succs_eq_nil) (g.succTable.size + 2) (fun _ => False)
    g.entry {} (Nat.lt_succ_of_le (Nat.le_succ_of_le (card_unmarked_le_size _ _))) consistent_empty
    (fun _ e => e.elim) (.refl _)
  refine ⟨s, ?_⟩
  show (visit g.succs _ g.entry {} >>= _) = _
  rw [h]
  rfl

end LoopSearch

end Lockstep
