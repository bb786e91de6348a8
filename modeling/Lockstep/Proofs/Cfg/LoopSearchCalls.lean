import Lockstep.Proofs.Cfg.LoopNesting

/-!
# The stack of the search for loops

The search visits the successors of a block, and the blocks of a loop once more after it has
forgotten their marks, all on one stack (`Called`). At each of these visits the state is consistent,
for the headers of the loops that are being searched again (`Called.ready`): this is kept from a
visit to those of the successors (`Ready.successor`) and to those of the loop (`Ready.inside`). So
none of them fails, however often blocks have been forgotten, and each leaves the stack as it was, or
adds to it and leads to a position below its own (`stack_discipline`).
-/

namespace Lockstep

namespace LoopSearch

variable {succs : BlockId → List BlockId} {entry : BlockId} {X : BlockId → Prop} {fuel : Nat}
  {s s' s'' : LoopSearch} {b c : BlockId} {pre post : List BlockId} {r first : Option Nat}

/-- The visits of blocks that the search of a graph makes, with the state that each starts from. A
block that is not marked has its successors visited one after the other; if it turns out to be the
header of a loop, then the other blocks of the loop. -/
inductive Called (g : Cfg) : BlockId → LoopSearch → Prop
  | entry : Called g g.entry {}
  | successor {b c : BlockId} {s s' : LoopSearch} {first : Option Nat} (fuel : Nat)
      (pre post : List BlockId) :
      Called g b s → ¬ Marked s b → g.succs b = pre ++ c :: post →
      pre.foldlM (visitNext g.succs fuel) (none, s.push b) = .ok (first, s') → Called g c s'
  | inside {b c : BlockId} {s s' s'' : LoopSearch} (fuel : Nat) (pre post : List BlockId) :
      Called g b s → ¬ Marked s b →
      (g.succs b).foldlM (visitNext g.succs fuel) (none, s.push b) =
        .ok (some s.stack.length, s') →
      s'.stack.drop (s.stack.length + 1) = pre ++ c :: post →
      pre.foldlM (fun s c => do return (← visit g.succs fuel c s).2)
        (s'.recordLoop b s.stack.length) = .ok s'' → Called g c s''

/-- What holds where a block is visited: the state is consistent, the headers around the search are
complete, and the entry leads to the block through marked ones. -/
structure Ready (succs : BlockId → List BlockId) (entry : BlockId) (X : BlockId → Prop) (b : BlockId)
    (s : LoopSearch) : Prop where
  consistent : Consistent succs X s
  around : ∀ x, X x → Done s x
  path : PathIn succs (Marked s) entry b

/-! ## What a visit keeps -/

theorem ready_entry : Ready succs entry (fun _ => False) entry {} :=
  ⟨consistent_empty, fun _ e => e.elim, .refl _⟩

/-- The successors that come before another one are visited as they should be. -/
theorem Ready.visits_successors (h : Ready succs entry X b s) (hb : ¬ Marked s b)
    (e : succs b = pre ++ post)
    (hpre : pre.foldlM (visitNext succs fuel) (none, s.push b) = .ok (first, s')) :
    ∃ t new, Visits succs entry X (s.push b) pre first s' t new :=
  visits_foldlM (visits_visit fuel) (consistent_push h.consistent hb)
    (fun x hx => (done_push hb).mpr (h.around x hx)) pre
    (fun l d m el => (path_push hb h.path (by rw [e, el]; simp)).mono fun _ => .inl) hpre

theorem Ready.successor (h : Ready succs entry X b s) (hb : ¬ Marked s b)
    (e : succs b = pre ++ c :: post)
    (hpre : pre.foldlM (visitNext succs fuel) (none, s.push b) = .ok (first, s')) :
    Ready succs entry X c s' := by
  obtain ⟨t, new, hv⟩ := h.visits_successors hb e hpre
  exact ⟨hv.consistent, fun x hx => hv.done' ((done_push hb).mpr (h.around x hx)),
    (path_push hb h.path (by rw [e]; simp)).mono fun _ => hv.marked⟩

/-- When the blocks of a loop are visited again, its header is one more header around the search. -/
theorem Ready.inside (h : Ready succs entry X b s) (hb : ¬ Marked s b)
    (hsuccs : (succs b).foldlM (visitNext succs fuel) (none, s.push b) =
      .ok (some s.stack.length, s'))
    (e : s'.stack.drop (s.stack.length + 1) = pre ++ c :: post)
    (hpre : pre.foldlM (fun s c => do return (← visit succs fuel c s).2)
      (s'.recordLoop b s.stack.length) = .ok s'') :
    Ready succs entry (fun x => X x ∨ x = b) c s'' := by
  obtain ⟨t, new, hv⟩ := h.visits_successors hb (List.append_nil _).symm hsuccs
  rw [drop_succ_stack_after hv] at e
  have hX : ∀ x, X x ∨ x = b → Done (s'.recordLoop b s.stack.length) x :=
    fun _ hx => done_recordLoop_of_done hb hv h.around hx
  obtain ⟨r, hpre⟩ := visits_of_foldlM_snd pre none hpre
  obtain ⟨t', new', hi⟩ := visits_foldlM (visits_visit fuel) (consistent_recordLoop hv) hX pre
    (fun l d m el => path_recordLoop hb hv h.path (by rw [e, el, List.append_assoc]; rfl)) hpre
  exact ⟨hi.consistent, fun x hx => hi.done' (hX x hx),
    (path_recordLoop hb hv h.path e).mono fun x hx => hx.elim hi.marked (hi.reached x)⟩

/-- Wherever the search visits a block, it is ready to. -/
theorem Called.ready {g : Cfg} (h : Called g b s) : ∃ X, Ready g.succs g.entry X b s := by
  induction h with
  | entry => exact ⟨_, ready_entry⟩
  | successor fuel pre post _ hb e hpre ih =>
    obtain ⟨X, h⟩ := ih
    exact ⟨X, h.successor hb e hpre⟩
  | inside fuel pre post _ hb hsuccs e hpre ih =>
    obtain ⟨X, h⟩ := ih
    exact ⟨_, h.inside hb hsuccs e hpre⟩

/-! ## What a visit does to the stack -/

/-- The visit of a block that is not marked leaves the stack as it was, or adds the block and more to
it and leads to a position below the block. -/
theorem Ready.stack_of_visit (h : Ready succs entry X b s) (hb : ¬ Marked s b)
    (hvisit : visit succs fuel b s = .ok (r, s')) :
    (r = none ∧ s'.stack = s.stack) ∨
      ∃ k t, r = some k ∧ k < s.stack.length ∧ s'.stack = s.stack ++ b :: t := by
  obtain ⟨t, new, hv⟩ := visits_visit fuel X b s r s' hvisit h.consistent h.around h.path
  cases r with
  | none =>
    have ht : t = [] := by
      by_contra hne
      obtain ⟨k, hk⟩ := hv.exists_low hne
      cases hk
    exact .inl ⟨rfl, by rw [hv.stack, ht, List.append_nil]⟩
  | some k =>
    obtain ⟨y, hy, -⟩ := hv.low k rfl
    obtain ⟨t', rfl⟩ := hv.exists_eq_cons hb
    exact .inr ⟨k, t', rfl, h.consistent.lt hy, hv.stack⟩

/-! ## The bound on the depth -/

/-- A larger bound does not change what a visit does. -/
theorem visit_mono {fuel' : Nat} (hle : fuel ≤ fuel') (h : visit succs fuel b s = .ok (r, s')) :
    visit succs fuel' b s = .ok (r, s') := by
  induction fuel generalizing fuel' b s r s' with
  | zero => cases h
  | succ fuel ih =>
    obtain ⟨k, rfl⟩ := Nat.exists_eq_add_one_of_ne_zero (by omega : fuel' ≠ 0)
    have ih : ∀ c s p, visit succs fuel c s = .ok p → visit succs k c s = .ok p :=
      fun c s p => ih (by omega)
    unfold visit at h ⊢
    cases hm : s.marks.get? b with
    | some m =>
      rw [hm] at h
      cases m with
      | pending => exact h
      | complete => exact h
    | none =>
      rw [hm] at h
      refine bind_eq_ok_of_imp h (fun p hp => foldlM_eq_ok_of_imp hp fun acc c p' hc =>
        bind_eq_ok_of_imp hc (ih c acc.2) fun _ h => h) fun p hp => ?_
      dsimp only at hp ⊢
      by_cases hfirst : p.1 = some s.stack.length
      · rw [if_pos hfirst] at hp ⊢
        exact bind_eq_ok_of_imp hp (fun q hq => foldlM_eq_ok_of_imp hq fun s c q' hc =>
          bind_eq_ok_of_imp hc (ih c s) fun _ h => h) fun _ h => h
      · rw [if_neg hfirst] at hp ⊢
        exact hp

/-- No visit that is ready needs more fuel than there are blocks in the graph. -/
theorem Ready.exists_visit {g : Cfg} (h : Ready g.succs entry X b s) :
    ∃ r s', ∀ fuel, g.succTable.size < fuel → visit g.succs fuel b s = .ok (r, s') := by
  obtain ⟨r, s', hvisit⟩ := visitEnds (fun _ => g.succs_eq_nil) (g.succTable.size + 1) X b s
    (Nat.lt_succ_of_le (card_unmarked_le_size _ s)) h.consistent h.around h.path
  exact ⟨r, s', fun fuel hfuel => visit_mono hfuel hvisit⟩

/-- A visit that the search makes succeeds, and of the stack it keeps what was there. -/
theorem Called.exists_visit {g : Cfg} (h : Called g b s) :
    ∃ r s', (∀ fuel, g.succTable.size < fuel → visit g.succs fuel b s = .ok (r, s')) ∧
      (¬ Marked s b → (r = none ∧ s'.stack = s.stack) ∨
        ∃ k t, r = some k ∧ k < s.stack.length ∧ s'.stack = s.stack ++ b :: t) := by
  obtain ⟨X, hready⟩ := h.ready
  obtain ⟨r, s', hvisit⟩ := hready.exists_visit
  exact ⟨r, s', hvisit, fun hb => hready.stack_of_visit hb (hvisit _ (Nat.lt_succ_self _))⟩

/-- The search for the loops of any graph ends with an empty stack, and none of its visits fails: the
stack is what it was when the blocks of a loop have been visited again, and a block that is on no
cycle is on top of the stack when it is left. What it does depends on no bound beyond the number of
blocks. The visit of a block that is not marked leaves the stack as it was, or it leads to a position
below the one that the block has taken. -/
theorem stack_discipline (g : Cfg) :
    (∃ s, run g = .ok s ∧ s.stack = [] ∧
      ∀ fuel, g.succTable.size < fuel → visit g.succs fuel g.entry {} = .ok (none, s)) ∧
    ∀ b s, Called g b s → ∃ r s',
      (∀ fuel, g.succTable.size < fuel → visit g.succs fuel b s = .ok (r, s')) ∧
      (¬ Marked s b → (r = none ∧ s'.stack = s.stack) ∨
        ∃ k t, r = some k ∧ k < s.stack.length ∧ s'.stack = s.stack ++ b :: t) := by
  refine ⟨?_, fun b s h => h.exists_visit⟩
  obtain ⟨r, s, hvisit, hstack⟩ := (Called.entry (g := g)).exists_visit
  rcases hstack fun e => e rfl with ⟨rfl, hs⟩ | ⟨k, t, -, hk, -⟩
  · refine ⟨s, ?_, hs, hvisit⟩
    show (visit g.succs (g.succTable.size + 2) g.entry {} >>= _) = _
    rw [hvisit _ (by omega)]
    rfl
  · exact absurd hk (Nat.not_lt_zero k)

/-- Block 4 is in a loop inside a loop. When the blocks of the outer loop are visited again, it leads
below itself, to the header of the inner loop. When those of the inner loop are, it leads nowhere; its
earlier places are still on the stack. -/
theorem stack_discipline_crossingInLoop :
    (∃ s s' k t, Called (Cfg.ofFunc LoopForest.crossingInLoop) 4 s ∧ ¬ Marked s 4 ∧
      s.stack = [0, 1, 2, 3, 4, 2, 3] ∧ k < 7 ∧
      visit (Cfg.ofFunc LoopForest.crossingInLoop).succs 7 4 s = .ok (some k, s') ∧
      s'.stack = s.stack ++ 4 :: t) ∧
    ∃ s s', Called (Cfg.ofFunc LoopForest.crossingInLoop) 4 s ∧ ¬ Marked s 4 ∧
      s.stack = [0, 1, 2, 3, 4, 2, 3, 4] ∧
      visit (Cfg.ofFunc LoopForest.crossingInLoop).succs 7 4 s = .ok (none, s') ∧
      s'.stack = s.stack := by
  have h1 : Called (Cfg.ofFunc LoopForest.crossingInLoop) 1 (({} : LoopSearch).push 0) :=
    .successor 0 [] [] .entry (fun e => e rfl) rfl rfl
  have h2 : Called (Cfg.ofFunc LoopForest.crossingInLoop) 2 _ :=
    .inside 5 [] [3, 4] h1 (fun e => e rfl) rfl rfl rfl
  have h3 : Called (Cfg.ofFunc LoopForest.crossingInLoop) 3 _ :=
    .successor 0 [] [4] h2 (fun e => e rfl) rfl rfl
  constructor
  · have h4 : Called (Cfg.ofFunc LoopForest.crossingInLoop) 4 _ :=
      .successor 0 [] [1] h3 (fun e => e rfl) rfl rfl
    obtain ⟨r, s', hvisit, hstack⟩ := (stack_discipline _).2 4 _ h4
    rcases hstack fun e => e rfl with ⟨rfl, -⟩ | ⟨k, t, rfl, hk, hs⟩
    · cases congrArg (Except.map Prod.fst) (hvisit 7 (by decide))
    · exact ⟨_, s', k, t, h4, fun e => e rfl, rfl, hk, hvisit 7 (by decide), hs⟩
  · have h4 : Called (Cfg.ofFunc LoopForest.crossingInLoop) 4 _ :=
      .inside 5 [] [] h3 (fun e => e rfl) rfl rfl rfl
    obtain ⟨r, s', hvisit, hstack⟩ := (stack_discipline _).2 4 _ h4
    rcases hstack fun e => e rfl with ⟨rfl, hs⟩ | ⟨k, t, rfl, -, -⟩
    · exact ⟨_, s', h4, fun e => e rfl, rfl, hvisit 7 (by decide), hs⟩
    · cases congrArg (Except.map Prod.fst) (hvisit 7 (by decide))

end LoopSearch

end Lockstep
