import Lockstep.Cfg.Loop
import Lockstep.Proofs.Cfg.Search
import Lockstep.Proofs.Triple
import Mathlib.Data.List.Induction
import Mathlib.Data.List.Nodup
import Mathlib.Logic.Relation

/-!
# What the search for loops finds

`Visits` says what the search does between two states when it visits some blocks one after the
other. Besides the bookkeeping it says of the blocks left on the stack that each has a predecessor
before it on the stack and leads back to a block before it, and of the loops found (`Finds`):

1. a loop is strongly connected, and holds every block on a cycle through its header that avoids
   the headers of the loops around it;
2. its header is reached from the entry without its other blocks;
3. of two loops, the one found later is inside the earlier one without its header, or disjoint.

`visits_visit` proves it by induction on the fuel.
-/

namespace Lockstep

/-- What holds of an element if it holds of all before it, holds of all. -/
theorem forall_mem_of_split {α : Type} {t : List α} {R : α → Prop}
    (h : ∀ pre x post, t = pre ++ x :: post → (∀ y ∈ pre, R y) → R x) : ∀ x ∈ t, R x := by
  have key : ∀ pre post, t = pre ++ post → ∀ x ∈ pre, R x := by
    intro pre
    induction pre using List.reverseRecOn with
    | nil => intro post _ x hx; cases hx
    | append_singleton pre y ih =>
      intro post e x hx
      rw [List.append_assoc] at e
      rcases List.mem_append.mp hx with hx | hx
      · exact ih _ e x hx
      · rw [List.mem_singleton.mp hx]
        exact h pre y post e (ih _ e)
  exact key t [] (List.append_nil t).symm

namespace LoopSearch

variable {succs : BlockId → List BlockId} {entry : BlockId} {X : BlockId → Prop}

/-! ## Marks -/

/-- Whether a block has been reached and not been forgotten. -/
def Marked (s : LoopSearch) (b : BlockId) : Prop := s.marks.get? b ≠ none

/-- Whether the component of a block is complete. -/
def Done (s : LoopSearch) (b : BlockId) : Prop := s.marks.get? b = some .complete

/-- Whether a block waits at a position. -/
def Waits (s : LoopSearch) (b : BlockId) (slot : Nat) : Prop :=
  s.marks.get? b = some (.pending slot)

theorem Done.marked {s : LoopSearch} {b : BlockId} (h : Done s b) : Marked s b := by
  rw [Marked, h]
  exact Option.some_ne_none _

theorem Waits.marked {s : LoopSearch} {b : BlockId} {k : Nat} (h : Waits s b k) : Marked s b := by
  rw [Marked, h]
  exact Option.some_ne_none _

theorem Waits.not_done {s : LoopSearch} {b : BlockId} {k : Nat} (h : Waits s b k) :
    ¬ Done s b := by
  intro hd
  rw [Done, h] at hd
  cases hd

theorem Waits.unique {s : LoopSearch} {b : BlockId} {j k : Nat} (h : Waits s b j)
    (h' : Waits s b k) : j = k := by
  rw [Waits, h] at h'
  cases h'
  rfl

/-- A marked block is complete or waits. -/
theorem Marked.cases {s : LoopSearch} {b : BlockId} (h : Marked s b) :
    Done s b ∨ ∃ k, Waits s b k := by
  unfold Marked at h
  unfold Done Waits
  cases hm : s.marks.get? b with
  | none => exact absurd hm h
  | some m =>
    cases m with
    | complete => exact .inl rfl
    | pending k => exact .inr ⟨k, rfl⟩

/-- A waiting block stands on the stack where its mark says, and a complete block leads to complete
blocks only, unless it is the header of a loop around the search. -/
structure Consistent (succs : BlockId → List BlockId) (X : BlockId → Prop) (s : LoopSearch) :
    Prop where
  slot : ∀ b k, Waits s b k → s.stack[k]? = some b
  closed : ∀ b, Done s b → ¬ X b → ∀ c ∈ succs b, Done s c

theorem Consistent.lt {s : LoopSearch} (h : Consistent succs X s) {b : BlockId} {k : Nat}
    (hb : Waits s b k) : k < s.stack.length :=
  (List.getElem?_eq_some_iff.mp (h.slot b k hb)).1

/-- Everything that a complete block reaches without the headers around is complete. -/
theorem Consistent.done_of_path {s : LoopSearch} (h : Consistent succs X s) {a b : BlockId}
    (ha : Done s a) (p : PathIn succs (fun x => ¬ X x) a b) : Done s b :=
  p.induct ha fun x y hx hd hy => h.closed x hd hx y hy

/-! ## What a search does -/

/-- Two loops, the first one found earlier: the second lies in the first, without its header, or
has no block in common with it. -/
def Nested (e e' : BlockId × List BlockId) : Prop :=
  (∀ x ∈ e'.2, x ∈ e.2 ∧ x ≠ e.1) ∨ ∀ x ∈ e'.2, x ∉ e.2

/-- What is found about a single loop, header and blocks. -/
structure IsLoop (succs : BlockId → List BlockId) (entry : BlockId)
    (e : BlockId × List BlockId) : Prop where
  head : ∃ rest, e.2 = e.1 :: rest
  nodup : e.2.Nodup
  connected : ∀ x ∈ e.2, PathIn succs (· ∈ e.2) e.1 x ∧ PathIn succs (· ∈ e.2) x e.1
  cycle : ∃ x ∈ e.2, e.1 ∈ succs x
  first : PathIn succs (· ∉ e.2) entry e.1

theorem IsLoop.header_mem {e : BlockId × List BlockId} (h : IsLoop succs entry e) :
    e.1 ∈ e.2 := by
  obtain ⟨rest, hrest⟩ := h.head
  rw [hrest]
  exact List.mem_cons_self

/-- The headers of loops around the block `b`: those in `X`, and those found. -/
def Around (X : BlockId → Prop) (found : List (BlockId × List BlockId)) (b x : BlockId) : Prop :=
  X x ∨ ∃ e ∈ found, e.1 = x ∧ b ∈ e.2

theorem Around.mono {found found' : List (BlockId × List BlockId)} {b x : BlockId}
    (h : Around X found b x) (hf : ∀ e ∈ found, e ∈ found') : Around X found' b x := by
  rcases h with h | ⟨e, he, hx⟩
  · exact .inl h
  · exact .inr ⟨e, hf e he, hx⟩

/-- Whether a block is the header of a loop that was found, or on no cycle that avoids the headers
around it. -/
def Covered (succs : BlockId → List BlockId) (X : BlockId → Prop)
    (found : List (BlockId × List BlockId)) (x : BlockId) : Prop :=
  (∃ e ∈ found, e.1 = x) ∨
    ∀ y ∈ succs x, ¬ PathIn succs (fun z => ¬ Around X found x z) y x

theorem Covered.mono {found found' : List (BlockId × List BlockId)} {x : BlockId}
    {Y : BlockId → Prop} (h : Covered succs Y found x) (hf : ∀ e ∈ found, e ∈ found')
    (hY : ∀ z, Around Y found x z → Around X found' x z) : Covered succs X found' x := by
  rcases h with ⟨e, he, hx⟩ | h
  · exact .inl ⟨e, hf e he, hx⟩
  · exact .inr fun y hy hp => h y hy (hp.mono fun z hz ha => hz (hY z ha))

/-- The loops that are found between two states, inside the loops with headers in `X`. -/
structure Finds (succs : BlockId → List BlockId) (entry : BlockId) (X : BlockId → Prop)
    (s s' : LoopSearch) (new : List (BlockId × List BlockId)) : Prop where
  isLoop : ∀ e ∈ new, IsLoop succs entry e
  fresh : ∀ e ∈ new, ∀ x ∈ e.2, ¬ Marked s x ∧ Done s' x
  nested : new.Pairwise Nested
  maximal : ∀ pre e post, new = pre ++ e :: post → ∀ u,
    PathIn succs (fun x => ¬ Around X pre e.1 x) e.1 u →
      PathIn succs (fun x => ¬ Around X pre e.1 x) u e.1 → u ∈ e.2
  complete : ∀ x, ¬ Marked s x → Done s' x → Covered succs X new x

/-- What is around a loop that is found, with no loop around the search, is the header of a loop found
before, which has the loop inside. -/
theorem Finds.exists_of_around {s s' : LoopSearch} {pre post : List (BlockId × List BlockId)}
    {e : BlockId × List BlockId} {x : BlockId}
    (h : Finds succs entry (fun _ => False) s s' (pre ++ e :: post))
    (hx : Around (fun _ => False) pre e.1 x) :
    ∃ o ∈ pre, o.1 = x ∧ IsLoop succs entry o ∧ e.1 ∈ o.2 ∧ ∀ y ∈ e.2, y ∈ o.2 ∧ y ≠ o.1 := by
  rcases hx with hx | ⟨o, ho, hox, heo⟩
  · exact hx.elim
  · refine ⟨o, ho, hox, h.isLoop o (List.mem_append_left _ ho), heo, ?_⟩
    rcases (List.pairwise_append.mp h.nested).2.2 o ho e List.mem_cons_self with hin | hout
    · exact hin
    · exact absurd heo (hout _ (h.isLoop e (by simp)).header_mem)

/-- What visiting the blocks `cs` does between two states: `r` is the first position on the old
stack that was found, `t` is what is left on the stack, `new` are the loops found. -/
structure Visits (succs : BlockId → List BlockId) (entry : BlockId) (X : BlockId → Prop)
    (s : LoopSearch) (cs : List BlockId) (r : Option Nat) (s' : LoopSearch) (t : List BlockId)
    (new : List (BlockId × List BlockId)) : Prop where
  stack : s'.stack = s.stack ++ t
  found : s'.found = s.found ++ new
  kept : ∀ x, Marked s x → s'.marks.get? x = s.marks.get? x
  consistent : Consistent succs X s'
  reached : ∀ c ∈ cs, Marked s' c
  done : r = none → ∀ c ∈ cs, Done s' c
  low : ∀ k, r = some k → ∃ y, Waits s y k ∧ ∃ c ∈ cs, PathIn succs (· ∈ t) c y
  direct : ∀ c ∈ cs, ∀ k, Waits s c k → ∃ j, r = some j ∧ j ≤ k
  bound : ∀ x ∈ t, ∀ y ∈ succs x, ∀ k, Waits s y k → ∃ j, r = some j ∧ j ≤ k
  closed : ∀ x ∈ t, ∀ y ∈ succs x, Marked s' y
  left : ∀ x ∈ t, ¬ Marked s x ∧ ∃ k, Waits s' x k ∧ s.stack.length ≤ k
  fresh : ∀ x, Marked s' x → Marked s x ∨ Done s' x ∨ x ∈ t
  nodup : t.Nodup
  pred : ∀ pre x post, t = pre ++ x :: post → x ∈ cs ∨ ∃ p ∈ pre, x ∈ succs p
  back : ∀ pre x post, t = pre ++ x :: post →
    ∃ y, PathIn succs (· ∈ t) x y ∧ ((∃ k, Waits s y k) ∨ y ∈ pre)
  within : ∀ C : BlockId → Prop, (∀ c ∈ cs, C c ∨ Marked s c) →
    (∀ x, C x → ∀ y ∈ succs x, C y ∨ Marked s y) → ∀ x, Marked s' x → Marked s x ∨ C x
  finds : Finds succs entry X s s' new

namespace Visits

variable {s s' s'' : LoopSearch} {cs cs' : List BlockId} {r r' : Option Nat}
  {t t' : List BlockId} {new new' : List (BlockId × List BlockId)}

theorem marked (h : Visits succs entry X s cs r s' t new) {x : BlockId} (hx : Marked s x) :
    Marked s' x := by
  rw [Marked, h.kept x hx]
  exact hx

theorem done' (h : Visits succs entry X s cs r s' t new) {x : BlockId} (hx : Done s x) :
    Done s' x := by
  rw [Done, h.kept x hx.marked]
  exact hx

theorem waits (h : Visits succs entry X s cs r s' t new) {x : BlockId} {k : Nat}
    (hx : Waits s x k) : Waits s' x k := by
  rw [Waits, h.kept x hx.marked]
  exact hx

/-- A block that waits afterwards waited before, or was left on the stack. -/
theorem waits_or_mem (h : Visits succs entry X s cs r s' t new) {x : BlockId} {k : Nat}
    (hx : Waits s' x k) : Waits s x k ∨ x ∈ t := by
  rcases h.fresh x hx.marked with h1 | h1 | h1
  · left
    rw [Waits, ← h.kept x h1]
    exact hx
  · exact absurd h1 hx.not_done
  · exact .inr h1

theorem nil (hs : Consistent succs X s) : Visits succs entry X s [] none s [] [] where
  stack := (List.append_nil _).symm
  found := (List.append_nil _).symm
  kept _ _ := rfl
  consistent := hs
  reached c hc := by cases hc
  done _ c hc := by cases hc
  low k hk := by cases hk
  direct c hc := by cases hc
  bound x hx := by cases hx
  closed x hx := by cases hx
  left x hx := by cases hx
  fresh x hx := .inl hx
  nodup := List.nodup_nil
  pred pre x post h := by simp at h
  back pre x post h := by simp at h
  within C _ _ x hx := .inl hx
  finds := ⟨fun e he => (by cases he), fun e he => (by cases he), List.Pairwise.nil,
    fun pre e post h => (by simp at h), fun x hx hd => absurd hd.marked hx⟩

/-- What is left on the stack leads below it. -/
theorem exists_low (h : Visits succs entry X s cs r s' t new) (ht : t ≠ []) :
    ∃ k, r = some k := by
  cases t with
  | nil => exact absurd rfl ht
  | cons x t =>
    obtain ⟨y, hp, hy | hy⟩ := h.back [] x t rfl
    · obtain ⟨k, hk⟩ := hy
      have hne : x ≠ y := by
        rintro rfl
        exact (h.left x List.mem_cons_self).1 hk.marked
      obtain ⟨z, -, hz, hyz⟩ := hp.exists_last hne
      obtain ⟨j, hj, -⟩ := h.bound z hz y hyz k hk
      exact ⟨j, hj⟩
    · cases hy

/-- The visit of one block that is not marked and leads below the stack leaves the block first. -/
theorem exists_eq_cons {b : BlockId} {k : Nat} (h : Visits succs entry X s [b] (some k) s' t new)
    (hb : ¬ Marked s b) : ∃ t', t = b :: t' := by
  obtain ⟨y, hy, c, hc, p⟩ := h.low k rfl
  obtain rfl := List.mem_singleton.mp hc
  have hct : c ∈ t := by
    rcases Relation.ReflTransGen.cases_head p with e | ⟨d, hd, -⟩
    · exact absurd (e ▸ hy.marked) hb
    · exact hd.1
  cases t with
  | nil => cases hct
  | cons x t =>
    rcases h.pred [] x t rfl with hx | ⟨p, hp, -⟩
    · exact ⟨t, List.mem_singleton.mp hx ▸ rfl⟩
    · cases hp

theorem earlier_le_left {a b : Option Nat} {j k : Nat} (ha : a = some j) (hj : j ≤ k) :
    ∃ i, LoopSearch.earlier a b = some i ∧ i ≤ k := by
  subst ha
  cases b with
  | none => exact ⟨j, rfl, hj⟩
  | some b => exact ⟨min j b, rfl, Nat.le_trans (Nat.min_le_left _ _) hj⟩

theorem earlier_le_right {a b : Option Nat} {j k : Nat} (hb : b = some j) (hj : j ≤ k) :
    ∃ i, LoopSearch.earlier a b = some i ∧ i ≤ k := by
  subst hb
  cases a with
  | none => exact ⟨j, rfl, hj⟩
  | some a => exact ⟨min a j, rfl, Nat.le_trans (Nat.min_le_right _ _) hj⟩

theorem earlier_eq_none {a b : Option Nat} (h : LoopSearch.earlier a b = none) :
    a = none ∧ b = none := by
  cases a with
  | none => exact ⟨rfl, h⟩
  | some a =>
    cases b with
    | none => cases h
    | some b => cases h

theorem earlier_eq_some {a b : Option Nat} {k : Nat} (h : LoopSearch.earlier a b = some k) :
    a = some k ∨ b = some k ∧ ∀ j, a = some j → k ≤ j := by
  cases a with
  | none => exact .inr ⟨h, fun j hj => by cases hj⟩
  | some a =>
    cases b with
    | none => exact .inl h
    | some b =>
      have h : some (min a b) = some k := h
      have hk := Option.some.inj h
      rcases Nat.le_total a b with hab | hab
      · left
        rw [← hk, Nat.min_eq_left hab]
      · right
        rw [← hk, Nat.min_eq_right hab]
        refine ⟨rfl, fun j hj => ?_⟩
        cases hj
        exact hab

/-- The loops found by one search after the other. -/
theorem finds_append (h : Visits succs entry X s cs r s' t new)
    (k : Visits succs entry X s' cs' r' s'' t' new') : Finds succs entry X s s'' (new ++ new') where
  isLoop e he := by
    rcases List.mem_append.mp he with he | he
    · exact h.finds.isLoop e he
    · exact k.finds.isLoop e he
  fresh e he x hx := by
    rcases List.mem_append.mp he with he | he
    · obtain ⟨h1, h2⟩ := h.finds.fresh e he x hx
      exact ⟨h1, k.done' h2⟩
    · obtain ⟨h1, h2⟩ := k.finds.fresh e he x hx
      exact ⟨fun hm => h1 (h.marked hm), h2⟩
  nested := by
    refine List.pairwise_append.mpr ⟨h.finds.nested, k.finds.nested, fun e he e' he' => ?_⟩
    refine .inr fun x hx hxe => ?_
    exact (k.finds.fresh e' he' x hx).1 (h.finds.fresh e he x hxe).2.marked
  maximal pre e post heq u hu hu' := by
    rcases append_eq_append_cons heq with ⟨l, h1, -⟩ | ⟨l, rfl, h2⟩
    · exact h.finds.maximal pre e l h1 u hu hu'
    · -- a loop of the second search: the loops of the first are not around it
      have he : e ∈ new' := by rw [h2]; simp
      have hsub : ∀ x, ¬ Around X (new ++ l) e.1 x → ¬ Around X l e.1 x := by
        rintro x hx (hX | ⟨d, hd, hdx⟩)
        · exact hx (.inl hX)
        · exact hx (.inr ⟨d, List.mem_append_right _ hd, hdx⟩)
      exact k.finds.maximal l e post h2 u (hu.mono hsub) (hu'.mono hsub)
  complete x hx hd := by
    by_cases hm : Marked s' x
    · have hd : Done s' x := by
        rw [Done, ← k.kept x hm]
        exact hd
      have hsub : ∀ e ∈ new, e ∈ new ++ new' := fun _ => List.mem_append_left _
      exact (h.finds.complete x hx hd).mono hsub fun z hz => hz.mono hsub
    · have hsub : ∀ e ∈ new', e ∈ new ++ new' := fun _ => List.mem_append_right _
      exact (k.finds.complete x hm hd).mono hsub fun z hz => hz.mono hsub

/-- One search after the other. -/
theorem append (hs : Consistent succs X s) (h : Visits succs entry X s cs r s' t new)
    (k : Visits succs entry X s' cs' r' s'' t' new') :
    Visits succs entry X s (cs ++ cs') (earlier r r') s'' (t ++ t') (new ++ new') where
  stack := by rw [k.stack, h.stack, List.append_assoc]
  found := by rw [k.found, h.found, List.append_assoc]
  kept x hx := (k.kept x (h.marked hx)).trans (h.kept x hx)
  consistent := k.consistent
  reached c hc := by
    rcases List.mem_append.mp hc with hc | hc
    · exact k.marked (h.reached c hc)
    · exact k.reached c hc
  done hr c hc := by
    obtain ⟨h1, h2⟩ := earlier_eq_none hr
    rcases List.mem_append.mp hc with hc | hc
    · exact k.done' (h.done h1 c hc)
    · exact k.done h2 c hc
  low j hj := by
    rcases earlier_eq_some hj with h1 | ⟨h1, hmin⟩
    · obtain ⟨y, hy, c, hc, p⟩ := h.low j h1
      exact ⟨y, hy, c, List.mem_append_left _ hc, p.mono fun x hx => List.mem_append_left _ hx⟩
    · obtain ⟨y, hy, c, hc, p⟩ := k.low j h1
      rcases h.waits_or_mem hy with hy' | hy'
      · exact ⟨y, hy', c, List.mem_append_right _ hc,
          p.mono fun x hx => List.mem_append_right _ hx⟩
      · -- the block was left by the first search, which has found a lower position
        obtain ⟨i, hi⟩ := h.exists_low (List.ne_nil_of_mem hy')
        obtain ⟨z, hz, -⟩ := h.low i hi
        obtain ⟨-, m, hm, hle⟩ := h.left y hy'
        have hjm : j = m := hy.unique hm
        have hji : j ≤ i := hmin i hi
        have hlt : i < s.stack.length := hs.lt hz
        omega
  direct c hc j hj := by
    rcases List.mem_append.mp hc with hc | hc
    · obtain ⟨i, h1, h2⟩ := h.direct c hc j hj
      exact earlier_le_left h1 h2
    · obtain ⟨i, h1, h2⟩ := k.direct c hc j (h.waits hj)
      exact earlier_le_right h1 h2
  bound x hx y hy j hj := by
    rcases List.mem_append.mp hx with hx | hx
    · obtain ⟨i, h1, h2⟩ := h.bound x hx y hy j hj
      exact earlier_le_left h1 h2
    · obtain ⟨i, h1, h2⟩ := k.bound x hx y hy j (h.waits hj)
      exact earlier_le_right h1 h2
  closed x hx y hy := by
    rcases List.mem_append.mp hx with hx | hx
    · exact k.marked (h.closed x hx y hy)
    · exact k.closed x hx y hy
  left x hx := by
    rcases List.mem_append.mp hx with hx | hx
    · obtain ⟨h1, j, h2, h3⟩ := h.left x hx
      exact ⟨h1, j, k.waits h2, h3⟩
    · obtain ⟨h1, j, h2, h3⟩ := k.left x hx
      refine ⟨fun hm => h1 (h.marked hm), j, h2, Nat.le_trans ?_ h3⟩
      rw [h.stack, List.length_append]
      exact Nat.le_add_right _ _
  fresh x hx := by
    rcases k.fresh x hx with h1 | h1 | h1
    · rcases h.fresh x h1 with h2 | h2 | h2
      · exact .inl h2
      · exact .inr (.inl (k.done' h2))
      · exact .inr (.inr (List.mem_append_left _ h2))
    · exact .inr (.inl h1)
    · exact .inr (.inr (List.mem_append_right _ h1))
  nodup := by
    refine List.nodup_append.mpr ⟨h.nodup, k.nodup, ?_⟩
    rintro x hx y hy rfl
    obtain ⟨-, j, hj, -⟩ := h.left x hx
    exact (k.left x hy).1 hj.marked
  pred pre x post heq := by
    rcases append_eq_append_cons heq with ⟨l, h1, -⟩ | ⟨l, rfl, h2⟩
    · rcases h.pred pre x l h1 with hc | hp
      · exact .inl (List.mem_append_left _ hc)
      · exact .inr hp
    · rcases k.pred l x post h2 with hc | ⟨p, hp, hx⟩
      · exact .inl (List.mem_append_right _ hc)
      · exact .inr ⟨p, List.mem_append_right _ hp, hx⟩
  back pre x post heq := by
    rcases append_eq_append_cons heq with ⟨l, h1, -⟩ | ⟨l, rfl, h2⟩
    · obtain ⟨y, p, hy⟩ := h.back pre x l h1
      exact ⟨y, p.mono fun z hz => List.mem_append_left _ hz, hy⟩
    · obtain ⟨y, p, hy⟩ := k.back l x post h2
      refine ⟨y, p.mono fun z hz => List.mem_append_right _ hz, ?_⟩
      rcases hy with ⟨j, hj⟩ | hy
      · rcases h.waits_or_mem hj with h3 | h3
        · exact .inl ⟨j, h3⟩
        · exact .inr (List.mem_append_left _ h3)
      · exact .inr (List.mem_append_right _ hy)
  within C hc hC x hx := by
    have h1 := h.within C (fun c hm => hc c (List.mem_append_left _ hm)) hC
    have h2 := k.within C (fun c hm => (hc c (List.mem_append_right _ hm)).imp_right h.marked)
      (fun y hy z hz => (hC y hy z hz).imp_right h.marked) x hx
    rcases h2 with h2 | h2
    · exact h1 x h2
    · exact .inr h2
  finds := h.finds_append k

/-- A block that is marked already. -/
theorem of_marked (hs : Consistent succs X s) {b : BlockId} (hb : Marked s b) :
    Visits succs entry X s [b]
      (match s.marks.get? b with
        | some (.pending slot) => some slot
        | _ => none) s [] [] where
  stack := (List.append_nil _).symm
  found := (List.append_nil _).symm
  kept _ _ := rfl
  consistent := hs
  reached c hc := List.mem_singleton.mp hc ▸ hb
  done hr c hc := by
    rw [List.mem_singleton.mp hc]
    rcases hb.cases with h | ⟨k, hk⟩
    · exact h
    · rw [hk] at hr
      cases hr
  low k hk := by
    refine ⟨b, ?_, b, List.mem_singleton_self b, .refl b⟩
    rcases hb.cases with h | ⟨j, hj⟩
    · rw [h] at hk
      cases hk
    · rw [hj] at hk
      cases hk
      exact hj
  direct c hc k hk := by
    rw [List.mem_singleton.mp hc] at hk
    exact ⟨k, by rw [hk], Nat.le_refl _⟩
  bound x hx := by cases hx
  closed x hx := by cases hx
  left x hx := by cases hx
  fresh x hx := .inl hx
  nodup := List.nodup_nil
  pred pre x post h := by simp at h
  back pre x post h := by simp at h
  within C _ _ x hx := .inl hx
  finds := (nil hs).finds

/-- A block whose visit leaves nothing on the stack. -/
theorem of_complete {b : BlockId} (hb : ¬ Marked s b) (stack : s'.stack = s.stack)
    (found : s'.found = s.found ++ new) (kept : ∀ x, Marked s x → s'.marks.get? x = s.marks.get? x)
    (consistent : Consistent succs X s') (done : Done s' b)
    (fresh : ∀ x, Marked s' x → Marked s x ∨ Done s' x)
    (within : ∀ C : BlockId → Prop, C b → (∀ x, C x → ∀ y ∈ succs x, C y ∨ Marked s y) →
      ∀ x, Marked s' x → Marked s x ∨ C x)
    (finds : Finds succs entry X s s' new) : Visits succs entry X s [b] none s' [] new where
  stack := by rw [stack, List.append_nil]
  found := found
  kept := kept
  consistent := consistent
  reached c hc := List.mem_singleton.mp hc ▸ done.marked
  done _ c hc := List.mem_singleton.mp hc ▸ done
  low k hk := by cases hk
  direct c hc k hk := absurd (List.mem_singleton.mp hc ▸ hk.marked) hb
  bound x hx := by cases hx
  closed x hx := by cases hx
  left x hx := by cases hx
  fresh x hx := (fresh x hx).imp_right .inl
  nodup := List.nodup_nil
  pred pre x post h := by simp at h
  back pre x post h := by simp at h
  within C hc := within C ((hc b (List.mem_singleton_self b)).resolve_right hb)
  finds := finds

end Visits

/-! ## The search -/

/-- One step of the search in a list of blocks. -/
def visitNext (succs : BlockId → List BlockId) (fuel : Nat) (acc : Option Nat × LoopSearch)
    (c : BlockId) : Except LoopSearchFault (Option Nat × LoopSearch) := do
  let (next, s) ← visit succs fuel c acc.2
  return (earlier acc.1 next, s)

/-- What the visit of a block has to do to be right: from a consistent state in which the headers
around are complete, and in which the entry leads to the block through marked ones. -/
def VisitSpec (succs : BlockId → List BlockId) (entry : BlockId) (fuel : Nat) : Prop :=
  ∀ (X : BlockId → Prop) (b : BlockId) (s : LoopSearch) (r : Option Nat) (s' : LoopSearch),
    visit succs fuel b s = .ok (r, s') → Consistent succs X s → (∀ x, X x → Done s x) →
      PathIn succs (Marked s) entry b → ∃ t new, Visits succs entry X s [b] r s' t new

theorem visits_foldlM {fuel : Nat} (hspec : VisitSpec succs entry fuel) {s : LoopSearch}
    (hs : Consistent succs X s) (hX : ∀ x, X x → Done s x) (cs : List BlockId)
    (hacc : ∀ pre c post, cs = pre ++ c :: post →
      PathIn succs (fun x => Marked s x ∨ x ∈ pre) entry c)
    {r : Option Nat} {s' : LoopSearch}
    (h : cs.foldlM (visitNext succs fuel) (none, s) = .ok (r, s')) :
    ∃ t new, Visits succs entry X s cs r s' t new := by
  have key : ∀ (rest done : List BlockId) (r₀ : Option Nat) (s₀ : LoopSearch)
      (t : List BlockId) (new : List (BlockId × List BlockId)), cs = done ++ rest →
      Visits succs entry X s done r₀ s₀ t new →
      rest.foldlM (visitNext succs fuel) (r₀, s₀) = .ok (r, s') →
      ∃ t new, Visits succs entry X s cs r s' t new := by
    intro rest
    induction rest with
    | nil =>
      intro done r₀ s₀ t new hcs hv h
      cases h
      rw [List.append_nil] at hcs
      exact ⟨t, new, hcs ▸ hv⟩
    | cons c rest ih =>
      intro done r₀ s₀ t new hcs hv h
      rw [List.foldlM_cons] at h
      obtain ⟨⟨r₁, s₁⟩, h1, h2⟩ := exists_of_bind_eq_ok h
      obtain ⟨⟨next, s₂⟩, h3, h4⟩ := exists_of_bind_eq_ok h1
      cases h4
      have hp : PathIn succs (Marked s₀) entry c := by
        refine (hacc done c rest hcs).mono fun x hx => ?_
        rcases hx with hx | hx
        · exact hv.marked hx
        · exact hv.reached x hx
      obtain ⟨t', new', hv'⟩ := hspec X c s₀ next s₁ h3 hv.consistent
        (fun x hx => hv.done' (hX x hx)) hp
      exact ih (done ++ [c]) _ _ _ _ (by rw [hcs, List.append_assoc]; rfl)
        (hv.append hs hv') h2
  exact key cs [] none s [] [] rfl (.nil hs) h

/-- A search in a list of blocks that only keeps the state. -/
theorem visits_of_foldlM_snd {fuel : Nat} (cs : List BlockId) (r : Option Nat)
    {s s' : LoopSearch}
    (h : cs.foldlM (fun s c => do return (← visit succs fuel c s).2) s = .ok s') :
    ∃ r', cs.foldlM (visitNext succs fuel) (r, s) = .ok (r', s') := by
  induction cs generalizing r s with
  | nil =>
    cases h
    exact ⟨r, rfl⟩
  | cons c cs ih =>
    rw [List.foldlM_cons] at h
    obtain ⟨s₁, h1, h2⟩ := exists_of_bind_eq_ok h
    obtain ⟨⟨next, s₂⟩, h3, h4⟩ := exists_of_bind_eq_ok h1
    cases h4
    obtain ⟨r', h5⟩ := ih (earlier r next) h2
    refine ⟨r', ?_⟩
    rw [List.foldlM_cons]
    show (visitNext succs fuel (r, s) c >>= _) = _
    rw [show visitNext succs fuel (r, s) c = .ok (earlier r next, s₂) by
      unfold visitNext
      rw [h3]
      rfl]
    exact h5

/-! ## One block -/

section Enter

variable {s s' : LoopSearch} {b : BlockId} {r : Option Nat} {t : List BlockId}
  {new : List (BlockId × List BlockId)}

theorem get?_push (s : LoopSearch) (b x : BlockId) :
    (s.push b).marks.get? x =
      if x = b then some (.pending s.stack.length) else s.marks.get? x :=
  Table.get?_set _ _ _ _

theorem waits_push (s : LoopSearch) (b : BlockId) : Waits (s.push b) b s.stack.length := by
  rw [Waits, get?_push, if_pos rfl]

theorem get?_push_of_marked (hb : ¬ Marked s b) {x : BlockId} (hx : Marked s x) :
    (s.push b).marks.get? x = s.marks.get? x := by
  rw [get?_push, if_neg]
  rintro rfl
  exact hb hx

theorem marked_push (hb : ¬ Marked s b) {x : BlockId} (hx : Marked s x) :
    Marked (s.push b) x := by
  rw [Marked, get?_push_of_marked hb hx]
  exact hx

/-- Once a block is marked, the entry leads to its successors through marked blocks. -/
theorem path_push (hb : ¬ Marked s b) (hp : PathIn succs (Marked s) entry b) {c : BlockId}
    (hc : c ∈ succs b) : PathIn succs (Marked (s.push b)) entry c :=
  (hp.mono fun _ => marked_push hb).tail (waits_push s b).marked hc

theorem marked_of_push {x : BlockId} (hx : Marked (s.push b) x) : Marked s x ∨ x = b := by
  rw [Marked, get?_push] at hx
  by_cases h : x = b
  · exact .inr h
  · rw [if_neg h] at hx
    exact .inl hx

theorem waits_push_of_ne {x : BlockId} {k : Nat} (hne : x ≠ b) :
    Waits (s.push b) x k ↔ Waits s x k := by
  rw [Waits, get?_push, if_neg hne, Waits]

theorem done_push (hb : ¬ Marked s b) {x : BlockId} : Done (s.push b) x ↔ Done s x := by
  rw [Done, get?_push]
  by_cases h : x = b
  · subst h
    rw [if_pos rfl]
    exact ⟨fun e => (by cases e), fun e => absurd (Done.marked e) hb⟩
  · rw [if_neg h, Done]

theorem consistent_push (hs : Consistent succs X s) (hb : ¬ Marked s b) :
    Consistent succs X (s.push b) where
  slot x k hx := by
    show (s.stack ++ [b])[k]? = some x
    by_cases h : x = b
    · subst h
      have : s.stack.length = k := (waits_push s x).unique hx
      subst this
      simp
    · have hx := (waits_push_of_ne h).mp hx
      rw [List.getElem?_append_left (hs.lt hx)]
      exact hs.slot x k hx
  closed x hx hX c hc := by
    rw [done_push hb] at hx ⊢
    exact hs.closed x hx hX c hc

variable (hb : ¬ Marked s b)
  (hv : Visits succs entry X (s.push b) (succs b) r s' t new)

include hv in
/-- What is complete after the successors of `b` and was not marked was not marked after `b` was. -/
theorem covered_of_done {x : BlockId} (hx : ¬ Marked s x) (hd : Done s' x) :
    Covered succs X new x := by
  refine hv.finds.complete x (fun hm => ?_) hd
  rcases marked_of_push hm with hm | rfl
  · exact hx hm
  · exact (hv.waits (waits_push s x)).not_done hd

include hv in
theorem waits_self : Waits s' b s.stack.length := hv.waits (waits_push s b)

include hv in
theorem not_mem_left : b ∉ t := fun h => (hv.left b h).1 (waits_push s b).marked

include hb hv in
theorem kept_after {x : BlockId} (hx : Marked s x) : s'.marks.get? x = s.marks.get? x :=
  (hv.kept x (marked_push hb hx)).trans (get?_push_of_marked hb hx)

include hb hv in
/-- The loops inside the successors are new for the block too. -/
theorem fresh_push {e : BlockId × List BlockId} (he : e ∈ new) {x : BlockId} (hx : x ∈ e.2) :
    ¬ Marked s x ∧ x ≠ b ∧ Done s' x := by
  obtain ⟨h1, h2⟩ := hv.finds.fresh e he x hx
  refine ⟨fun h => h1 (marked_push hb h), ?_, h2⟩
  rintro rfl
  exact h1 (waits_push s x).marked

/-- What is waiting among the successors of `b` bounds the position that is found. -/
theorem first_le (hb : ¬ Marked s b) (hv : Visits succs entry X (s.push b) (succs b) r s' t new)
    {x : BlockId} (hx : x ∈ b :: t) {y : BlockId} (hy : y ∈ succs x) {k : Nat}
    (hk : Waits s y k) : ∃ j, r = some j ∧ j ≤ k := by
  have hk' : Waits (s.push b) y k := by
    rw [Waits, get?_push_of_marked hb hk.marked]
    exact hk
  rcases List.mem_cons.mp hx with rfl | hx
  · exact hv.direct y hy k hk'
  · exact hv.bound x hx y hy k hk'

include hb hv in
/-- The visit of a block and its successors stays in what is closed under unmarked successors. -/
theorem within_push {C : BlockId → Prop} (hc : ∀ c ∈ [b], C c ∨ Marked s c)
    (hC : ∀ x, C x → ∀ y ∈ succs x, C y ∨ Marked s y) {x : BlockId} (hx : Marked s' x) :
    Marked s x ∨ C x := by
  have hCb : C b := (hc b (List.mem_singleton_self b)).resolve_right hb
  have h := hv.within C (fun c h => (hC b hCb c h).imp_right (marked_push hb))
    (fun y hy z hz => (hC y hy z hz).imp_right (marked_push hb)) x hx
  rcases h with h | h
  · rcases marked_of_push h with h | rfl
    · exact .inl h
    · exact .inr hCb
  · exact .inr h

/-- The successors lead below the block: it stays on the stack with what they have left. -/
theorem visits_left {k : Nat} (hb : ¬ Marked s b)
    (hv : Visits succs entry X (s.push b) (succs b) (some k) s' t new)
    (hk : k ≠ s.stack.length) : Visits succs entry X s [b] (some k) s' (b :: t) new where
  stack := by
    rw [hv.stack]
    show (s.stack ++ [b]) ++ t = _
    rw [List.append_assoc]
    rfl
  found := hv.found
  kept x hx := kept_after hb hv hx
  consistent := hv.consistent
  reached c hc := List.mem_singleton.mp hc ▸ (waits_self hv).marked
  done h := by cases h
  low j hj := by
    obtain ⟨y, hy, c, hc, p⟩ := hv.low j hj
    have hne : y ≠ b := by
      rintro rfl
      cases hj
      exact hk (hy.unique (waits_push s y))
    refine ⟨y, (waits_push_of_ne hne).mp hy, b, List.mem_singleton_self b, ?_⟩
    exact .head List.mem_cons_self hc (p.mono fun x hx => List.mem_cons_of_mem _ hx)
  direct c hc j hj := absurd (List.mem_singleton.mp hc ▸ hj.marked) hb
  bound x hx y hy j hj := first_le hb hv hx hy hj
  closed x hx y hy := by
    rcases List.mem_cons.mp hx with rfl | hx
    · exact hv.reached y hy
    · exact hv.closed x hx y hy
  left x hx := by
    rcases List.mem_cons.mp hx with rfl | hx
    · exact ⟨hb, _, waits_self hv, Nat.le_refl _⟩
    · obtain ⟨h1, j, h2, h3⟩ := hv.left x hx
      refine ⟨fun h => h1 (marked_push hb h), j, h2, Nat.le_trans ?_ h3⟩
      show s.stack.length ≤ (s.stack ++ [b]).length
      rw [List.length_append]
      exact Nat.le_add_right _ _
  fresh x hx := by
    rcases hv.fresh x hx with h | h | h
    · rcases marked_of_push h with h | rfl
      · exact .inl h
      · exact .inr (.inr List.mem_cons_self)
    · exact .inr (.inl h)
    · exact .inr (.inr (List.mem_cons_of_mem _ h))
  nodup := List.nodup_cons.mpr ⟨not_mem_left hv, hv.nodup⟩
  pred pre x post h := by
    cases pre with
    | nil => exact .inl ((List.cons.inj h).1 ▸ List.mem_singleton_self b)
    | cons z pre =>
      obtain ⟨rfl, h'⟩ := List.cons.inj h
      rcases hv.pred pre x post h' with hc | ⟨p, hp, hx⟩
      · exact .inr ⟨b, List.mem_cons_self, hc⟩
      · exact .inr ⟨p, List.mem_cons_of_mem _ hp, hx⟩
  back pre x post h := by
    cases pre with
    | nil =>
      obtain ⟨rfl, -⟩ := List.cons.inj h
      obtain ⟨y, hy, c, hc, p⟩ := hv.low k rfl
      have hne : y ≠ b := by
        rintro rfl
        exact hk (hy.unique (waits_push s y))
      exact ⟨y, .head List.mem_cons_self hc (p.mono fun x hx => List.mem_cons_of_mem _ hx),
        .inl ⟨k, (waits_push_of_ne hne).mp hy⟩⟩
    | cons z pre =>
      obtain ⟨rfl, h'⟩ := List.cons.inj h
      obtain ⟨y, p, hy⟩ := hv.back pre x post h'
      refine ⟨y, p.mono fun x hx => List.mem_cons_of_mem _ hx, ?_⟩
      rcases hy with ⟨j, hj⟩ | hy
      · by_cases hne : y = b
        · exact .inr (hne ▸ List.mem_cons_self)
        · exact .inl ⟨j, (waits_push_of_ne hne).mp hj⟩
      · exact .inr (List.mem_cons_of_mem _ hy)
  within C hc hC x hx := within_push hb hv hc hC hx
  finds :=
    { isLoop := hv.finds.isLoop
      fresh := fun e he x hx => ⟨(fresh_push hb hv he hx).1, (fresh_push hb hv he hx).2.2⟩
      nested := hv.finds.nested
      maximal := hv.finds.maximal
      complete := fun x hx hd => covered_of_done hv hx hd }

/-- The successors lead nowhere below: the block is complete. -/
theorem visits_complete (hs : Consistent succs X s) (hb : ¬ Marked s b)
    (hv : Visits succs entry X (s.push b) (succs b) none s' t new) :
    t = [] ∧
      Visits succs entry X s [b] none ({ s' with stack := s'.stack.dropLast }.complete b) [] new := by
  have ht : t = [] := by
    by_contra h
    obtain ⟨k, hk⟩ := hv.exists_low h
    cases hk
  subst ht
  refine ⟨rfl, ?_⟩
  have hget : ∀ x, ({ s' with stack := s'.stack.dropLast }.complete b).marks.get? x =
      if x = b then some .complete else s'.marks.get? x := fun x => Table.get?_set _ _ _ _
  have hdone : ∀ x, Done s' x → Done ({ s' with stack := s'.stack.dropLast }.complete b) x := by
    intro x hx
    rw [Done, hget]
    split
    · rfl
    · exact hx
  have hself : Done ({ s' with stack := s'.stack.dropLast }.complete b) b := by
    rw [Done, hget, if_pos rfl]
  have hmarked : ∀ x, Marked ({ s' with stack := s'.stack.dropLast }.complete b) x →
      x = b ∨ Marked s' x := by
    intro x hx
    rw [Marked, hget] at hx
    by_cases h : x = b
    · exact .inl h
    · rw [if_neg h] at hx
      exact .inr hx
  have hstack : s'.stack.dropLast = s.stack := by
    rw [hv.stack, List.append_nil]
    exact List.dropLast_concat
  refine .of_complete hb hstack hv.found (fun x hx => ?_) ⟨fun x k hx => ?_, fun x hx hX c hc => ?_⟩
    hself (fun x hx => ?_) (fun C hC hcl x hx => ?_) ⟨hv.finds.isLoop, fun e he x hx => ?_,
      hv.finds.nested, hv.finds.maximal, fun x hx hd => ?_⟩
  · have hne : x ≠ b := by
      rintro rfl
      exact hb hx
    rw [hget, if_neg hne]
    exact kept_after hb hv hx
  · have hne : x ≠ b := by
      rintro rfl
      exact hx.not_done hself
    have hx : Waits s' x k := by
      rw [Waits, hget, if_neg hne] at hx
      exact hx
    have hx : Waits s x k :=
      (waits_push_of_ne hne).mp ((hv.waits_or_mem hx).resolve_right List.not_mem_nil)
    show s'.stack.dropLast[k]? = some x
    rw [hstack]
    exact hs.slot x k hx
  · by_cases h : x = b
    · subst h
      exact hdone c (hv.done rfl c hc)
    · rw [Done, hget, if_neg h] at hx
      exact hdone c (hv.consistent.closed x hx hX c hc)
  · rcases hmarked x hx with rfl | hx
    · exact .inr hself
    · rcases hv.fresh x hx with h | h | h
      · rcases marked_of_push h with h | rfl
        · exact .inl h
        · exact .inr hself
      · exact .inr (hdone x h)
      · cases h
  · rcases hmarked x hx with rfl | hx
    · exact .inr hC
    · exact within_push hb hv (fun c hc => .inl (List.mem_singleton.mp hc ▸ hC)) hcl hx
  · exact ⟨(fresh_push hb hv he hx).1, hdone x (fresh_push hb hv he hx).2.2⟩
  · by_cases h : x = b
    · -- a cycle through the block would have made it complete before
      subst h
      refine .inr fun y hy hp => (waits_self hv).not_done ?_
      exact hv.consistent.done_of_path (hv.done rfl y hy) (hp.mono fun z hz hX => hz (.inl hX))
    · rw [Done, hget, if_neg h] at hd
      exact covered_of_done hv hx hd

include hv in
theorem stack_after : s'.stack = s.stack ++ b :: t := by
  rw [hv.stack]
  show (s.stack ++ [b]) ++ t = _
  rw [List.append_assoc]
  rfl

/-- A block that waits among the last of the stack is `b`. -/
theorem eq_of_waits_push (hs : Consistent succs X s) {y : BlockId} {k : Nat}
    (hy : Waits (s.push b) y k) (hk : s.stack.length ≤ k) : y = b := by
  by_contra hne
  have := hs.lt ((waits_push_of_ne hne).mp hy)
  omega

/-- The blocks on the stack from `b` on are strongly connected if they lead to nothing below. -/
theorem connected_of_visits (hs : Consistent succs X s)
    (hv : Visits succs entry X (s.push b) (succs b) (some s.stack.length) s' t new) :
    ∀ x ∈ b :: t, PathIn succs (· ∈ b :: t) b x ∧ PathIn succs (· ∈ b :: t) x b := by
  have hdown : ∀ x ∈ t, PathIn succs (· ∈ b :: t) b x := by
    refine forall_mem_of_split fun pre x post e ih => ?_
    rcases hv.pred pre x post e with hx | ⟨p, hp, hx⟩
    · exact .step List.mem_cons_self hx
    · have hpt : p ∈ t := by rw [e]; exact List.mem_append_left _ hp
      exact (ih p hp).tail (List.mem_cons_of_mem _ hpt) hx
  have hup : ∀ x ∈ t, PathIn succs (· ∈ b :: t) x b := by
    refine forall_mem_of_split fun pre x post e ih => ?_
    obtain ⟨y, p, hy⟩ := hv.back pre x post e
    have q : PathIn succs (· ∈ b :: t) x y := p.mono fun z hz => List.mem_cons_of_mem _ hz
    rcases hy with ⟨k, hk⟩ | hy
    · -- the path ends below the blocks left, so at `b`, since nothing earlier was found
      have hxt : x ∈ t := by rw [e]; simp
      have hne : x ≠ y := by
        rintro rfl
        exact (hv.left x hxt).1 hk.marked
      obtain ⟨z, -, hz, hyz⟩ := p.exists_last hne
      obtain ⟨j, hj, hjk⟩ := hv.bound z hz y hyz k hk
      cases hj
      exact eq_of_waits_push hs hk hjk ▸ q
    · exact q.trans (ih y hy)
  intro x hx
  rcases List.mem_cons.mp hx with rfl | hx
  · exact ⟨.refl x, .refl x⟩
  · exact ⟨hdown x hx, hup x hx⟩

/-- The blocks on the stack from `b` on, found as a loop. -/
theorem isLoop_of_visits (hs : Consistent succs X s) (hb : ¬ Marked s b)
    (hv : Visits succs entry X (s.push b) (succs b) (some s.stack.length) s' t new)
    (hp : PathIn succs (Marked s) entry b) : IsLoop succs entry (b, b :: t) where
  head := ⟨t, rfl⟩
  nodup := List.nodup_cons.mpr ⟨not_mem_left hv, hv.nodup⟩
  connected := connected_of_visits hs hv
  cycle := by
    obtain ⟨y, hy, c, hc, p⟩ := hv.low _ rfl
    obtain rfl := eq_of_waits_push hs hy (Nat.le_refl _)
    by_cases hcy : c = y
    · exact ⟨y, List.mem_cons_self, hcy ▸ hc⟩
    · obtain ⟨z, -, hz, hyz⟩ := p.exists_last hcy
      exact ⟨z, List.mem_cons_of_mem _ hz, hyz⟩
  first := by
    refine hp.mono fun x hx hm => ?_
    rcases List.mem_cons.mp hm with rfl | hm
    · exact hb hx
    · exact (hv.left x hm).1 (marked_push hb hx)

/-- Blocks on a cycle through `b` that avoids the headers around belong to the loop of `b`. -/
theorem maximal_of_visits (hs : Consistent succs X s) (hX : ∀ x, X x → Done s x)
    (hb : ¬ Marked s b)
    (hv : Visits succs entry X (s.push b) (succs b) (some s.stack.length) s' t new) {u : BlockId}
    (hu : PathIn succs (fun x => ¬ Around X new b x) b u)
    (hu' : PathIn succs (fun x => ¬ Around X new b x) u b) : u ∈ b :: t := by
  have hX' : ∀ x, ¬ Around X new b x → ¬ X x := fun x hx h => hx (.inl h)
  have hu := hu.mono hX'
  have hu' := hu'.mono hX'
  -- along the path either the loop goes on, or a complete block is met, which cannot lead back
  have hinv : u ∈ b :: t ∨ Done s' u ∨ X u := by
    refine hu.induct (R := fun x => x ∈ b :: t ∨ Done s' x ∨ X x) (.inl List.mem_cons_self) ?_
    intro x y hx hR hy
    rcases hR with hR | hR | hR
    · have hm : Marked s' y := by
        rcases List.mem_cons.mp hR with rfl | hR
        · exact hv.reached y hy
        · exact hv.closed x hR y hy
      rcases hm.cases with hd | ⟨k, hk⟩
      · exact .inr (.inl hd)
      · rcases hv.waits_or_mem hk with h | h
        · by_cases hne : y = b
          · exact .inl (hne ▸ List.mem_cons_self)
          · have hks := (waits_push_of_ne hne).mp h
            obtain ⟨j, hj, hjk⟩ := first_le hb hv hR hy hks
            cases hj
            exact absurd (hs.lt hks) (Nat.not_lt.mpr hjk)
        · exact .inl (List.mem_cons_of_mem _ h)
    · exact .inr (.inl (hv.consistent.closed x hR hx y hy))
    · exact absurd hR hx
  have hbd : ¬ Done s' b := (waits_self hv).not_done
  rcases hinv with h | h | h
  · exact h
  · exact absurd (hv.consistent.done_of_path h hu') hbd
  · have hdone : Done s' u := by
      rw [Done, kept_after hb hv (hX u h).marked]
      exact hX u h
    exact absurd (hv.consistent.done_of_path hdone hu') hbd

theorem get?_foldl_erase (bs : List BlockId) (m : Table BlockId LoopSearchMark) (x : BlockId) :
    (bs.foldl (fun m b => m.erase b) m).get? x = if x ∈ bs then none else m.get? x := by
  induction bs generalizing m with
  | nil => simp
  | cons c bs ih =>
    rw [List.foldl_cons, ih, Table.get?_erase]
    by_cases hx : x ∈ bs
    · rw [if_pos hx, if_pos (List.mem_cons_of_mem _ hx)]
    · rw [if_neg hx]
      by_cases hc : x = c
      · rw [if_pos hc, if_pos (hc ▸ List.mem_cons_self)]
      · rw [if_neg hc, if_neg]
        intro h
        rcases List.mem_cons.mp h with h | h
        · exact hc h
        · exact hx h

include hv in
theorem drop_stack_after : s'.stack.drop s.stack.length = b :: t := by
  rw [stack_after hv]
  exact List.drop_left

include hv in
/-- The blocks of a loop but the header are what the successors have left on the stack. -/
theorem drop_succ_stack_after : s'.stack.drop (s.stack.length + 1) = t := by
  rw [← List.tail_drop, drop_stack_after hv, List.tail_cons]

include hv in
theorem get?_recordLoop (x : BlockId) :
    (s'.recordLoop b s.stack.length).marks.get? x =
      if x ∈ t then none else if x = b then some .complete else s'.marks.get? x := by
  have h := get?_foldl_erase ((s'.stack.drop s.stack.length).drop 1) (s'.marks.set b .complete) x
  rw [drop_stack_after hv, List.drop_one, List.tail_cons, Table.get?_set] at h
  refine Eq.trans ?_ h
  unfold recordLoop complete
  rw [drop_stack_after hv]
  rfl

include hv in
theorem done_recordLoop_self : Done (s'.recordLoop b s.stack.length) b := by
  rw [Done, get?_recordLoop hv, if_neg (not_mem_left hv), if_pos rfl]

include hv in
/-- Recording a loop keeps the marks of all blocks outside of it. -/
theorem get?_recordLoop_of_not_mem {x : BlockId} (hx : x ∉ b :: t) :
    (s'.recordLoop b s.stack.length).marks.get? x = s'.marks.get? x := by
  have hne : x ≠ b := fun h => hx (h ▸ List.mem_cons_self)
  rw [get?_recordLoop hv, if_neg (fun h => hx (List.mem_cons_of_mem _ h)), if_neg hne]

include hv in
theorem done_recordLoop {x : BlockId} (hx : Done s' x) :
    Done (s'.recordLoop b s.stack.length) x := by
  by_cases h : x ∈ b :: t
  · rcases List.mem_cons.mp h with rfl | h
    · exact done_recordLoop_self hv
    · obtain ⟨-, k, hk, -⟩ := hv.left x h
      exact absurd hx hk.not_done
  · rw [Done, get?_recordLoop_of_not_mem hv h]
    exact hx

include hv in
/-- What is marked after a loop is recorded, and is not its header, was marked outside of it. -/
theorem marked_of_recordLoop {x : BlockId} (hx : Marked (s'.recordLoop b s.stack.length) x) :
    x = b ∨ x ∉ b :: t ∧ Marked s' x := by
  rw [Marked, get?_recordLoop hv] at hx
  by_cases h : x ∈ t
  · rw [if_pos h] at hx
    exact absurd rfl hx
  · rw [if_neg h] at hx
    by_cases hxb : x = b
    · exact .inl hxb
    · rw [if_neg hxb] at hx
      refine .inr ⟨fun hm => ?_, hx⟩
      rcases List.mem_cons.mp hm with hm | hm
      · exact hxb hm
      · exact h hm

include hv in
/-- What waits after a loop is recorded waited outside of it. -/
theorem waits_of_recordLoop {x : BlockId} {k : Nat}
    (hx : Waits (s'.recordLoop b s.stack.length) x k) : x ∉ b :: t ∧ Waits s' x k := by
  rcases marked_of_recordLoop hv hx.marked with rfl | ⟨hm, -⟩
  · exact absurd (done_recordLoop_self hv) hx.not_done
  · refine ⟨hm, ?_⟩
    rw [Waits, ← get?_recordLoop_of_not_mem hv hm]
    exact hx

include hv in
/-- The state in which the blocks of a loop are searched again. -/
theorem consistent_recordLoop :
    Consistent succs (fun x => X x ∨ x = b) (s'.recordLoop b s.stack.length) where
  slot x k hx := hv.consistent.slot x k (waits_of_recordLoop hv hx).2
  closed x hx hX c hc := by
    rw [not_or] at hX
    rcases marked_of_recordLoop hv hx.marked with rfl | ⟨hm, -⟩
    · exact absurd rfl hX.2
    · rw [Done, get?_recordLoop_of_not_mem hv hm] at hx
      exact done_recordLoop hv (hv.consistent.closed x hx hX.1 c hc)

include hb hv in
theorem get?_recordLoop_of_marked {x : BlockId} (hx : Marked s x) :
    (s'.recordLoop b s.stack.length).marks.get? x = s.marks.get? x := by
  have hm : x ∉ b :: t := by
    intro hm
    rcases List.mem_cons.mp hm with rfl | hm
    · exact hb hx
    · exact (hv.left x hm).1 (marked_push hb hx)
  rw [get?_recordLoop_of_not_mem hv hm, kept_after hb hv hx]

include hb hv in
theorem marked_recordLoop {x : BlockId} (hx : Marked s x) :
    Marked (s'.recordLoop b s.stack.length) x := by
  rw [Marked, get?_recordLoop_of_marked hb hv hx]
  exact hx

include hb hv in
/-- What is done before a loop is found stays done, and its header is done with it. -/
theorem done_recordLoop_of_done (hX : ∀ x, X x → Done s x) {x : BlockId} (hx : X x ∨ x = b) :
    Done (s'.recordLoop b s.stack.length) x := by
  rcases hx with hx | rfl
  · rw [Done, get?_recordLoop_of_marked hb hv (hX x hx).marked]
    exact hX x hx
  · exact done_recordLoop_self hv

/-- The entry leads to every block of a loop through marked blocks and earlier ones. -/
theorem path_recordLoop (hb : ¬ Marked s b)
    (hv : Visits succs entry X (s.push b) (succs b) r s' t new)
    (hp : PathIn succs (Marked s) entry b) {pre post : List BlockId} {c : BlockId}
    (e : t = pre ++ c :: post) :
    PathIn succs (fun x => Marked (s'.recordLoop b s.stack.length) x ∨ x ∈ pre) entry c := by
  have hpb : ∀ pre : List BlockId,
      PathIn succs (fun x => Marked (s'.recordLoop b s.stack.length) x ∨ x ∈ pre) entry b := by
    intro pre
    exact hp.mono fun x hx => .inl (marked_recordLoop hb hv hx)
  induction hn : pre.length using Nat.strongRecOn generalizing pre post c with
  | ind n ih =>
    rcases hv.pred pre c post e with hc | ⟨p, hp', hc⟩
    · exact (hpb pre).tail (.inl (done_recordLoop_self hv).marked) hc
    · obtain ⟨l, m, rfl⟩ := List.append_of_mem hp'
      have hlt : l.length < n := by rw [← hn, List.length_append]; simp
      have e' : t = l ++ p :: (m ++ c :: post) := by rw [e]; simp
      have := ih l.length hlt e' rfl
      refine (this.mono fun x hx => ?_).tail (.inr hp') hc
      exact hx.imp_right fun h => List.mem_append_left _ h

section Inside

variable {s'' : LoopSearch} {r' : Option Nat} {t' : List BlockId}
  {new' : List (BlockId × List BlockId)}
  (hi : Visits succs entry (fun x => X x ∨ x = b) (s'.recordLoop b s.stack.length) t r' s'' t' new')

include hv hi

/-- The search inside a loop reaches no other blocks. -/
theorem mem_inside {x : BlockId} (hx : Marked s'' x)
    (hn : ¬ Marked (s'.recordLoop b s.stack.length) x) : x ∈ t := by
  refine (hi.within (· ∈ t) (fun c hc => .inl hc) (fun x hx y hy => ?_) x hx).resolve_left hn
  by_cases hyt : y ∈ t
  · exact .inl hyt
  · right
    by_cases hyb : y = b
    · exact hyb ▸ (done_recordLoop_self hv).marked
    · have hm : y ∉ b :: t := fun h => (List.mem_cons.mp h).elim hyb hyt
      rw [Marked, get?_recordLoop_of_not_mem hv hm]
      exact hv.closed x hx y hy

/-- The search inside a loop leaves nothing on the stack: what it leaves would lead below the loop. -/
theorem eq_nil_inside (hs : Consistent succs X s) (hb : ¬ Marked s b)
    (hr : r = some s.stack.length) : t' = [] := by
  by_contra hne
  obtain ⟨k, rfl⟩ := hi.exists_low hne
  obtain ⟨y, hy, c, hc, p⟩ := hi.low k rfl
  obtain ⟨hyt, hy⟩ := waits_of_recordLoop hv hy
  have hyb : y ≠ b := fun e => hyt (e ▸ List.mem_cons_self)
  have hy : Waits s y k := (waits_push_of_ne hyb).mp
    ((hv.waits_or_mem hy).resolve_right fun h => hyt (List.mem_cons_of_mem _ h))
  have hcy : c ≠ y := fun e => hyt (e ▸ List.mem_cons_of_mem _ hc)
  obtain ⟨x, -, hx, hxy⟩ := p.exists_last hcy
  obtain ⟨hnew, j, hj, -⟩ := hi.left x hx
  have hxt := mem_inside hv hi hj.marked hnew
  obtain ⟨m, hm, hmk⟩ := first_le hb hv (List.mem_cons_of_mem _ hxt) hxy hy
  rw [hr] at hm
  cases hm
  exact absurd (hs.lt hy) (Nat.not_lt.mpr hmk)

end Inside

/-- The blocks of a loop but the header are complete once they have been searched again. -/
theorem done_inside {s'' : LoopSearch} {r' : Option Nat} {new' : List (BlockId × List BlockId)}
    (hv : Visits succs entry X (s.push b) (succs b) r s' t new)
    (hi : Visits succs entry (fun x => X x ∨ x = b) (s'.recordLoop b s.stack.length) t r' s'' []
      new') {x : BlockId} (hx : x ∈ t) : Done s'' x := by
  rcases hi.fresh x (hi.reached x hx) with h | h | h
  · rcases marked_of_recordLoop hv h with rfl | ⟨hm, -⟩
    · exact absurd hx (not_mem_left hv)
    · exact absurd (List.mem_cons_of_mem _ hx) hm
  · exact h
  · cases h

/-- The loops found in the successors, the loop of the block, and the loops found inside. -/
theorem finds_recordLoop (hs : Consistent succs X s) (hX : ∀ x, X x → Done s x)
    (hb : ¬ Marked s b)
    (hv : Visits succs entry X (s.push b) (succs b) (some s.stack.length) s' t new)
    (hp : PathIn succs (Marked s) entry b) {s'' : LoopSearch} {r' : Option Nat}
    {new' : List (BlockId × List BlockId)}
    (hi : Visits succs entry (fun x => X x ∨ x = b) (s'.recordLoop b s.stack.length) t r' s'' []
      new') :
    Finds succs entry X s s'' (new ++ (b, b :: t) :: new') where
  isLoop e he := by
    rcases List.mem_append.mp he with he | he
    · exact hv.finds.isLoop e he
    · rcases List.mem_cons.mp he with rfl | he
      · exact isLoop_of_visits hs hb hv hp
      · exact hi.finds.isLoop e he
  fresh e he x hx := by
    rcases List.mem_append.mp he with he | he
    · obtain ⟨h1, -, h3⟩ := fresh_push hb hv he hx
      exact ⟨h1, hi.done' (done_recordLoop hv h3)⟩
    · rcases List.mem_cons.mp he with rfl | he
      · rcases List.mem_cons.mp hx with rfl | hx
        · exact ⟨hb, hi.done' (done_recordLoop_self hv)⟩
        · exact ⟨fun h => (hv.left x hx).1 (marked_push hb h), done_inside hv hi hx⟩
      · obtain ⟨h1, h2⟩ := hi.finds.fresh e he x hx
        exact ⟨fun h => h1 (marked_recordLoop hb hv h), h2⟩
  nested := by
    refine List.pairwise_append.mpr ⟨hv.finds.nested, List.pairwise_cons.mpr
      ⟨fun e he => ?_, hi.finds.nested⟩, fun e he e' he' => .inr fun x hx hxe => ?_⟩
    · refine .inl fun x hx => ?_
      obtain ⟨h1, h2⟩ := hi.finds.fresh e he x hx
      have hxt := mem_inside hv hi h2.marked h1
      exact ⟨List.mem_cons_of_mem _ hxt, fun e : x = b => not_mem_left hv (e ▸ hxt)⟩
    · obtain ⟨-, -, hd⟩ := fresh_push hb hv he hxe
      rcases List.mem_cons.mp he' with rfl | he'
      · rcases List.mem_cons.mp hx with rfl | hx
        · exact (waits_self hv).not_done hd
        · obtain ⟨-, k, hk, -⟩ := hv.left x hx
          exact hk.not_done hd
      · exact (hi.finds.fresh e' he' x hx).1 (done_recordLoop hv hd).marked
  maximal pre e post heq u hu hu' := by
    have hself : new = pre → (b, b :: t) = e → u ∈ e.2 := by
      rintro rfl rfl
      exact maximal_of_visits hs hX hb hv hu hu'
    rcases List.append_eq_append_iff.mp heq with ⟨l, h1, h2⟩ | ⟨l, h1, h2⟩
    · cases l with
      | nil => exact hself (by rw [h1, List.append_nil]) (List.cons.inj h2).1
      | cons d l =>
        obtain ⟨rfl, h3⟩ := List.cons.inj h2
        have he : e ∈ new' := by rw [h3]; simp
        obtain ⟨h4, h5⟩ := hi.finds.fresh e he e.1 (hi.finds.isLoop e he).header_mem
        have hmono : ∀ x, ¬ Around X pre e.1 x → ¬ Around (fun x => X x ∨ x = b) l e.1 x := by
          rintro x hx ((h | rfl) | ⟨d, hd, hdx⟩)
          · exact hx (.inl h)
          · refine hx (.inr ⟨(x, x :: t), ?_, rfl, List.mem_cons_of_mem _ ?_⟩)
            · rw [h1]
              exact List.mem_append_right _ List.mem_cons_self
            · exact mem_inside hv hi h5.marked h4
          · exact hx (.inr ⟨d, h1 ▸ List.mem_append_right _ (List.mem_cons_of_mem _ hd), hdx⟩)
        exact hi.finds.maximal l e post h3 u (hu.mono hmono) (hu'.mono hmono)
    · cases l with
      | nil => exact hself (by rw [h1, List.append_nil]) (List.cons.inj h2).1.symm
      | cons d l =>
        obtain ⟨rfl, -⟩ := List.cons.inj h2
        exact hv.finds.maximal pre e l h1 u hu hu'
  complete x hx hd := by
    by_cases hxb : x = b
    · exact .inl ⟨(b, b :: t), by simp, hxb.symm⟩
    have hnew : ∀ e ∈ new, e ∈ new ++ (b, b :: t) :: new' := fun _ => List.mem_append_left _
    have hnew' : ∀ e ∈ new', e ∈ new ++ (b, b :: t) :: new' := fun _ he => by simp [he]
    by_cases hxt : x ∈ t
    · have hm : ¬ Marked (s'.recordLoop b s.stack.length) x := by
        rw [Marked, get?_recordLoop hv, if_pos hxt]
        exact fun h => h rfl
      refine (hi.finds.complete x hm hd).mono hnew' fun z hz => ?_
      rcases hz with (hz | rfl) | ⟨e, he, hz⟩
      · exact .inl hz
      · exact .inr ⟨(z, z :: t), by simp, rfl, List.mem_cons_of_mem _ hxt⟩
      · exact .inr ⟨e, hnew' e he, hz⟩
    · have hmem : x ∉ b :: t := fun h => (List.mem_cons.mp h).elim hxb hxt
      have hm : Marked (s'.recordLoop b s.stack.length) x := by
        by_contra hm
        exact hxt (mem_inside hv hi hd.marked hm)
      have hd : Done s' x := by
        rw [Done, ← get?_recordLoop_of_not_mem hv hmem, ← hi.kept x hm]
        exact hd
      exact (covered_of_done hv hx hd).mono hnew fun z hz => hz.mono hnew

/-- A loop with what is found inside: all its blocks are complete. -/
theorem visits_loop (hs : Consistent succs X s) (hX : ∀ x, X x → Done s x) (hb : ¬ Marked s b)
    (hv : Visits succs entry X (s.push b) (succs b) (some s.stack.length) s' t new)
    (hp : PathIn succs (Marked s) entry b) {s'' : LoopSearch} {r' : Option Nat}
    {new' : List (BlockId × List BlockId)}
    (hi : Visits succs entry (fun x => X x ∨ x = b) (s'.recordLoop b s.stack.length) t r' s'' []
      new') :
    Visits succs entry X s [b] none { s'' with stack := s''.stack.take s.stack.length } []
      (new ++ (b, b :: t) :: new') := by
  have hstack : s''.stack.take s.stack.length = s.stack := by
    rw [hi.stack, List.append_nil]
    show s'.stack.take s.stack.length = s.stack
    rw [stack_after hv]
    exact List.take_left
  have hbd : Done s'' b := hi.done' (done_recordLoop_self hv)
  have hf := finds_recordLoop hs hX hb hv hp hi
  refine .of_complete hb hstack ?_ (fun x hx => ?_) ⟨fun x k hx => ?_, fun x hx hXx c hc => ?_⟩
    hbd (fun x hx => ?_) (fun C hC hcl x hx => ?_)
      ⟨hf.isLoop, hf.fresh, hf.nested, hf.maximal, hf.complete⟩
  · show s''.found = _
    rw [hi.found]
    show (s'.found ++ [(b, s'.stack.drop s.stack.length)]) ++ new' = _
    rw [drop_stack_after hv, hv.found]
    show ((s.found ++ new) ++ [(b, b :: t)]) ++ new' = _
    simp
  · exact (hi.kept x (marked_recordLoop hb hv hx)).trans (get?_recordLoop_of_marked hb hv hx)
  · obtain ⟨hm, hw⟩ :=
      waits_of_recordLoop hv ((hi.waits_or_mem hx).resolve_right List.not_mem_nil)
    have hw := (hv.waits_or_mem hw).resolve_right fun h => hm (List.mem_cons_of_mem _ h)
    have hne : x ≠ b := fun h => hm (h ▸ List.mem_cons_self)
    have hw := (waits_push_of_ne hne).mp hw
    show (s''.stack.take s.stack.length)[k]? = some x
    rw [hstack]
    exact hs.slot x k hw
  · by_cases hxb : x = b
    · subst hxb
      rcases (hv.reached c hc).cases with h | ⟨k, hk⟩
      · exact hi.done' (done_recordLoop hv h)
      · rcases hv.waits_or_mem hk with h | h
        · by_cases hcx : c = x
          · exact hcx ▸ hbd
          · have hcs := (waits_push_of_ne hcx).mp h
            obtain ⟨j, hj, hjk⟩ := first_le hb hv List.mem_cons_self hc hcs
            cases hj
            exact absurd (hs.lt hcs) (Nat.not_lt.mpr hjk)
        · exact done_inside hv hi h
    · exact hi.consistent.closed x hx (fun h => h.elim hXx hxb) c hc
  · rcases hi.fresh x hx with h | h | h
    · rcases marked_of_recordLoop hv h with rfl | ⟨hm, h⟩
      · exact .inr hbd
      · rcases hv.fresh x h with h | h | h
        · exact .inl ((marked_of_push h).resolve_right fun e => hm (e ▸ List.mem_cons_self))
        · exact .inr (hi.done' (done_recordLoop hv h))
        · exact absurd (List.mem_cons_of_mem _ h) hm
    · exact .inr h
    · cases h
  · have hin : ∀ y, Marked s' y → Marked s y ∨ C y := fun y hy =>
      within_push hb hv (fun c hc => .inl (List.mem_singleton.mp hc ▸ hC)) hcl hy
    have hleft : ∀ c ∈ t, C c ∨ Marked (s'.recordLoop b s.stack.length) c := fun c hc => by
      obtain ⟨h1, k, h2, -⟩ := hv.left c hc
      exact .inl ((hin c h2.marked).resolve_left fun h => h1 (marked_push hb h))
    rcases hi.within C hleft (fun y hy z hz => (hcl y hy z hz).imp_right (marked_recordLoop hb hv)) x hx with h | h
    · rcases marked_of_recordLoop hv h with rfl | ⟨-, h⟩
      · exact .inr hC
      · exact hin x h
    · exact .inr h

end Enter

/-! ## All blocks -/

/-- Every visit does what it should. -/
theorem visits_visit (fuel : Nat) : VisitSpec succs entry fuel := by
  induction fuel with
  | zero =>
    intro X b s r s' h
    cases h
  | succ fuel ih =>
    intro X b s r s' h hs hX hp
    unfold visit at h
    by_cases hm : Marked s b
    · rcases hm.cases with hd | ⟨k, hk⟩
      · have hd' : s.marks.get? b = some .complete := hd
        rw [hd'] at h
        cases h
        have hv : Visits succs entry X s [b] _ s [] [] := Visits.of_marked hs hm
        rw [hd'] at hv
        exact ⟨[], [], hv⟩
      · have hk' : s.marks.get? b = some (.pending k) := hk
        rw [hk'] at h
        cases h
        have hv : Visits succs entry X s [b] _ s [] [] := Visits.of_marked hs hm
        rw [hk'] at hv
        exact ⟨[], [], hv⟩
    · have hb := hm
      have hn : s.marks.get? b = none := by
        by_contra h
        exact hb h
      rw [hn] at h
      obtain ⟨⟨first, s₁⟩, h1, h⟩ := exists_of_bind_eq_ok h
      obtain ⟨t, new, hv⟩ := visits_foldlM ih (consistent_push hs hb)
        (fun x hx => (done_push hb).mpr (hX x hx)) (succs b) (fun pre c post e =>
          (path_push hb hp (by rw [e]; simp)).mono fun _ => .inl) h1
      dsimp only at h
      by_cases hfirst : first = some s.stack.length
      · subst hfirst
        rw [if_pos rfl] at h
        obtain ⟨s₂, h2, h⟩ := exists_of_bind_eq_ok h
        rw [drop_succ_stack_after hv] at h2
        obtain ⟨r', h2⟩ := visits_of_foldlM_snd t none h2
        have hX' : ∀ x, X x ∨ x = b → Done (s₁.recordLoop b s.stack.length) x :=
          fun _ hx => done_recordLoop_of_done hb hv hX hx
        obtain ⟨t', new', hi⟩ := visits_foldlM ih (consistent_recordLoop hv) hX' t
          (fun pre c post e => path_recordLoop hb hv hp e) h2
        split at h
        · cases h
        · rename_i hlen
          cases h
          have ht' : t' = [] := by
            have h3 := congrArg List.length hi.stack
            rw [List.length_append] at h3
            have h4 : s₂.stack.length = s₁.stack.length := Decidable.not_not.mp hlen
            have h5 : (s₁.recordLoop b s.stack.length).stack.length = s₁.stack.length := rfl
            exact List.length_eq_zero_iff.mp (by omega)
          subst ht'
          exact ⟨[], _, visits_loop hs hX hb hv hp hi⟩
      · rw [if_neg hfirst] at h
        cases first with
        | none =>
          rw [if_pos rfl] at h
          split at h
          · cases h
          · cases h
            exact ⟨[], new, (visits_complete hs hb hv).2⟩
        | some k =>
          rw [if_neg (by intro e; cases e)] at h
          cases h
          exact ⟨b :: t, new, visits_left hb hv fun e => hfirst (e ▸ rfl)⟩

theorem not_waits_empty (b : BlockId) (k : Nat) : ¬ Waits {} b k := fun e => by cases e

/-- At the start no block is marked. -/
theorem consistent_empty : Consistent succs X {} :=
  ⟨fun b k e => absurd e (not_waits_empty b k), fun b e => by cases e⟩

theorem visits_run {g : Cfg} {s : LoopSearch} (h : run g = .ok s) :
    ∃ r t new, Visits g.succs g.entry (fun _ => False) {} [g.entry] r s t new := by
  obtain ⟨⟨r, s'⟩, h1, h2⟩ := exists_of_bind_eq_ok h
  cases h2
  have hspec : VisitSpec g.succs g.entry (g.succTable.size + 2) := visits_visit _
  obtain ⟨t, new, hv⟩ := hspec (fun _ => False) _ _ _ _ h1 consistent_empty (fun _ e => e.elim)
    (.refl _)
  exact ⟨r, t, new, hv⟩

/-- The search from the entry of a graph, with what it finds. -/
theorem finds_run {g : Cfg} {s : LoopSearch} (h : run g = .ok s) :
    Finds g.succs g.entry (fun _ => False) {} s s.found := by
  obtain ⟨r, t, new, hv⟩ := visits_run h
  have hf : s.found = new := hv.found
  exact hf ▸ hv.finds

/-- The search completes every block that it can reach. -/
theorem done_of_run {g : Cfg} {s : LoopSearch} (h : run g = .ok s) {b : BlockId}
    (hb : PathIn g.succs (fun _ => True) g.entry b) : Done s b := by
  obtain ⟨r, t, new, hv⟩ := visits_run h
  have hr : r = none := by
    cases r with
    | none => rfl
    | some k =>
      obtain ⟨y, hy, -⟩ := hv.low k rfl
      exact absurd hy (not_waits_empty y k)
  refine hv.consistent.done_of_path (hv.done hr _ (List.mem_singleton_self _)) ?_
  exact hb.mono fun _ _ h => h

end LoopSearch

end Lockstep
