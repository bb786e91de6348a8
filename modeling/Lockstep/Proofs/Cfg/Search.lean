import Lockstep.Cfg.Search
import Mathlib.Data.Finset.Card
import Mathlib.Data.List.Nodup
import Mathlib.Logic.Relation

/-!
# What a depth-first search finds

`Explored` says what a search adds to its state: the nodes left, newest first, are new, they are
closed under successors, each has been reached from a root or from a node listed before it, and an
edge goes back in the list only if it closes a cycle, of nodes that are listed no earlier than the one
it leads to. `explored_visit` proves it for a search that
has enough fuel, `explored_visitAll` for a search from several roots.
-/

namespace Lockstep

/-- Where two lists meet, an element stands in the first or in the second. -/
theorem append_eq_append_cons {α : Type} {xs ys before after : List α} {a : α}
    (h : xs ++ ys = before ++ a :: after) : (∃ rest, xs = before ++ a :: rest ∧ after = rest ++ ys) ∨
      ∃ mid, before = xs ++ mid ∧ ys = mid ++ a :: after := by
  rcases List.append_eq_append_iff.mp h with ⟨mid, h1, h2⟩ | ⟨mid, h1, h2⟩
  · exact .inr ⟨mid, h1, h2⟩
  · cases mid with
    | nil => exact .inr ⟨[], by simpa using h1.symm, h2.symm⟩
    | cons x rest =>
      obtain ⟨rfl, h3⟩ := List.cons.inj h2
      exact .inl ⟨rest, h1, h3⟩

/-- A path whose nodes, but for the last, satisfy `P`. -/
def PathIn (succs : Nat → List Nat) (P : Nat → Prop) : Nat → Nat → Prop :=
  Relation.ReflTransGen fun a b => P a ∧ b ∈ succs a

namespace PathIn

variable {succs : Nat → List Nat} {P Q : Nat → Prop} {a b c : Nat}

theorem refl (a : Nat) : PathIn succs P a a := Relation.ReflTransGen.refl

theorem trans (h : PathIn succs P a b) (k : PathIn succs P b c) : PathIn succs P a c :=
  Relation.ReflTransGen.trans h k

theorem step (ha : P a) (h : b ∈ succs a) : PathIn succs P a b :=
  Relation.ReflTransGen.single ⟨ha, h⟩

theorem head (ha : P a) (h : b ∈ succs a) (k : PathIn succs P b c) : PathIn succs P a c :=
  Relation.ReflTransGen.head ⟨ha, h⟩ k

theorem tail (h : PathIn succs P a b) (hb : P b) (k : c ∈ succs b) : PathIn succs P a c :=
  Relation.ReflTransGen.tail h ⟨hb, k⟩

theorem mono (h : PathIn succs P a b) (hpq : ∀ x, P x → Q x) : PathIn succs Q a b :=
  Relation.ReflTransGen.mono (fun x _ e => ⟨hpq x e.1, e.2⟩) a b h

/-- A path between different nodes has a last step. -/
theorem exists_last (h : PathIn succs P a b) (hne : a ≠ b) :
    ∃ x, PathIn succs P a x ∧ P x ∧ b ∈ succs x := by
  rcases Relation.ReflTransGen.cases_tail h with e | ⟨x, hx, hP, hb⟩
  · exact absurd e.symm hne
  · exact ⟨x, hx, hP, hb⟩

/-- What holds at the start and is kept by steps from nodes with `P` holds at the end. -/
theorem induct {R : Nat → Prop} (h : PathIn succs P a b) (ha : R a)
    (hs : ∀ x y, P x → R x → y ∈ succs x → R y) : R b := by
  induction h with
  | refl => exact ha
  | tail _ e ih => exact hs _ _ e.1 ih e.2

/-- A path either avoids the nodes with `Q`, or has a last one, after which it avoids them. -/
theorem avoid_or_last (Q : Nat → Prop) (h : PathIn succs P a b) :
    PathIn succs (fun x => P x ∧ ¬ Q x) a b ∨
      ∃ x y, PathIn succs P a x ∧ P x ∧ Q x ∧ y ∈ succs x ∧
        PathIn succs (fun x => P x ∧ ¬ Q x) y b := by
  induction h with
  | refl => exact .inl (.refl a)
  | @tail u v hu e ih =>
    by_cases hq : Q u
    · exact .inr ⟨u, v, hu, e.1, hq, e.2, .refl v⟩
    · rcases ih with ih | ⟨x, y, hx, hPx, hQx, hy, ih⟩
      · exact .inl (ih.tail ⟨e.1, hq⟩ e.2)
      · exact .inr ⟨x, y, hx, hPx, hQx, hy, ih.tail ⟨e.1, hq⟩ e.2⟩

/-- A path to a node with `Q` has a first such node. -/
theorem exists_first (Q : Nat → Prop) (h : PathIn succs P a b) (hb : Q b) :
    ∃ c, Q c ∧ PathIn succs (fun x => P x ∧ ¬ Q x) a c := by
  have h : PathIn succs (fun x => P x ∧ ¬ Q x) a b ∨
      ∃ c, Q c ∧ PathIn succs (fun x => P x ∧ ¬ Q x) a c := by
    clear hb
    induction h with
    | refl => exact .inl (.refl a)
    | @tail u v hu e ih =>
      rcases ih with ih | ih
      · by_cases hq : Q u
        · exact .inr ⟨u, hq, ih⟩
        · exact .inl (ih.tail ⟨e.1, hq⟩ e.2)
      · exact .inr ih
  rcases h with h | h
  · exact ⟨b, hb, h⟩
  · exact h

end PathIn

namespace Search

variable {next : Nat → List Nat} {n : Nat}

/-- `b` is reached from `a` along edges. -/
def Reach (next : Nat → List Nat) : Nat → Nat → Prop :=
  Relation.ReflTransGen fun a b => b ∈ next a

theorem Reach.refl (a : Nat) : Reach next a a := Relation.ReflTransGen.refl

theorem Reach.trans {a b c : Nat} (h : Reach next a b) (k : Reach next b c) : Reach next a c :=
  Relation.ReflTransGen.trans h k

theorem Reach.step {a b : Nat} (h : b ∈ next a) : Reach next a b :=
  Relation.ReflTransGen.single h

theorem Reach.head {a b c : Nat} (h : b ∈ next a) (k : Reach next b c) : Reach next a c :=
  Relation.ReflTransGen.head h k

theorem Reach.tail {a b c : Nat} (h : Reach next a b) (k : c ∈ next b) : Reach next a c :=
  Relation.ReflTransGen.tail h k

theorem Reach.of_path {P : Nat → Prop} {a b : Nat} (h : PathIn next P a b) : Reach next a b :=
  Relation.ReflTransGen.mono (fun _ _ e => e.2) _ _ h

/-- A set that is closed under successors holds what its members reach. -/
theorem Reach.closed {P : Nat → Prop} {a b : Nat} (h : Reach next a b)
    (hs : ∀ x, P x → ∀ y ∈ next x, P y) (ha : P a) : P b := by
  induction h with
  | refl => exact ha
  | tail _ hxy ih => exact hs _ ih _ hxy

/-! ## What is explored -/

/-- What a search from the roots `roots` did between two states; `new` holds the nodes that it
left, newest first. -/
structure Explored (next : Nat → List Nat) (roots : Nat → Prop) (s s' : Search)
    (new : List Nat) : Prop where
  left_eq : s'.left = new ++ s.left
  mem_seen : ∀ x, x ∈ s'.seen ↔ x ∈ s.seen ∨ x ∈ new
  nodup : new.Nodup
  fresh : ∀ x ∈ new, x ∉ s.seen
  closed : ∀ x ∈ new, ∀ y ∈ next x, y ∈ s'.seen
  reachedIn : ∀ x ∈ new, ∃ r, roots r ∧ PathIn next (· ∈ new) r x
  grown : ∀ pre x post, new = pre ++ x :: post → roots x ∨ ∃ p ∈ pre, x ∈ next p
  back : ∀ pre x post, new = pre ++ x :: post → ∀ y ∈ next x, y ∈ post ∨ y ∈ s.seen ∨
    ∃ before after, new = before ++ y :: after ∧ PathIn next (· ∈ y :: after) y x

namespace Explored

variable {roots roots' : Nat → Prop} {s s' s'' : Search} {new new' : List Nat}

theorem nil (s : Search) : Explored next roots s s [] where
  left_eq := rfl
  mem_seen x := by simp
  nodup := List.nodup_nil
  fresh x h := by cases h
  closed x h := by cases h
  reachedIn x h := by cases h
  grown pre x post h := by simp at h
  back pre x post h := by simp at h

theorem mono (h : Explored next roots s s' new) (hr : ∀ r, roots r → roots' r) :
    Explored next roots' s s' new where
  left_eq := h.left_eq
  mem_seen := h.mem_seen
  nodup := h.nodup
  fresh := h.fresh
  closed := h.closed
  reachedIn x hx := by
    obtain ⟨r, h1, h2⟩ := h.reachedIn x hx
    exact ⟨r, hr r h1, h2⟩
  grown pre x post e := (h.grown pre x post e).imp_left (hr x)
  back := h.back

theorem reached (h : Explored next roots s s' new) :
    ∀ x ∈ new, ∃ r, roots r ∧ Reach next r x := fun x hx => by
  obtain ⟨r, hr, hp⟩ := h.reachedIn x hx
  exact ⟨r, hr, .of_path hp⟩

/-- One search after the other. -/
theorem append (h : Explored next roots s s' new) (k : Explored next roots s' s'' new') :
    Explored next roots s s'' (new' ++ new) where
  left_eq := by rw [k.left_eq, h.left_eq, List.append_assoc]
  mem_seen x := by
    rw [k.mem_seen, h.mem_seen, List.mem_append]
    tauto
  nodup := by
    refine List.nodup_append.mpr ⟨k.nodup, h.nodup, ?_⟩
    rintro x hx y hy rfl
    exact k.fresh x hx ((h.mem_seen x).mpr (.inr hy))
  fresh x hx := by
    rcases List.mem_append.mp hx with hx | hx
    · exact fun e => k.fresh x hx ((h.mem_seen x).mpr (.inl e))
    · exact h.fresh x hx
  closed x hx y hy := by
    rcases List.mem_append.mp hx with hx | hx
    · exact k.closed x hx y hy
    · exact (k.mem_seen y).mpr (.inl (h.closed x hx y hy))
  reachedIn x hx := by
    rcases List.mem_append.mp hx with hx | hx
    · obtain ⟨r, hr, hp⟩ := k.reachedIn x hx
      exact ⟨r, hr, hp.mono fun z hz => List.mem_append_left _ hz⟩
    · obtain ⟨r, hr, hp⟩ := h.reachedIn x hx
      exact ⟨r, hr, hp.mono fun z hz => List.mem_append_right _ hz⟩
  grown pre x post e := by
    rcases append_eq_append_cons e with ⟨rest, h1, -⟩ | ⟨mid, rfl, h2⟩
    · exact k.grown pre x rest h1
    · obtain hr | ⟨p, hp, hx⟩ := h.grown mid x post h2
      · exact .inl hr
      · exact .inr ⟨p, List.mem_append_right _ hp, hx⟩
  back pre x post e y hy := by
    rcases append_eq_append_cons e with ⟨rest, h1, rfl⟩ | ⟨mid, rfl, h2⟩
    · rcases k.back pre x rest h1 y hy with h3 | h3 | ⟨before, after, rfl, hp⟩
      · exact .inl (List.mem_append_left _ h3)
      · rcases (h.mem_seen y).mp h3 with h4 | h4
        · exact .inr (.inl h4)
        · exact .inl (List.mem_append_right _ h4)
      · refine .inr (.inr ⟨before, after ++ new, by simp, hp.mono fun z hz => ?_⟩)
        exact List.mem_append_left new hz
    · refine (h.back mid x post h2 y hy).imp_right (Or.imp_right ?_)
      rintro ⟨before, after, rfl, hp⟩
      exact ⟨new' ++ before, after, by simp, hp⟩

end Explored

/-! ## The search -/

/-- The nodes below `n` that have not been seen. -/
def unseen (n : Nat) (s : Search) : Finset Nat := Finset.range n \ s.seen.toFinset

theorem mem_unseen {s : Search} {x : Nat} : x ∈ unseen n s ↔ x < n ∧ x ∉ s.seen := by
  simp [unseen]

/-- Entering an unseen node leaves fewer unseen ones. -/
theorem card_unseen_enter {s : Search} {b : Nat} (hb : b < n) (h : b ∉ s.seen) :
    (unseen n (s.enter b)).card < (unseen n s).card := by
  refine Finset.card_lt_card ((Finset.ssubset_iff_of_subset fun x hx => ?_).mpr
    ⟨b, mem_unseen.mpr ⟨hb, h⟩, ?_⟩)
  · obtain ⟨h1, h2⟩ := mem_unseen.mp hx
    exact mem_unseen.mpr ⟨h1, fun e => h2 (List.mem_cons_of_mem _ e)⟩
  · exact fun e => (mem_unseen.mp e).2 List.mem_cons_self

theorem Explored.card_unseen_le {roots : Nat → Prop} {s s' : Search} {new : List Nat}
    (h : Explored next roots s s' new) : (unseen n s').card ≤ (unseen n s).card := by
  refine Finset.card_le_card fun x hx => ?_
  obtain ⟨h1, h2⟩ := mem_unseen.mp hx
  exact mem_unseen.mpr ⟨h1, fun e => h2 ((h.mem_seen x).mpr (.inl e))⟩

/-- What a search that does `visit` explores from several roots. -/
theorem explored_foldl {go : Search → Nat → Search} {fuel : Nat} (cs : List Nat)
    (hgo : ∀ (s : Search) (c : Nat), c ∈ cs → (unseen n s).card < fuel →
      ∃ new, Explored next (· = c) s (go s c) new ∧ c ∈ (go s c).seen)
    (s : Search) (hs : (unseen n s).card < fuel) :
    ∃ new, Explored next (· ∈ cs) s (cs.foldl go s) new ∧ ∀ c ∈ cs, c ∈ (cs.foldl go s).seen := by
  induction cs generalizing s with
  | nil => exact ⟨[], .nil s, fun c hc => by cases hc⟩
  | cons c cs ih =>
    obtain ⟨new, h, hc⟩ := hgo s c List.mem_cons_self hs
    obtain ⟨new', h', hcs⟩ := ih (fun s d hd => hgo s d (List.mem_cons_of_mem _ hd)) (go s c)
      (Nat.lt_of_le_of_lt h.card_unseen_le hs)
    refine ⟨new' ++ new, ?_, fun d hd => ?_⟩
    · exact (h.mono fun r e => e ▸ List.mem_cons_self).append
        (h'.mono fun r e => List.mem_cons_of_mem _ e)
    · rcases List.mem_cons.mp hd with rfl | hd
      · exact (h'.mem_seen d).mpr (.inl hc)
      · exact hcs d hd

/-- A node leads to all that is explored from its successors. -/
theorem Explored.path_from {s s' : Search} {b x : Nat} {new : List Nat}
    (h : Explored next (· ∈ next b) s s' new) (hx : x ∈ new) : PathIn next (· ∈ b :: new) b x := by
  obtain ⟨r, hr, hp⟩ := h.reachedIn x hx
  exact .head List.mem_cons_self hr (hp.mono fun z hz => List.mem_cons_of_mem _ hz)

/-- What is explored from a node, given what is explored from its successors. -/
theorem Explored.enter_leave {s s' : Search} {b : Nat} {new : List Nat} (hb : b ∉ s.seen)
    (h : Explored next (· ∈ next b) (s.enter b) s' new) (hc : ∀ c ∈ next b, c ∈ s'.seen) :
    Explored next (· = b) s (s'.leave b) (b :: new) where
  left_eq := by
    show b :: s'.left = b :: (new ++ s.left)
    rw [h.left_eq]
    rfl
  mem_seen x := by
    show x ∈ s'.seen ↔ _
    rw [h.mem_seen]
    show x ∈ b :: s.seen ∨ x ∈ new ↔ _
    rw [List.mem_cons, List.mem_cons]
    tauto
  nodup := List.nodup_cons.mpr ⟨fun e => h.fresh b e List.mem_cons_self, h.nodup⟩
  fresh x hx := by
    rcases List.mem_cons.mp hx with rfl | hx
    · exact hb
    · exact fun e => h.fresh x hx (List.mem_cons_of_mem _ e)
  closed x hx y hy := by
    rcases List.mem_cons.mp hx with rfl | hx
    · exact hc y hy
    · exact h.closed x hx y hy
  reachedIn x hx := by
    rcases List.mem_cons.mp hx with rfl | hx
    · exact ⟨x, rfl, .refl x⟩
    · exact ⟨b, rfl, h.path_from hx⟩
  grown pre x post e := by
    cases pre with
    | nil => exact .inl (List.cons.inj e).1.symm
    | cons z pre =>
      obtain ⟨rfl, e'⟩ := List.cons.inj e
      obtain hr | ⟨p, hp, hx⟩ := h.grown pre x post e'
      · exact .inr ⟨b, List.mem_cons_self, hr⟩
      · exact .inr ⟨p, List.mem_cons_of_mem _ hp, hx⟩
  back pre x post e y hy := by
    cases pre with
    | nil =>
      obtain ⟨rfl, rfl⟩ := List.cons.inj e
      rcases (h.mem_seen y).mp (hc y hy) with h1 | h1
      · rcases List.mem_cons.mp h1 with rfl | h1
        · exact .inr (.inr ⟨[], new, rfl, .refl y⟩)
        · exact .inr (.inl h1)
      · exact .inl h1
    | cons z pre =>
      obtain ⟨rfl, e'⟩ := List.cons.inj e
      have hx : x ∈ new := by rw [e']; simp
      rcases h.back pre x post e' y hy with h1 | h1 | ⟨before, after, h1, hp⟩
      · exact .inl h1
      · rcases List.mem_cons.mp h1 with rfl | h1
        · exact .inr (.inr ⟨[], new, rfl, h.path_from hx⟩)
        · exact .inr (.inl h1)
      · exact .inr (.inr ⟨b :: before, after, by rw [h1]; rfl, hp⟩)

/-- A search whose fuel exceeds the number of unseen nodes explores all that is unseen. -/
theorem explored_visit (hn : ∀ x < n, ∀ y ∈ next x, y < n) :
    ∀ (fuel : Nat) (b : Nat) (s : Search), b < n → (unseen n s).card < fuel →
      ∃ new, Explored next (· = b) s (visit next fuel b s) new ∧
        b ∈ (visit next fuel b s).seen := by
  intro fuel
  induction fuel with
  | zero => intro b s _ h; omega
  | succ fuel ih =>
    intro b s hb hs
    unfold visit
    by_cases hm : s.seen.contains b = true
    · rw [if_pos hm]
      exact ⟨[], .nil s, List.contains_iff_mem.mp hm⟩
    · rw [if_neg hm]
      have hm : b ∉ s.seen := fun e => hm (List.contains_iff_mem.mpr e)
      have hlt := card_unseen_enter hb hm
      obtain ⟨new, h, hc⟩ := explored_foldl (next b)
        (fun s c hc hs => ih c s (hn b hb c hc) hs) (s.enter b) (by omega)
      refine ⟨b :: new, h.enter_leave hm hc, ?_⟩
      exact (h.mem_seen b).mpr (.inl List.mem_cons_self)

/-- A search from several roots. -/
theorem explored_visitAll (hn : ∀ x < n, ∀ y ∈ next x, y < n) {fuel : Nat} (bs : List Nat)
    (hb : ∀ b ∈ bs, b < n) (s : Search) (hs : (unseen n s).card < fuel) :
    ∃ new, Explored next (· ∈ bs) s (visitAll next fuel bs s) new ∧
      ∀ b ∈ bs, b ∈ (visitAll next fuel bs s).seen :=
  explored_foldl bs (fun s c hc hs => explored_visit hn fuel c s (hb c hc) hs) s hs

theorem card_unseen_empty (n : Nat) : (unseen n empty).card = n := by
  simp [unseen, empty]

end Search

end Lockstep
