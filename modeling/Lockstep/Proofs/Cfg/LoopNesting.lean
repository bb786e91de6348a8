import Lockstep.Proofs.Cfg.LoopSearchTotal
import Lockstep.Proofs.Cfg.LoopUnique
import Lockstep.Proofs.Func.Coherent
import Mathlib.Data.Finset.Card
import Mathlib.Data.List.Chain

/-!
# The nesting of loops

The numbers in a loop forest are read off the order in which the loops are added (`Numbered`): the
innermost loop around a block is the last one that holds it, the parent of a loop the last one before it
that holds its header. Of two loops the later one lies strictly inside the earlier one or apart
(`Laminar`), so that the last loop with a property that makes loops share a block is the smallest one
(`isLast_iff_isSmallest`). With what the search finds this makes the forest of a function the nesting
forest of its loops (`isNestingForest_ofFunc`), for any control flow:

1. the blocks of a loop are reachable and strongly connected within the loop;
2. two loops are disjoint, or one lies strictly inside the other;
3. parents, depths and innermost loops are those of the inclusion of loops;
4. every cycle lies in a loop, and passes through the header of the smallest one that holds it;
5. the order from inner to outer lists every loop once, and before the loops around it.
-/

namespace Lockstep

namespace Loop

/-- Whether `k` holds the blocks of `l`, and others. -/
def StrictlyWithin (l k : Loop) : Prop := l.blocks ⊆ k.blocks ∧ ¬ k.blocks ⊆ l.blocks

end Loop

namespace Func

/-- A way through reachable blocks that leads from the last of them to the first one. -/
def IsCycle (f : Func) : List BlockId → Prop
  | [] => False
  | b :: c => f.Reachable b ∧ (b :: c ++ [b]).IsChain fun x y => y ∈ (f.term x).targets

namespace IsCycle

variable {f : Func} {c : List BlockId} {x y : BlockId}

theorem path_of_isChain {P : BlockId → Prop} : ∀ {c : List BlockId} {a b : BlockId},
    (a :: c ++ [b]).IsChain (fun x y => y ∈ (f.term x).targets) → (∀ x ∈ a :: c, P x) →
      f.Path P a b
  | [], a, b, h, hP => .step (hP a List.mem_cons_self) (by simpa using h)
  | x :: c, a, b, h, hP => by
    rw [List.cons_append, List.cons_append, List.isChain_cons_cons] at h
    exact .head (hP a List.mem_cons_self) h.1
      (path_of_isChain h.2 fun y hy => hP y (List.mem_cons_of_mem _ hy))

/-- Every block of a cycle leads to every block of it along the cycle. -/
theorem path (h : f.IsCycle c) (hx : x ∈ c) (hy : y ∈ c) : f.Path (· ∈ c) x y := by
  cases c with
  | nil => cases hx
  | cons b c =>
    obtain ⟨-, hchain⟩ := h
    have hback : f.Path (· ∈ b :: c) x b := by
      obtain ⟨pre, post, e⟩ := List.append_of_mem hx
      rw [e, List.append_assoc] at hchain
      rw [e]
      exact path_of_isChain hchain.right_of_append fun z hz => List.mem_append_right _ hz
    refine hback.trans ?_
    obtain ⟨pre, post, e⟩ := List.append_of_mem hy
    cases pre with
    | nil =>
      obtain ⟨rfl, -⟩ := List.cons.inj e
      exact .refl _
    | cons a pre =>
      obtain ⟨rfl, -⟩ := List.cons.inj e
      rw [e, show b :: pre ++ y :: post ++ [b] = (b :: pre ++ [y]) ++ (post ++ [b]) by simp] at hchain
      rw [e]
      exact path_of_isChain hchain.left_of_append fun z hz => List.mem_append_left (y :: post) hz

theorem reachable (h : f.IsCycle c) (hx : x ∈ c) : f.Reachable x := by
  cases c with
  | nil => cases hx
  | cons b c =>
    exact (h.path List.mem_cons_self hx).induct h.1 fun _ _ _ hr hs => hr.step hs

/-- A cycle goes on from every block of it. -/
theorem exists_next (h : f.IsCycle c) (hx : x ∈ c) : ∃ y ∈ c, y ∈ (f.term x).targets := by
  cases c with
  | nil => cases hx
  | cons b c =>
    obtain ⟨-, hchain⟩ := h
    obtain ⟨pre, post, e⟩ := List.append_of_mem hx
    rw [e, List.append_assoc] at hchain
    have hchain := hchain.right_of_append
    cases post with
    | nil => exact ⟨b, List.mem_cons_self, by simpa using hchain⟩
    | cons y post =>
      rw [List.cons_append, List.cons_append, List.isChain_cons_cons] at hchain
      exact ⟨y, by rw [e]; simp, hchain.1⟩

/-- A way that a branch leads back from is one. -/
theorem exists_of_path {P : BlockId → Prop} {a b : BlockId} (h : f.Path P b a) (hb : f.Reachable b)
    (ha : P a) (hab : b ∈ (f.term a).targets) :
    ∃ c, f.IsCycle c ∧ a ∈ c ∧ b ∈ c ∧ ∀ x ∈ c, P x := by
  have key : ∀ {z}, f.Path P z a → ∃ c, (z :: c ++ [b]).IsChain (fun x y => y ∈ (f.term x).targets) ∧
      a ∈ z :: c ∧ ∀ x ∈ z :: c, P x := by
    intro z hz
    induction hz using Relation.ReflTransGen.head_induction_on with
    | refl => exact ⟨[], by simpa using hab, List.mem_cons_self, by simpa using ha⟩
    | @head x y hxy _ ih =>
      obtain ⟨c, hc, hac, hPc⟩ := ih
      refine ⟨y :: c, ?_, List.mem_cons_of_mem _ hac, List.forall_mem_cons.mpr ⟨hxy.1, hPc⟩⟩
      rw [List.cons_append, List.cons_append, List.isChain_cons_cons]
      exact ⟨hxy.2, hc⟩
  obtain ⟨c, hc, hac, hPc⟩ := key h
  exact ⟨b :: c, ⟨hb, hc⟩, hac, List.mem_cons_self, hPc⟩

end IsCycle

end Func

namespace LoopForest

variable {P Q : Loop → Prop} {ls : List Loop} {l k : Loop} {i j : Nat} {t : LoopForest}

/-! ## The last loop with a property -/

/-- The loop at position `i` has `P`, and no later one. -/
structure IsLast (P : Loop → Prop) (ls : List Loop) (i : Nat) : Prop where
  holds : ∃ l, ls[i]? = some l ∧ P l
  le : ∀ j l, ls[j]? = some l → P l → j ≤ i

theorem IsLast.mono {ls' : List Loop} (h : IsLast P ls i)
    (hiff : ∀ (j : Nat) (k : Loop), ls[j]? = some k ∧ P k ↔ ls'[j]? = some k ∧ Q k) :
    IsLast Q ls' i := by
  obtain ⟨l, hl⟩ := h.holds
  refine ⟨⟨l, (hiff i l).mp hl⟩, fun j k hk hQ => ?_⟩
  obtain ⟨hj, hP⟩ := (hiff j k).mpr ⟨hk, hQ⟩
  exact h.le j k hj hP

/-- What stands in a list with a loop added stood there before, or is that loop at the end. -/
theorem getElem?_concat_cases (h : (ls ++ [l])[j]? = some k) :
    ls[j]? = some k ∨ j = ls.length ∧ k = l := by
  have hlt := (List.getElem?_eq_some_iff.mp h).1
  rw [List.length_append, List.length_singleton] at hlt
  rcases Nat.lt_succ_iff_lt_or_eq.mp hlt with hj | rfl
  · rw [List.getElem?_append_left hj] at h
    exact .inl h
  · rw [List.getElem?_concat_length] at h
    exact .inr ⟨rfl, (Option.some.inj h).symm⟩

theorem isLast_concat :
    IsLast P (ls ++ [l]) i ↔ P l ∧ i = ls.length ∨ ¬ P l ∧ IsLast P ls i := by
  have hlast : (ls ++ [l])[ls.length]? = some l := List.getElem?_concat_length
  have hold : ∀ {j k}, ls[j]? = some k → (ls ++ [l])[j]? = some k := fun h => by
    rw [List.getElem?_append_left (List.getElem?_eq_some_iff.mp h).1, h]
  constructor
  · rintro ⟨⟨k, hk, hPk⟩, hle⟩
    by_cases hP : P l
    · refine .inl ⟨hP, Nat.le_antisymm ?_ (hle _ l hlast hP)⟩
      have := (List.getElem?_eq_some_iff.mp hk).1
      rw [List.length_append] at this
      exact Nat.lt_succ_iff.mp this
    · refine .inr ⟨hP, ⟨k, ?_, hPk⟩, fun j l' hj => hle j l' (hold hj)⟩
      rcases getElem?_concat_cases hk with h | ⟨-, rfl⟩
      · exact h
      · exact absurd hPk hP
  · rintro (⟨hP, rfl⟩ | ⟨hP, ⟨k, hk, hPk⟩, hle⟩)
    · refine ⟨⟨l, hlast, hP⟩, fun j k hk _ => ?_⟩
      rcases getElem?_concat_cases hk with h | ⟨rfl, -⟩
      · exact Nat.le_of_lt (List.getElem?_eq_some_iff.mp h).1
      · exact Nat.le_refl _
    · refine ⟨⟨k, hold hk, hPk⟩, fun j l' hj hPj => ?_⟩
      rcases getElem?_concat_cases hj with h | ⟨-, rfl⟩
      · exact hle j l' h hPj
      · exact absurd hPj hP

theorem exists_isLast (hl : l ∈ ls) (hP : P l) : ∃ i, IsLast P ls i := by
  induction ls using List.reverseRecOn with
  | nil => cases hl
  | append_singleton ls k ih =>
    by_cases hk : P k
    · exact ⟨_, isLast_concat.mpr (.inl ⟨hk, rfl⟩)⟩
    · have hl : l ∈ ls := (List.mem_append.mp hl).resolve_right fun h =>
        hk (List.mem_singleton.mp h ▸ hP)
      obtain ⟨i, hi⟩ := ih hl
      exact ⟨i, isLast_concat.mpr (.inr ⟨hk, hi⟩)⟩

/-! ## Numbers -/

theorem getElem?_get (h : i < t.size) : t.loops[i]? = some (t.get i) := by
  rw [get, List.getElem?_eq_getElem h]
  rfl

theorem lt_size_of_getElem? (h : t.loops[i]? = some l) : i < t.size :=
  (List.getElem?_eq_some_iff.mp h).1

/-- A forest whose innermost loops, parents and depths follow the order of its loops. -/
structure Numbered (t : LoopForest) : Prop where
  innermost : ∀ b id, t.innermostOf? b = some id ↔ IsLast (b ∈ ·.blocks) t.loops id
  parent : ∀ (i : Nat) (l : Loop), t.loops[i]? = some l → ∀ p,
    l.parent = some p ↔ IsLast (l.header ∈ ·.blocks) (t.loops.take i) p
  depth : ∀ (i : Nat) (l : Loop), t.loops[i]? = some l →
    l.depth = (l.parent.map fun p => (t.get p).depth + 1).getD 1

theorem numbered_empty : Numbered {} where
  innermost b id := ⟨fun h => (by cases h), fun h => (by obtain ⟨l, hl, -⟩ := h.holds; cases hl)⟩
  parent i l h := by cases h
  depth i l h := by cases h

theorem Numbered.add (h : t.Numbered) (g : Cfg) (dom : DomTree) (header : BlockId)
    (blocks : List BlockId) : (t.add g dom header blocks).Numbered := by
  obtain ⟨new, hloops, hheader, hblocks, hparent, hdepth⟩ : ∃ new : Loop,
      (t.add g dom header blocks).loops = t.loops ++ [new] ∧ new.header = header ∧
        new.blocks = blocks ∧ new.parent = t.innermostOf? header ∧
          new.depth = (new.parent.map fun p => (t.get p).depth + 1).getD 1 :=
    ⟨_, rfl, rfl, rfl, rfl, rfl⟩
  have hget : ∀ p < t.loops.length, (t.add g dom header blocks).get p = t.get p := by
    intro p hp
    rw [get, hloops, List.getElem?_append_left hp]
    rfl
  refine ⟨fun b id => ?_, fun i l hl p => ?_, fun i l hl => ?_⟩
  · show (blocks.foldl (fun m b => m.set b t.size) t.innermost).get? b = some id ↔ _
    rw [hloops, isLast_concat, get?_foldl_set, hblocks, ← h.innermost]
    by_cases hb : b ∈ blocks
    · rw [if_pos hb]
      simp only [hb, true_and, not_true_eq_false, false_and, or_false, Option.some_inj]
      exact eq_comm
    · rw [if_neg hb]
      simp only [hb, false_and, not_false_eq_true, true_and, false_or]
      rfl
  · rcases getElem?_concat_cases (hloops ▸ hl) with hl | ⟨rfl, rfl⟩
    · rw [hloops, List.take_append_of_le_length (Nat.le_of_lt (List.getElem?_eq_some_iff.mp hl).1)]
      exact h.parent i l hl p
    · rw [hloops, List.take_left, hparent, hheader]
      exact h.innermost header p
  · have hcongr : ∀ o : Option LoopId, (∀ p, o = some p → p < t.loops.length) →
        (o.map fun p => (t.get p).depth + 1) =
          o.map fun p => ((t.add g dom header blocks).get p).depth + 1 := by
      intro o ho
      cases o with
      | none => rfl
      | some p =>
        show some ((t.get p).depth + 1) = some (((t.add g dom header blocks).get p).depth + 1)
        rw [hget p (ho p rfl)]
    have hlt : ∀ {P : Loop → Prop} {m p}, IsLast P (t.loops.take m) p → p < t.loops.length := by
      intro P m p hp
      obtain ⟨l, hl, -⟩ := hp.holds
      exact Nat.lt_of_lt_of_le (List.getElem?_eq_some_iff.mp hl).1
        (by rw [List.length_take]; exact Nat.min_le_right _ _)
    rcases getElem?_concat_cases (hloops ▸ hl) with hl | ⟨rfl, rfl⟩
    · rw [h.depth i l hl, hcongr l.parent fun p hp => hlt ((h.parent i l hl p).mp hp)]
    · rw [hdepth, hcongr l.parent fun p hp => ?_]
      rw [hparent, h.innermost, ← List.take_length (l := t.loops)] at hp
      exact hlt hp

theorem numbered_foldl (g : Cfg) (dom : DomTree) (new : List (BlockId × List BlockId))
    (h : t.Numbered) :
    (new.foldl (fun t (header, blocks) => t.add g dom header blocks) t).Numbered := by
  induction new generalizing t with
  | nil => exact h
  | cons e new ih => exact ih (h.add g dom e.1 e.2)

theorem numbered_ofCfg (g : Cfg) (dom : DomTree) : (ofCfg g dom).Numbered := by
  unfold ofCfg
  split
  · exact numbered_foldl g dom _ numbered_empty
  · exact numbered_empty

/-! ## Inclusion -/

/-- Loops that hold their headers, of which a later one lies strictly inside an earlier one or apart. -/
structure Laminar (t : LoopForest) : Prop where
  header_mem : ∀ l ∈ t.loops, l.header ∈ l.blocks
  nested : t.loops.Pairwise fun l k => k.StrictlyWithin l ∨ ∀ b ∈ k.blocks, b ∉ l.blocks

/-- The loop `id` has `P` and lies inside all loops with `P`. -/
structure IsSmallest (t : LoopForest) (P : Loop → Prop) (id : LoopId) : Prop where
  lt : id < t.size
  holds : P (t.get id)
  within : ∀ j < t.size, P (t.get j) → (t.get id).blocks ⊆ (t.get j).blocks

namespace Laminar

variable (h : t.Laminar)

include h

theorem header_mem_get (hi : i < t.size) : (t.get i).header ∈ (t.get i).blocks :=
  h.header_mem _ (List.mem_of_getElem? (getElem?_get hi))

/-- Of two loops that share a block, the later one lies strictly inside the earlier one. -/
theorem strictlyWithin_of_lt {b : BlockId} (hj : j < t.size) (hij : i < j)
    (hbi : b ∈ (t.get i).blocks) (hbj : b ∈ (t.get j).blocks) :
    (t.get j).StrictlyWithin (t.get i) := by
  obtain ⟨hj', ej⟩ := List.getElem?_eq_some_iff.mp (getElem?_get hj)
  obtain ⟨hi', ei⟩ := List.getElem?_eq_some_iff.mp (getElem?_get (Nat.lt_trans hij hj))
  have hn := List.pairwise_iff_getElem.mp h.nested i j hi' hj' hij
  rw [ei, ej] at hn
  exact hn.resolve_right fun hout => hout b hbj hbi

/-- A loop comes after those that it lies in. -/
theorem lt_of_strictlyWithin (hi : i < t.size) (hj : j < t.size)
    (hw : (t.get j).StrictlyWithin (t.get i)) : i < j := by
  rcases Nat.lt_trichotomy i j with hij | rfl | hij
  · exact hij
  · exact absurd hw.1 hw.2
  · have hb := h.header_mem_get hj
    exact absurd (h.strictlyWithin_of_lt hi hij hb (hw.1 hb)).1 hw.2

theorem eq_or_strictlyWithin (hi : i < t.size) (hj : j < t.size)
    (hw : (t.get j).blocks ⊆ (t.get i).blocks) : i = j ∨ (t.get j).StrictlyWithin (t.get i) := by
  have hb := h.header_mem_get hj
  rcases Nat.lt_trichotomy i j with hij | hij | hij
  · exact .inr (h.strictlyWithin_of_lt hj hij (hw hb) hb)
  · exact .inl hij
  · exact absurd hw (h.strictlyWithin_of_lt hi hij hb (hw hb)).2

/-- Among loops that share a block the last one is the smallest. -/
theorem isLast_iff_isSmallest {b : BlockId} (hP : ∀ l, P l → b ∈ l.blocks) {id : LoopId} :
    IsLast P t.loops id ↔ t.IsSmallest P id := by
  constructor
  · intro hlast
    obtain ⟨l, hl, hPl⟩ := hlast.holds
    have hid := lt_size_of_getElem? hl
    rw [← get_of_getElem? hl] at hPl
    refine ⟨hid, hPl, fun j hj hPj => ?_⟩
    rcases Nat.lt_or_eq_of_le (hlast.le j _ (getElem?_get hj) hPj) with hlt | rfl
    · exact (h.strictlyWithin_of_lt hid hlt (hP _ hPj) (hP _ hPl)).1
    · exact fun _ hx => hx
  · intro hs
    refine ⟨⟨_, getElem?_get hs.lt, hs.holds⟩, fun j l hl hPl => ?_⟩
    have hj := lt_size_of_getElem? hl
    rw [← get_of_getElem? hl] at hPl
    by_contra hlt
    have hstrict := h.strictlyWithin_of_lt hj (Nat.lt_of_not_le hlt) (hP _ hs.holds) (hP _ hPl)
    exact hstrict.2 (hs.within j hj hPl)

/-- The loops before a loop that hold its header are those that it lies strictly in. -/
theorem isLast_take_iff (hi : i < t.size) {p : LoopId} :
    IsLast ((t.get i).header ∈ ·.blocks) (t.loops.take i) p ↔
      IsLast (t.get i).StrictlyWithin t.loops p := by
  have hiff : ∀ (j : Nat) (k : Loop), (t.loops.take i)[j]? = some k ∧ (t.get i).header ∈ k.blocks ↔
      t.loops[j]? = some k ∧ (t.get i).StrictlyWithin k := by
    intro j k
    rw [List.getElem?_take]
    constructor
    · rintro ⟨hk, hm⟩
      split at hk
      · rename_i hji
        rw [← get_of_getElem? hk] at hm ⊢
        exact ⟨getElem?_get (Nat.lt_trans hji hi),
          h.strictlyWithin_of_lt hi hji hm (h.header_mem_get hi)⟩
      · cases hk
    · rintro ⟨hk, hw⟩
      have hj := lt_size_of_getElem? hk
      rw [← get_of_getElem? hk] at hw ⊢
      rw [if_pos (h.lt_of_strictlyWithin hj hi hw)]
      exact ⟨getElem?_get hj, hw.1 (h.header_mem_get hi)⟩
  exact ⟨fun hl => hl.mono hiff, fun hl => hl.mono fun j k => (hiff j k).symm⟩

end Laminar

/-! ## The loops of a function -/

/-- The forest of the loops of a function. -/
structure IsNestingForest (f : Func) (t : LoopForest) : Prop where
  reachable : ∀ l ∈ t.loops, ∀ b ∈ l.blocks, f.Reachable b
  connected : ∀ l ∈ t.loops, ∀ a ∈ l.blocks, ∀ b ∈ l.blocks,
    ∃ c ∈ (f.term a).targets, c ∈ l.blocks ∧ f.Path (· ∈ l.blocks) c b
  nested : ∀ i < t.size, ∀ j < t.size, i ≠ j →
    (∀ b ∈ (t.get i).blocks, b ∉ (t.get j).blocks) ∨
      (t.get i).StrictlyWithin (t.get j) ∨ (t.get j).StrictlyWithin (t.get i)
  parent : ∀ i < t.size, ∀ p,
    (t.get i).parent = some p ↔ t.IsSmallest (t.get i).StrictlyWithin p
  outermost : ∀ i < t.size,
    (t.get i).parent = none ↔ ∀ p < t.size, ¬ (t.get i).StrictlyWithin (t.get p)
  depth : ∀ i < t.size, (t.get i).depth =
    {j ∈ Finset.range t.size | (t.get i).blocks ⊆ (t.get j).blocks}.card
  innermost : ∀ b id, t.innermostOf? b = some id ↔ t.IsSmallest (b ∈ ·.blocks) id
  outside : ∀ b, t.innermostOf? b = none ↔ ∀ id < t.size, b ∉ (t.get id).blocks
  cycle : ∀ c, f.IsCycle c →
    ∃ id, t.IsSmallest (fun l => ∀ b ∈ c, b ∈ l.blocks) id ∧ (t.get id).header ∈ c
  perm : t.innerToOuter.Perm t.ids
  innerFirst : t.innerToOuter.Pairwise fun i j => ¬ (t.get j).StrictlyWithin (t.get i)

section Forest

variable (h : t.Laminar) (hn : t.Numbered)

include h hn

theorem parent_eq_some_iff (hi : i < t.size) {p : LoopId} :
    (t.get i).parent = some p ↔ t.IsSmallest (t.get i).StrictlyWithin p := by
  rw [hn.parent i _ (getElem?_get hi), h.isLast_take_iff hi]
  exact h.isLast_iff_isSmallest fun l hl => hl.1 (h.header_mem_get hi)

theorem innermostOf?_eq_some_iff {b : BlockId} {k : LoopId} :
    t.innermostOf? b = some k ↔ t.IsSmallest (b ∈ ·.blocks) k := by
  rw [hn.innermost]
  exact h.isLast_iff_isSmallest fun l hl => hl

omit hn in
/-- Where there is a loop with `P`, there is a smallest one, provided that these loops share a block. -/
theorem exists_isSmallest {b : BlockId} (hP : ∀ l, P l → b ∈ l.blocks) (hi : i < t.size)
    (hPi : P (t.get i)) : ∃ id, t.IsSmallest P id := by
  obtain ⟨id, hid⟩ := exists_isLast (List.mem_of_getElem? (getElem?_get hi)) hPi
  exact ⟨id, (h.isLast_iff_isSmallest hP).mp hid⟩

omit h hn in
/-- A choice that is the smallest one where there is any is none just if there is none. -/
theorem eq_none_iff_of_isSmallest {o : Option LoopId}
    (ho : ∀ id, o = some id ↔ t.IsSmallest P id)
    (hex : ∀ i < t.size, P (t.get i) → ∃ id, t.IsSmallest P id) :
    o = none ↔ ∀ i < t.size, ¬ P (t.get i) := by
  constructor
  · rintro rfl i hi hPi
    obtain ⟨id, hid⟩ := hex i hi hPi
    cases (ho id).mpr hid
  · intro hnone
    cases o with
    | none => rfl
    | some id =>
      have hid := (ho id).mp rfl
      exact absurd hid.holds (hnone id hid.lt)

/-- The depth of a loop is the number of loops that it lies in, itself included. -/
theorem depth_eq_card (hi : i < t.size) : (t.get i).depth =
    {j ∈ Finset.range t.size | (t.get i).blocks ⊆ (t.get j).blocks}.card := by
  induction i using Nat.strongRecOn with
  | ind i ih =>
    have hself : ∀ j < t.size, (t.get i).blocks ⊆ (t.get j).blocks ↔
        j = i ∨ (t.get i).StrictlyWithin (t.get j) := fun j hj =>
      ⟨fun hw => h.eq_or_strictlyWithin hj hi hw, fun hw => by
        rcases hw with rfl | hw
        · exact fun _ hx => hx
        · exact hw.1⟩
    rw [hn.depth i _ (getElem?_get hi)]
    cases hp : (t.get i).parent with
    | none =>
      have hnone := (eq_none_iff_of_isSmallest (fun p => parent_eq_some_iff h hn hi)
        fun j hj => exists_isSmallest h (fun l hl => hl.1 (h.header_mem_get hi)) hj).mp hp
      have : {j ∈ Finset.range t.size | (t.get i).blocks ⊆ (t.get j).blocks} = {i} := by
        ext j
        rw [Finset.mem_filter, Finset.mem_range, Finset.mem_singleton]
        constructor
        · rintro ⟨hj, hw⟩
          exact ((hself j hj).mp hw).resolve_right (hnone j hj)
        · rintro rfl
          exact ⟨hi, fun _ hx => hx⟩
      rw [this]
      rfl
    | some p =>
      have hs := (parent_eq_some_iff h hn hi).mp hp
      have hpi : p < i := h.lt_of_strictlyWithin hs.lt hi hs.holds
      have : {j ∈ Finset.range t.size | (t.get i).blocks ⊆ (t.get j).blocks} =
          insert i {j ∈ Finset.range t.size | (t.get p).blocks ⊆ (t.get j).blocks} := by
        ext j
        rw [Finset.mem_insert, Finset.mem_filter, Finset.mem_filter, Finset.mem_range]
        constructor
        · rintro ⟨hj, hw⟩
          rcases (hself j hj).mp hw with rfl | hw
          · exact .inl rfl
          · exact .inr ⟨hj, hs.within j hj hw⟩
        · rintro (rfl | ⟨hj, hw⟩)
          · exact ⟨hi, fun _ hx => hx⟩
          · exact ⟨hj, fun _ hx => hw (hs.holds.1 hx)⟩
      rw [this, Finset.card_insert_of_notMem, ← ih p hpi hs.lt]
      · rfl
      · rw [Finset.mem_filter]
        exact fun hm => hs.holds.2 hm.2

/-- A loop that lies in another is deeper. -/
theorem depth_lt_of_strictlyWithin (hi : i < t.size) (hj : j < t.size)
    (hw : (t.get i).StrictlyWithin (t.get j)) : (t.get j).depth < (t.get i).depth := by
  rw [depth_eq_card h hn hi, depth_eq_card h hn hj]
  refine Finset.card_lt_card ((Finset.ssubset_iff_of_subset fun k hk => ?_).mpr ⟨i, ?_, fun hm => ?_⟩)
  · rw [Finset.mem_filter] at hk ⊢
    exact ⟨hk.1, fun _ hx => hk.2 (hw.1 hx)⟩
  · exact Finset.mem_filter.mpr ⟨Finset.mem_range.mpr hi, fun _ hx => hx⟩
  · exact hw.2 (Finset.mem_filter.mp hm).2

theorem pairwise_innerToOuter :
    t.innerToOuter.Pairwise fun i j => ¬ (t.get j).StrictlyWithin (t.get i) := by
  have hsorted : t.innerToOuter.Pairwise fun i j => (t.get j).depth ≤ (t.get i).depth := by
    refine (List.pairwise_mergeSort (fun a b c => ?_) (fun a b => ?_) t.ids).imp fun hle => ?_
    · simp only [decide_eq_true_eq]
      exact fun hab hbc => Nat.le_trans hbc hab
    · simp only [Bool.or_eq_true, decide_eq_true_eq]
      exact Nat.le_total _ _
    · exact of_decide_eq_true hle
  refine hsorted.imp_of_mem fun {a b} ha hb hle hw => ?_
  have hlt : ∀ {k}, k ∈ t.innerToOuter → k < t.size := fun hk =>
    List.mem_range.mp (List.mem_mergeSort.mp hk)
  exact absurd (depth_lt_of_strictlyWithin h hn (hlt hb) (hlt ha) hw) (Nat.not_lt.mpr hle)

end Forest

variable {f : Func}

theorem laminar_ofFunc (f : Func) : (Analyses.ofFunc f).loops.Laminar where
  header_mem _ hl := header_mem hl
  nested := by
    obtain ⟨s', found, hfinds, hfound⟩ := exists_fromFound (Cfg.ofFunc f) (Cfg.ofFunc f).dominators
    have hn := hfinds.nested
    rw [← hfound.loops, List.pairwise_map] at hn
    refine hn.imp_of_mem fun {l k} hl hk hlk => hlk.imp_left fun hin => ⟨fun x hx => (hin x hx).1, ?_⟩
    exact fun hsub => (hin _ (hsub (header_mem hl))).2 rfl

/-- From a block of a loop to any other one there is a way in the loop that takes a step. -/
theorem exists_path_mem (hf : f.Closed) {l : Loop} (hl : l ∈ (Analyses.ofFunc f).loops.loops)
    {a b : BlockId} (ha : a ∈ l.blocks) (hb : b ∈ l.blocks) :
    ∃ c ∈ (f.term a).targets, c ∈ l.blocks ∧ f.Path (· ∈ l.blocks) c b := by
  have hloop := isLoop hl
  obtain ⟨c, hc, hcl⟩ := exists_target_mem hf hl ha
  exact ⟨c, hc, hcl, (Cfg.path_of_succs hf (hloop.connected c hcl).2).trans
    (Cfg.path_of_succs hf (hloop.connected b hb).1)⟩

/-! ## Cycles -/

section Found

variable {g : Cfg} {dom : DomTree} {found : List (BlockId × List BlockId)}

theorem FromFound.mem_found (h : FromFound g dom t found) (hi : i < t.size) :
    ((t.get i).header, (t.get i).blocks) ∈ found :=
  List.mem_of_getElem? (h.getElem?_found (getElem?_get hi))

theorem FromFound.exists_get (h : FromFound g dom t found) {e : BlockId × List BlockId}
    (he : e ∈ found) : ∃ i < t.size, ((t.get i).header, (t.get i).blocks) = e := by
  rw [← h.loops] at he
  obtain ⟨l, hl, rfl⟩ := List.mem_map.mp he
  obtain ⟨i, hi⟩ := List.getElem?_of_mem hl
  have hget : t.get i = l := get_of_getElem? hi
  exact ⟨i, lt_size_of_getElem? hi, by rw [hget]⟩

/-- A loop that is found lies in every one that holds its header. -/
theorem subset_of_nested {pre post : List (BlockId × List BlockId)} {e k : BlockId × List BlockId}
    (hn : (pre ++ e :: post).Pairwise LoopSearch.Nested) (hself : e.1 ∈ e.2)
    (hk : k ∈ pre ++ e :: post) (hek : e.1 ∈ k.2) : e.2 ⊆ k.2 := by
  rw [List.pairwise_append, List.pairwise_cons] at hn
  rcases List.mem_append.mp hk with hk | hk
  · rcases hn.2.2 _ hk _ List.mem_cons_self with hin | hout
    · exact fun x hx => (hin x hx).1
    · exact absurd hek (hout _ hself)
  · rcases List.mem_cons.mp hk with rfl | hk
    · exact fun _ hx => hx
    · rcases hn.2.1.1 _ hk with hin | hout
      · exact absurd rfl (hin _ hek).2
      · exact absurd hself (hout _ hek)

end Found

/-- A cycle passes through the header of a loop: a block that is on a cycle is the header of a loop, or
every cycle through it passes through the header of a loop around it. -/
theorem exists_header_mem (hf : f.Closed) {c : List BlockId} (hc : f.IsCycle c) :
    ∃ l ∈ (Analyses.ofFunc f).loops.loops, l.header ∈ c := by
  obtain ⟨s, hrun⟩ := LoopSearch.exists_run_eq_ok (Cfg.ofFunc f)
  have hfound := fromFound_of_run hrun (Cfg.ofFunc f).dominators
  have hmem : ∀ e ∈ s.found, ∃ l ∈ (Analyses.ofFunc f).loops.loops, l.header = e.1 := by
    intro e he
    obtain ⟨i, hi, rfl⟩ := hfound.exists_get he
    exact ⟨_, List.mem_of_getElem? (getElem?_get hi), rfl⟩
  obtain ⟨x, hx⟩ : ∃ x, x ∈ c := by
    cases c with
    | nil => exact hc.elim
    | cons b c => exact ⟨b, List.mem_cons_self⟩
  have hdone : LoopSearch.Done s x := LoopSearch.done_of_run hrun
    (Cfg.succs_of_path hf f.reachable_entry (hc.reachable hx).path).1
  rcases (LoopSearch.finds_run hrun).complete x (fun h => h rfl) hdone with ⟨e, he, rfl⟩ | hcover
  · obtain ⟨l, hl, hle⟩ := hmem e he
    exact ⟨l, hl, hle ▸ hx⟩
  · obtain ⟨y, hy, hxy⟩ := hc.exists_next hx
    by_contra hnone
    refine hcover y ((Cfg.mem_succs hf).mpr ⟨hc.reachable hx, hxy⟩) ?_
    refine (Cfg.succs_of_path hf (hc.reachable hy) (hc.path hy hx)).1.mono fun z hz ha => ?_
    rcases ha with ha | ⟨e, he, rfl, -⟩
    · exact ha
    · obtain ⟨l, hl, hle⟩ := hmem e he
      exact hnone ⟨l, hl, hle ▸ hz⟩

/-- The first loop found whose header is on a cycle holds the cycle, and no loop that holds the cycle is
smaller. -/
theorem exists_isSmallest_of_isCycle (hf : f.Closed) {c : List BlockId} (hc : f.IsCycle c) :
    ∃ id, (Analyses.ofFunc f).loops.IsSmallest (fun l => ∀ b ∈ c, b ∈ l.blocks) id ∧
      ((Analyses.ofFunc f).loops.get id).header ∈ c := by
  obtain ⟨s', found, hfinds, hfound⟩ := exists_fromFound (Cfg.ofFunc f) (Cfg.ofFunc f).dominators
  have hfirst : ∃ e, found.find? (fun e => decide (e.1 ∈ c)) = some e := by
    obtain ⟨l, hl, hlc⟩ := exists_header_mem hf hc
    refine Option.isSome_iff_exists.mp (List.find?_isSome.mpr ⟨(l.header, l.blocks), ?_, by simpa⟩)
    rw [← hfound.loops]
    exact List.mem_map_of_mem hl
  obtain ⟨e, he⟩ := hfirst
  obtain ⟨hec, pre, post, hsplit, hpre⟩ := List.find?_eq_some_iff_append.mp he
  have hec : e.1 ∈ c := of_decide_eq_true hec
  have hpre : ∀ o ∈ pre, o.1 ∉ c := fun o ho => by simpa using hpre o ho
  have hmem : e ∈ found := by rw [hsplit]; simp
  have hself := (hfinds.isLoop e hmem).header_mem
  obtain ⟨id, hid, rfl⟩ := hfound.exists_get hmem
  -- the cycle avoids the headers around the loop, so that it belongs to the loop
  have hout : ∀ b ∈ c, ¬ LoopSearch.Around (fun _ => False) pre
      ((Analyses.ofFunc f).loops.get id).header b := by
    rintro b hb (hA | ⟨o, ho, rfl, -⟩)
    · exact hA
    · exact hpre o ho hb
  have hpath : ∀ {x y}, x ∈ c → y ∈ c → PathIn (Cfg.ofFunc f).succs (fun b =>
      ¬ LoopSearch.Around (fun _ => False) pre ((Analyses.ofFunc f).loops.get id).header b) x y :=
    fun hx hy => ((Cfg.succs_of_path hf (hc.reachable hx) (hc.path hx hy)).1).mono hout
  refine ⟨id, ⟨hid, fun b hb => ?_, fun j hj hcj => ?_⟩, hec⟩
  · exact hfinds.maximal pre _ post hsplit b (hpath hec hb) (hpath hb hec)
  · exact subset_of_nested (hsplit ▸ hfinds.nested) hself (hsplit ▸ hfound.mem_found hj) (hcj _ hec)

/-- The loops of a function form a nesting forest. -/
theorem isNestingForest_ofFunc (hf : f.Closed) : IsNestingForest f (Analyses.ofFunc f).loops := by
  have h := laminar_ofFunc f
  have hn : (Analyses.ofFunc f).loops.Numbered := numbered_ofCfg _ _
  have hparent : ∀ i < (Analyses.ofFunc f).loops.size, ∀ p, _ ↔ _ := fun i hi p =>
    parent_eq_some_iff h hn hi (p := p)
  have hinnermost : ∀ b id, _ ↔ _ := fun b id => innermostOf?_eq_some_iff h hn (b := b) (k := id)
  exact {
    reachable := fun l hl b hb => reachable_of_mem hf hl hb
    connected := fun l hl a ha b hb => exists_path_mem hf hl ha hb
    nested := fun i hi j hj hne => by
      by_contra hnot
      simp only [not_or, not_forall, not_not] at hnot
      obtain ⟨⟨b, hbi, hbj⟩, hij, hji⟩ := hnot
      rcases Nat.lt_or_gt_of_ne hne with hlt | hlt
      · exact hji (h.strictlyWithin_of_lt hj hlt hbi hbj)
      · exact hij (h.strictlyWithin_of_lt hi hlt hbj hbi)
    parent := hparent
    outermost := fun i hi => eq_none_iff_of_isSmallest (hparent i hi) fun j hj =>
      exists_isSmallest h (fun l hl => hl.1 (h.header_mem_get hi)) hj
    depth := fun i hi => depth_eq_card h hn hi
    innermost := hinnermost
    outside := fun b => eq_none_iff_of_isSmallest (hinnermost b) fun j hj =>
      exists_isSmallest h (fun _ hl => hl) hj
    cycle := fun c hc => exists_isSmallest_of_isCycle hf hc
    perm := List.mergeSort_perm _ _
    innerFirst := pairwise_innerToOuter h hn }

/-- A loop around a cycle that is entered at both of its blocks. -/
def crossingInLoop : Func where
  params := [.bool]
  retTy := .void
  blocks := #[
    { term := .br 1 },
    { term := .brIf (.param 0) 2 5 },
    { term := .brIf (.param 0) 3 4 },
    { term := .brIf (.param 0) 4 1 },
    { term := .br 3 },
    { term := .ret none }]
  insts := #[]
  layout := [0, 1, 2, 3, 4, 5]

theorem isNestingForest_crossingInLoop :
    crossingInLoop.Closed ∧ IsNestingForest crossingInLoop (Analyses.ofFunc crossingInLoop).loops ∧
      (Analyses.ofFunc crossingInLoop).loops.IsSmallest (4 ∈ ·.blocks) 1 ∧
      (((Analyses.ofFunc crossingInLoop).loops.get 1).StrictlyWithin
        ((Analyses.ofFunc crossingInLoop).loops.get 0)) ∧
      ((Analyses.ofFunc crossingInLoop).loops.get 1).reducible = false := by
  have hf : crossingInLoop.Closed := (by decide : crossingInLoop.Coherent).toClosed
  have h := isNestingForest_ofFunc hf
  exact ⟨hf, h, (h.innermost 4 1).mp (by decide), ((h.parent 1 (by decide) 0).mp (by decide)).holds,
    by decide⟩

end LoopForest

end Lockstep
