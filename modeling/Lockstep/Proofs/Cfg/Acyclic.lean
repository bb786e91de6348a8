import Lockstep.Proofs.Cfg.LoopUnique
import Lockstep.Proofs.Cfg.PostDominatorTree
import Lockstep.Proofs.Cfg.ReversePostOrder
import Mathlib.Data.List.Chain
import Mathlib.Data.List.Infix

/-!
# Graphs without cycles

Where no block leads back to itself, the reverse post-order puts every edge forward, every block
reaches an exit, there are no loops, and control passes no block twice.
-/

namespace Lockstep

/-! ## Neighbours in a list -/

theorem pair_append {α : Type} {p c : α} {xs ys : List α} :
    [p, c] <:+: xs ++ ys ↔
      [p, c] <:+: xs ∨ [p, c] <:+: ys ∨ xs.getLast? = some p ∧ ys.head? = some c := by
  constructor
  · rintro ⟨s, t, e⟩
    rw [List.append_assoc] at e
    rcases List.append_eq_append_iff.mp e with ⟨a, rfl, ha⟩ | ⟨a, rfl, ha⟩
    · rcases a with - | ⟨p', a⟩
      · exact .inr (.inl ⟨[], t, by simpa using ha⟩)
      · obtain ⟨hp, ha⟩ := List.cons.inj ha
        rcases a with - | ⟨c', a⟩
        · have ha : c :: t = ys := ha
          exact .inr (.inr ⟨by simp [hp], by rw [← ha]; rfl⟩)
        · obtain ⟨hc, -⟩ := List.cons.inj ha
          exact .inl ⟨s, a, by simp [hp, hc]⟩
    · exact .inr (.inl ⟨a, t, by rw [List.append_assoc]; exact ha.symm⟩)
  · rintro (⟨s, t, rfl⟩ | ⟨s, t, rfl⟩ | ⟨hp, hc⟩)
    · exact ⟨s, t ++ ys, by simp⟩
    · exact ⟨xs ++ s, t, by simp⟩
    · obtain ⟨s, rfl⟩ := List.getLast?_eq_some_iff.mp hp
      obtain ⟨t, rfl⟩ := List.head?_eq_some_iff.mp hc
      exact ⟨s, t, by simp⟩

theorem mem_of_pair {α : Type} {p c : α} {xs : List α} (h : [p, c] <:+: xs) :
    p ∈ xs ∧ c ∈ xs :=
  ⟨h.subset (by simp), h.subset (by simp)⟩

/-- An element that is not the first has one before it. -/
theorem exists_pair {α : Type} {c : α} {xs : List α} (hc : c ∈ xs) (hne : xs.head? ≠ some c) :
    ∃ p, [p, c] <:+: xs := by
  obtain ⟨s, t, rfl⟩ := List.append_of_mem hc
  rcases List.eq_nil_or_concat s with rfl | ⟨s, p, rfl⟩
  · exact absurd rfl hne
  · exact ⟨p, s, t, by simp⟩

/-- An element that is not the last has one after it. -/
theorem exists_pair_of_ne_last {α : Type} {b : α} {xs : List α} (hb : b ∈ xs)
    (hne : xs.getLast? ≠ some b) : ∃ c, [b, c] <:+: xs := by
  obtain ⟨pre, post, rfl⟩ := List.append_of_mem hb
  rcases post with - | ⟨c, post⟩
  · exact absurd (by simp) hne
  · exact ⟨c, pre, post, by simp⟩

theorem pair_unique {α : Type} {b c d : α} {xs : List α} (hn : xs.Nodup) (hc : [b, c] <:+: xs)
    (hd : [b, d] <:+: xs) : c = d := by
  obtain ⟨pre, post, e⟩ := hc
  obtain ⟨pre', post', e'⟩ := hd
  have e1 : xs = pre ++ b :: (c :: post) := by rw [← e]; simp
  have e2 : xs = pre' ++ b :: (d :: post') := by rw [← e']; simp
  have hb : b ∉ pre ∧ b ∉ c :: post := by
    rw [e1, List.nodup_middle, List.nodup_cons, List.mem_append, not_or] at hn
    exact hn.1
  obtain ⟨-, -, h⟩ := (List.append_cons_inj_of_notMem hb.1 hb.2).mp (e1.symm.trans e2)
  exact (List.cons.inj h).1

namespace Func

/-- Whether control can get from a block to another along at least one edge. -/
def Leads (f : Func) (a b : BlockId) : Prop := ∃ c ∈ (f.term a).targets, f.Reaches c b

/-- An edge of the graph. -/
abbrev Edge (f : Func) (a b : BlockId) : Prop := b ∈ (f.term a).targets

variable {f g : Func} {a b c : BlockId} {P : List BlockId}

theorem Leads.of_edge (h : f.Edge a b) : f.Leads a b := ⟨b, h, .refl b⟩

theorem Leads.reaches (h : f.Leads a b) : f.Reaches a b := by
  obtain ⟨c, hc, h⟩ := h
  exact Search.Reach.head hc h

theorem Leads.trans_reaches (h : f.Leads a b) (k : f.Reaches b c) : f.Leads a c := by
  obtain ⟨x, hx, h⟩ := h
  exact ⟨x, hx, h.trans k⟩

theorem Leads.trans (h : f.Leads a b) (k : f.Leads b c) : f.Leads a c :=
  h.trans_reaches k.reaches

theorem leads_of_reaches (h : f.Reaches a b) (k : f.Leads b c) : f.Leads a c := by
  rcases Relation.ReflTransGen.cases_head h with rfl | ⟨x, hx, h⟩
  · exact k
  · exact ⟨x, hx, h.trans k.reaches⟩

theorem eq_or_leads (h : f.Reaches a b) : a = b ∨ f.Leads a b := by
  rcases Relation.ReflTransGen.cases_head h with rfl | ⟨x, hx, h⟩
  · exact .inl rfl
  · exact .inr ⟨x, hx, h⟩

theorem Reachable.reaches (h : f.Reachable a) (k : f.Reaches a b) : f.Reachable b :=
  Search.Reach.trans h k

theorem reaches_of_path {P : BlockId → Prop} (h : f.Path P a b) : f.Reaches a b :=
  Relation.ReflTransGen.mono (fun _ _ e => e.2) _ _ h

/-- Control comes into a block other than the entry from another one. -/
theorem exists_pred (hb : f.Reachable b) (hne : b ≠ f.entry) : ∃ p, f.Reachable p ∧ f.Edge p b := by
  rcases Relation.ReflTransGen.cases_tail hb with rfl | ⟨p, hp, hpb⟩
  · exact absurd rfl hne
  · exact ⟨p, hp, hpb⟩

/-- Where all branches lead to later blocks there are no cycles. -/
theorem acyclic_of_lt (h : ∀ a < f.blocks.size, ∀ b ∈ (f.term a).targets, a < b) : f.Acyclic := by
  have h : ∀ {a b}, b ∈ (f.term a).targets → a < b := fun hb => h _ (f.lt_of_mem_targets hb) _ hb
  have hle : ∀ {a b}, f.Reaches a b → a ≤ b := by
    intro a b hab
    induction hab with
    | refl => exact Nat.le_refl a
    | tail _ hbc ih => exact Nat.le_trans ih (Nat.le_of_lt (h hbc))
  exact fun a _ b hab hba => absurd (Nat.lt_of_lt_of_le (h hab) (hle hba)) (Nat.lt_irrefl a)

namespace Acyclic

variable (hf : f.Acyclic)

include hf

theorem not_leads_self (hb : f.Reachable b) : ¬ f.Leads b b := fun ⟨c, hbc, hcb⟩ => hf b hb c hbc hcb

theorem not_leads (ha : f.Reachable a) (h : f.Reaches a b) : ¬ f.Leads b a :=
  fun k => hf.not_leads_self ha (leads_of_reaches h k)

theorem ne_of_edge (ha : f.Reachable a) (h : f.Edge a b) : a ≠ b := by
  rintro rfl
  exact hf.not_leads_self ha (.of_edge h)

/-- Control does not come back to what dominates the block that it is in. -/
theorem not_leads_of_dominates (hb : f.Reachable b) (h : f.Dominates a b) : ¬ f.Leads b a := by
  intro hl
  have hab : f.Reaches a b := by
    rcases reaches_or_path hb a with ⟨-, h2⟩ | hp
    · exact h2
    · exact h hp ▸ .refl b
  exact hf.not_leads_self hb (hl.trans_reaches hab)

/-- A list of blocks along edges has no block twice. -/
theorem nodup_of_isChain {l : List BlockId} (h : l.IsChain f.Edge) (hl : ∀ b ∈ l, f.Reachable b) :
    l.Nodup := by
  have : Trans f.Leads f.Leads f.Leads := ⟨fun h k => h.trans k⟩
  have hpair : l.Pairwise f.Leads := (h.imp fun _ _ => Leads.of_edge).pairwise
  refine (List.Pairwise.and_mem.mp hpair).imp ?_
  rintro a b ⟨ha, -, hab⟩ rfl
  exact hf.not_leads_self (hl a ha) hab

/-- An edge leads forward in the reverse post-order. -/
theorem mem_of_rpo (hc : f.Closed) {pre post : List BlockId} (e : f.reversePostOrder = pre ++ a :: post)
    (h : f.Edge a b) : b ∈ post := by
  rcases reversePostOrder_back hc e h with hpost | ⟨before, after, -, hp⟩
  · exact hpost
  · exact absurd (reaches_of_path hp) (hf a ((mem_reversePostOrder hc).mp (by rw [e]; simp)) b h)

/-- The source of an edge comes earlier in reverse post-order. -/
theorem mem_of_rpo_of_edge (hc : f.Closed) {done rest : List BlockId}
    (e : f.reversePostOrder = done ++ b :: rest) (ha : f.Reachable a) (h : f.Edge a b) : a ∈ done := by
  have hmem : a ∈ f.reversePostOrder := (mem_reversePostOrder hc).mpr ha
  rw [e] at hmem
  refine (List.mem_append.mp hmem).resolve_right fun hmem => ?_
  rcases List.mem_cons.mp hmem with rfl | hmem
  · exact hf.ne_of_edge ha h rfl
  · obtain ⟨pre, post, rfl⟩ := List.append_of_mem hmem
    have hpost := hf.mem_of_rpo hc (show _ = (done ++ b :: pre) ++ a :: post by rw [e]; simp) h
    have hnodup := nodup_reversePostOrder hc
    rw [e] at hnodup
    exact (List.nodup_cons.mp (List.nodup_append.mp hnodup).2.1).1 (by simp [hpost])

/-- Every block that control reaches leads to an exit. -/
theorem reachesExit (hc : f.Closed) (ha : f.Reachable a) : f.ReachesExit a := by
  have key : ∀ post pre, f.reversePostOrder = pre ++ post → ∀ a ∈ post, f.ReachesExit a := by
    intro post
    induction post with
    | nil => intro pre _ a ha; cases ha
    | cons b post ih =>
      intro pre e a ha
      have hpost := ih (pre ++ [b]) (by rw [e, List.append_assoc]; rfl)
      rcases List.mem_cons.mp ha with rfl | ha
      · cases ht : (f.term a).targets with
        | nil =>
          refine ⟨a, ?_, .refl a⟩
          cases hterm : f.term a with
          | unreachable | ret v => rfl
          | br t | brIf c x y =>
            rw [hterm] at ht
            cases ht
        | cons c cs =>
          have hac : f.Edge a c := by
            rw [Edge, ht]
            exact List.mem_cons_self
          obtain ⟨x, hx, hr⟩ := hpost c (hf.mem_of_rpo hc e hac)
          exact ⟨x, hx, Search.Reach.head hac hr⟩
      · exact hpost a ha
  exact key _ [] rfl a ((mem_reversePostOrder hc).mpr ha)

/-- There are no loops. -/
theorem loops_eq_nil (hc : f.Closed) : (Analyses.ofFunc f).loops.loops = [] := by
  refine List.eq_nil_iff_forall_not_mem.mpr fun l hl => ?_
  obtain ⟨y, hy, hp⟩ := LoopForest.exists_cycle hl
  obtain ⟨hr, hy⟩ := (Cfg.mem_succs hc).mp hy
  exact hf l.header hr y hy (reaches_of_path (Cfg.path_of_succs hc hp))

/-- A function with the same edges has no cycles either. -/
theorem of_targets (ht : ∀ b c, g.Edge b c ↔ f.Edge b c) : g.Acyclic := by
  have hreach : ∀ {a b}, g.Reaches a b → f.Reaches a b := fun h =>
    Relation.ReflTransGen.mono (fun x y e => (ht x y).mp e) _ _ h
  exact fun b hb c hc h => hf b (hreach hb) c ((ht b c).mp hc) (hreach h)

end Acyclic

/-! ## Courses -/

/-- The blocks that control passes from the entry to a return. -/
structure Course (f : Func) (P : List BlockId) : Prop where
  start : P.head? = some f.entry
  chain : P.IsChain f.Edge
  ends : ∃ b v, P.getLast? = some b ∧ f.term b = .ret v

namespace Course

variable (h : f.Course P)

include h

theorem reachable (hb : b ∈ P) : f.Reachable b := by
  obtain ⟨rest, rfl⟩ := List.head?_eq_some_iff.mp h.start
  exact List.IsChain.induction f.Reachable _ h.chain (fun _ _ hxy hx => hx.step hxy)
    (fun _ => reachable_entry f) b hb

theorem edge (hbc : [b, c] <:+: P) : f.Edge b c := by
  have := h.chain.infix hbc
  exact (List.isChain_cons_cons.mp this).1

/-- The blocks of a course lead to those after them. -/
theorem pairwise : P.Pairwise f.Leads := by
  have : Trans f.Leads f.Leads f.Leads := ⟨fun h k => h.trans k⟩
  exact (h.chain.imp fun _ _ => Leads.of_edge).pairwise

theorem nodup (hf : f.Acyclic) : P.Nodup := hf.nodup_of_isChain h.chain fun _ => h.reachable

/-- From a block that leads on, a course goes on. -/
theorem exists_next (hb : b ∈ P) (hc : f.Edge b c) : ∃ d, [b, d] <:+: P := by
  refine exists_pair_of_ne_last hb fun e => ?_
  obtain ⟨z, v, hz, hret⟩ := h.ends
  rw [e] at hz
  cases hz
  rw [Edge, hret] at hc
  cases hc

theorem next_unique (hf : f.Acyclic) (hc : [b, c] <:+: P) (hd : [b, d] <:+: P) : c = d :=
  pair_unique (h.nodup hf) hc hd

end Course

theorem path_along {Q : BlockId → Prop} {l : List BlockId} (hl : (a :: l).IsChain f.Edge)
    (hb : b ∈ a :: l) (hQ : ∀ x ∈ a :: l, Q x) : f.Path Q a b := by
  induction l generalizing a with
  | nil => exact List.mem_singleton.mp hb ▸ .refl _
  | cons c l ih =>
    obtain ⟨hac, hl⟩ := List.isChain_cons_cons.mp hl
    rcases List.mem_cons.mp hb with rfl | hb
    · exact .refl _
    · exact .head (hQ a List.mem_cons_self) hac
        (ih hl hb fun x hx => hQ x (List.mem_cons_of_mem _ hx))

end Func

end Lockstep
