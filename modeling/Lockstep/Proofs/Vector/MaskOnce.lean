import Lockstep.Proofs.Cfg.ReversePostOrder
import Lockstep.Proofs.Func.Check
import Lockstep.Proofs.Vector.MaskRequest

/-!
# Masks recorded once

A request records masks of blocks and edges that had none when it began, so what is there between two
requests stays. Within a request a mask can be replaced: the mask of a block with one predecessor is
recorded after that of the edge into it, and the request for the edge may come back to the block around
a loop; so may the request for the mask of an edge. That is all (`Answers.count_le_one`): a mask is
recorded once unless its block or edge is on a cycle of blocks that need masks (`Reenters`), and a block
with several predecessors always gets one mask.
-/

namespace Lockstep

namespace Stage

variable {g : Cfg} {f : Func} {s t u : Stage} {a b c p q : BlockId} {x : MaskOf} {task : MaskTask}
  {log : List (MaskOf × Value)} {v : Value}

/-! ## Blocks without a mask -/

/-- The block has no mask, and needs one. -/
def Unsettled (s : Stage) (b : BlockId) : Prop :=
  s.masks.get? (.block b) = none ∧ ¬ s.Plain b

instance (s : Stage) (b : BlockId) : Decidable (s.Unsettled b) :=
  inferInstanceAs (Decidable (_ ∧ _))

theorem Unsettled.of_recorded (h : (s.recorded x v).Unsettled c) : s.Unsettled c := by
  refine ⟨?_, fun hp => h.2 ((plain_recorded s x v).mpr hp)⟩
  have hnone := h.1
  rw [masks_recorded] at hnone
  exact ((Masks.get?_set_eq_none_iff _ _ _ _).mp hnone).2

/-- Control gets from one block to another through blocks that need masks. -/
inductive Leads (g : Cfg) (s : Stage) (a : BlockId) : BlockId → Prop
  | refl (ha : s.Unsettled a) : Leads g s a a
  | tail {b c : BlockId} (h : Leads g s a b) (hbc : b ∈ g.preds c) (hc : s.Unsettled c) : Leads g s a c

theorem Leads.unsettled (h : Leads g s a b) : s.Unsettled b := by
  cases h with
  | refl ha => exact ha
  | tail h hbc hc => exact hc

theorem Leads.mono (h : Leads g t a b) (hs : ∀ c, t.Unsettled c → s.Unsettled c) : Leads g s a b := by
  induction h with
  | refl ha => exact .refl (hs _ ha)
  | tail h hbc hc ih => exact .tail ih hbc (hs _ hc)

/-- A request for this mask can come back to it before it is recorded: it is that of a block with one
predecessor or of an edge, on a cycle of blocks that need masks. -/
def Reenters (g : Cfg) (s : Stage) : MaskOf → Prop
  | .block b => (∃ p, g.preds b = [p]) ∧ ∃ d, b ∈ g.preds d ∧ Leads g s d b
  | .edge p q => p ∈ g.preds q ∧ Leads g s q p

theorem Reenters.mono (h : Reenters g t x) (hs : ∀ c, t.Unsettled c → s.Unsettled c) :
    Reenters g s x := by
  cases x with
  | block b =>
    obtain ⟨hp, d, hbd, hd⟩ := h
    exact ⟨hp, d, hbd, hd.mono hs⟩
  | edge p q => exact ⟨h.1, h.2.mono hs⟩

/-- A rank that grows along the edges between blocks that need masks leaves no such cycle. -/
theorem not_reenters_of_rank (r : BlockId → Nat)
    (h : ∀ b, s.Unsettled b → ∀ a ∈ g.preds b, s.Unsettled a → r a < r b) (x : MaskOf) :
    ¬ Reenters g s x := by
  have hno : ∀ a b, a ∈ g.preds b → ¬ Leads g s b a := by
    intro a b hab hba
    have hle : r b ≤ r a ∧ s.Unsettled b := by
      clear hab
      induction hba with
      | refl ha => exact ⟨Nat.le_refl _, ha⟩
      | tail hlead hbc hc ih =>
        exact ⟨ih.1.trans (Nat.le_of_lt (h _ hc _ hbc hlead.unsettled)), ih.2⟩
    have hlt := h b hle.2 a hab hba.unsettled
    omega
  cases x with
  | block b =>
    rintro ⟨-, d, hbd, hd⟩
    exact hno b d hbd hd
  | edge p q => exact fun hx => hno p q hx.1 hx.2

/-- Without cycles no request comes back to a mask, whatever masks are there. -/
theorem not_reenters_of_acyclic (hf : f.Closed) (hac : f.Acyclic) (s : Stage) (x : MaskOf) :
    ¬ Reenters (.ofFunc f) s x := by
  refine not_reenters_of_rank (fun b => ((Cfg.ofFunc f).rpoIndex? b).getD 0) (fun b _ a hab _ => ?_) x
  obtain ⟨ha, hb⟩ := (Cfg.mem_preds hf).mp hab
  obtain ⟨i, j, hi, hj, hlt⟩ := Cfg.exists_rpoIndex?_lt hf hac ha hb
  simpa [hi, hj] using hlt

/-! ## What a request can come to -/

/-- What a request for the mask of a block can record. -/
def Touches (g : Cfg) (s : Stage) (b : BlockId) : MaskOf → Prop
  | .block c => c = b ∨ ∃ d, c ∈ g.preds d ∧ Leads g s d b
  | .edge c d => c ∈ g.preds d ∧ Leads g s d b

/-- What a request for the mask of an edge can record. -/
def TouchesEdge (g : Cfg) (s : Stage) (p q : BlockId) (x : MaskOf) : Prop :=
  x = .edge p q ∨ Touches g s p x

/-- What a part of a request can record. -/
def TouchesTask (g : Cfg) (s : Stage) : MaskTask → MaskOf → Prop
  | .find (.block b), x => Touches g s b x
  | .find (.edge p q), x => TouchesEdge g s p q x
  | .fill _ b preds, x => ∃ p ∈ preds, TouchesEdge g s p b x

theorem TouchesEdge.mono (h : TouchesEdge g t p q x) (hs : ∀ c, t.Unsettled c → s.Unsettled c) :
    TouchesEdge g s p q x := by
  refine h.imp_right fun h => ?_
  cases x with
  | block c => exact h.imp_right fun ⟨d, hcd, hd⟩ => ⟨d, hcd, hd.mono hs⟩
  | edge c d => exact ⟨h.1, h.2.mono hs⟩

/-- A block that needs a mask comes to what the edges into it come to. -/
theorem TouchesEdge.touches (h : TouchesEdge g s p b x) (hp : p ∈ g.preds b) (hb : s.Unsettled b) :
    Touches g s b x := by
  rcases h with rfl | h
  · exact ⟨hp, .refl hb⟩
  cases x with
  | block c =>
    rcases h with rfl | ⟨d, hcd, hd⟩
    · exact .inr ⟨b, hp, .refl hb⟩
    · exact .inr ⟨d, hcd, hd.tail hp hb⟩
  | edge c d => exact ⟨h.1, h.2.tail hp hb⟩

namespace Answers

/-- Requests settle blocks. -/
theorem unsettled (h : Answers g task s log v t) (hc : t.Unsettled c) : s.Unsettled c :=
  ⟨h.eq_none hc.1, fun hp => hc.2 (h.plain_iff.mpr hp)⟩

/-- What is recorded is what the task can come to. -/
theorem touches (h : Answers g task s log v t) : ∀ x ∈ log.map Prod.fst, TouchesTask g s task x := by
  induction h with
  | known h => exact fun x hx => absurd hx List.not_mem_nil
  | plain h hplain =>
    intro x hx
    rw [List.map_singleton, List.mem_singleton] at hx
    exact hx ▸ .inl rfl
  | single h hplain hpreds hedge ih =>
    intro x hx
    rw [List.map_append, List.mem_append, List.map_singleton, List.mem_singleton] at hx
    rcases hx with hx | rfl
    · exact TouchesEdge.touches (ih x hx) (hpreds ▸ List.mem_singleton_self _) ⟨h, hplain⟩
    · exact .inl rfl
  | @join b p q ps s t log v h hplain hpreds hfill ih =>
    intro x hx
    rw [List.map_cons, List.mem_cons] at hx
    rcases hx with rfl | hx
    · exact .inl rfl
    · obtain ⟨p', hp', htouch⟩ := ih x hx
      have htouch : TouchesEdge g s p' b x := htouch.mono fun c hc => hc.of_recorded
      exact htouch.touches (hpreds ▸ hp') ⟨h, hplain⟩
  | edge h hblock hnarrow ih =>
    intro x hx
    rw [List.map_append, List.mem_append, List.map_singleton, List.mem_singleton] at hx
    rcases hx with hx | rfl
    · exact .inr (ih x hx)
    · exact .inl rfl
  | nil => exact fun x hx => absurd hx List.not_mem_nil
  | cons hedge hrest ih ih' =>
    intro x hx
    rw [List.map_append, List.mem_append] at hx
    rcases hx with hx | hx
    · exact ⟨_, List.mem_cons_self, ih x hx⟩
    · obtain ⟨p', hp', htouch⟩ := ih' x hx
      exact ⟨p', List.mem_cons_of_mem _ hp', htouch.mono fun c hc => hedge.unsettled hc⟩

/-- What comes later in a sequence of tasks is not recorded before. -/
theorem disjoint (h : Answers g task s log v t) {log' : List (MaskOf × Value)}
    (hnone : ∀ x ∈ log'.map Prod.fst, t.masks.get? x = none) :
    ∀ x ∈ log.map Prod.fst, x ∉ log'.map Prod.fst := by
  intro x hx hx'
  have hsome := (Masks.isSome_get?_setAll s.masks log x).mpr (.inr hx)
  rw [← h.masks, hnone x hx'] at hsome
  cases hsome

theorem count_append_le_one {l l' : List MaskOf} (h : l.count x ≤ 1) (h' : l'.count x ≤ 1)
    (hd : x ∈ l → x ∉ l') : (l ++ l').count x ≤ 1 := by
  rw [List.count_append]
  by_cases hx : x ∈ l
  · rw [List.count_eq_zero_of_not_mem (hd hx)]
    exact h
  · rw [List.count_eq_zero_of_not_mem hx, Nat.zero_add]
    exact h'

/-- A mask to which no request comes back is recorded at most once. -/
theorem count_le_one (h : Answers g task s log v t) (hx : ¬ Reenters g s x) :
    (log.map Prod.fst).count x ≤ 1 := by
  induction h with
  | known h => exact Nat.zero_le _
  | plain h hplain => exact List.count_le_length
  | @single b p s t log v h hplain hpreds hedge ih =>
    rw [List.map_append]
    refine count_append_le_one (ih hx) List.count_le_length fun hmem hb => ?_
    obtain rfl : x = .block b := List.mem_singleton.mp hb
    have hpb : p ∈ g.preds b := hpreds ▸ List.mem_singleton_self _
    rcases hedge.touches _ hmem with e | rfl | ⟨d, hbd, hd⟩
    · cases e
    · exact hx ⟨⟨b, hpreds⟩, b, hpb, .refl ⟨h, hplain⟩⟩
    · exact hx ⟨⟨p, hpreds⟩, d, hbd, hd.tail hpb ⟨h, hplain⟩⟩
  | @join b p q ps s t log v h hplain hpreds hfill ih =>
    have hlog := ih fun hr => hx (hr.mono fun c hc => hc.of_recorded)
    refine count_append_le_one (l := [.block b]) List.count_le_length hlog fun hb hmem => ?_
    obtain rfl : x = .block b := List.mem_singleton.mp hb
    have hnone := hfill.fresh _ hmem
    rw [masks_recorded] at hnone
    exact ((Masks.get?_set_eq_none_iff _ _ _ _).mp hnone).1 rfl
  | @edge p q s t u log v w h hblock hnarrow ih =>
    rw [List.map_append]
    refine count_append_le_one (ih hx) List.count_le_length fun hmem he => ?_
    obtain rfl : x = .edge p q := List.mem_singleton.mp he
    exact hx (hblock.touches _ hmem)
  | nil => exact Nat.zero_le _
  | cons hedge hrest ih ih' =>
    rw [List.map_append]
    have hlog' := ih' fun hr => hx (hr.mono fun c hc => hedge.unsettled hc)
    exact count_append_le_one (ih hx) hlog' (hedge.disjoint hrest.fresh x)

end Answers

/-! ## Sequences of requests -/

/-- What a sequence of requests does; the masks are listed in the order in which they are recorded. -/
inductive AnswersAll (g : Cfg) : List MaskOf → Stage → List (MaskOf × Value) → Stage → Prop
  | nil {s : Stage} : AnswersAll g [] s [] s
  | cons {x : MaskOf} {xs : List MaskOf} {s t u : Stage} {log log' : List (MaskOf × Value)} {v : Value}
    (h : Answers g (.find x) s log v t) (hrest : AnswersAll g xs t log' u) :
    AnswersAll g (x :: xs) s (log ++ log') u

namespace AnswersAll

variable {xs : List MaskOf}

theorem masks (h : AnswersAll g xs s log t) : t.masks = s.masks.setAll log := by
  induction h with
  | nil => rfl
  | cons h hrest ih => rw [Masks.setAll_append, ih, h.masks]

theorem fresh (h : AnswersAll g xs s log t) : ∀ x ∈ log.map Prod.fst, s.masks.get? x = none := by
  induction h with
  | nil => exact fun x hx => absurd hx List.not_mem_nil
  | cons h hrest ih =>
    intro x hx
    rw [List.map_append, List.mem_append] at hx
    rcases hx with hx | hx
    · exact h.fresh x hx
    · exact h.eq_none (ih x hx)

theorem count_le_one (h : AnswersAll g xs s log t) (hx : ¬ Reenters g s x) :
    (log.map Prod.fst).count x ≤ 1 := by
  induction h with
  | nil => exact Nat.zero_le _
  | cons h hrest ih =>
    rw [List.map_append]
    have hlog' := ih fun hr => hx (hr.mono fun c hc => h.unsettled hc)
    exact Answers.count_append_le_one (h.count_le_one hx) hlog' (h.disjoint hrest.fresh x)

end AnswersAll

/-- What a sequence of requests does from any stage, if nothing leads back to the entry. The masks that it
records are listed, in order. None of them was there before: what has a mask when the sequence begins
keeps it. A mask is recorded at most once unless the request for it can come back to it. -/
theorem exists_answersAll (hf : f.Closed) (he : (Cfg.ofFunc f).preds f.entry = []) (s : Stage)
    (xs : List MaskOf) : ∃ log t, requestAll (.ofFunc f) xs s = (⟨⟩, t) ∧
      AnswersAll (.ofFunc f) xs s log t ∧ t.masks = s.masks.setAll log ∧
      (∀ x ∈ log.map Prod.fst, s.masks.get? x = none) ∧
      ∀ x, ¬ Reenters (.ofFunc f) s x → (log.map Prod.fst).count x ≤ 1 := by
  have hall : ∃ log t, requestAll (.ofFunc f) xs s = (⟨⟩, t) ∧ AnswersAll (.ofFunc f) xs s log t := by
    induction xs generalizing s with
    | nil => exact ⟨[], s, rfl, .nil⟩
    | cons x xs ih =>
      obtain ⟨log, h⟩ := exists_answers hf he x s
      obtain ⟨log', t, e, hrest⟩ := ih (request (.ofFunc f) x s).2
      exact ⟨log ++ log', t, e, .cons h hrest⟩
  obtain ⟨log, t, e, h⟩ := hall
  exact ⟨log, t, e, h, h.masks, h.fresh, fun x hx => h.count_le_one hx⟩

/-- A loop with one block besides its header, with nothing known about it. -/
def latched : Stage where
  func := {
    params := [.bool]
    retTy := .void
    blocks := #[
      { term := .br 1 },
      { term := .brIf (.param 0) 2 3 },
      { term := .br 1 },
      { term := .ret none }]
    insts := #[]
    layout := [0, 1, 2, 3] }
  info := { width := 2 }

/-- With a mask for the header there before, no mask of the loop is recorded twice. -/
theorem exists_answersAll_latched :
    latched.func.Closed ∧ (Cfg.ofFunc latched.func).preds latched.func.entry = [] ∧
      ∃ log t, requestAll (.ofFunc latched.func) [.block 2, .edge 2 1]
          (latched.recorded (.block 1) (.param 0)) = (⟨⟩, t) ∧
        ¬ Reenters (.ofFunc latched.func) (latched.recorded (.block 1) (.param 0)) (.block 2) ∧
        t.masks = (latched.recorded (.block 1) (.param 0)).masks.setAll log ∧
        (log.map Prod.fst).count (.block 2) ≤ 1 := by
  have hf : latched.func.Closed := (by decide : latched.func.Coherent).toClosed
  have he : (Cfg.ofFunc latched.func).preds latched.func.entry = [] := by decide
  obtain ⟨log, t, e, -, hmasks, -, honce⟩ :=
    exists_answersAll hf he (latched.recorded (.block 1) (.param 0)) [.block 2, .edge 2 1]
  have hedges : ∀ a < 4, ∀ b ∈ (latched.func.term a).targets,
      (latched.recorded (.block 1) (.param 0)).Unsettled b →
      ¬ (latched.recorded (.block 1) (.param 0)).Unsettled a := by decide
  have hno := not_reenters_of_rank (g := .ofFunc latched.func)
    (s := latched.recorded (.block 1) (.param 0)) id (fun b hb a hab ha => by
      have hab := ((Cfg.mem_preds hf).mp hab).2
      exact absurd ha (hedges a (latched.func.lt_of_mem_targets hab) b hab hb)) (.block 2)
  exact ⟨hf, he, log, t, e, hno, hmasks, honce _ hno⟩

/-- Without it, a request for the mask of the other block makes it, and then replaces it by another: the
phi of the header asks for the mask before it is recorded. -/
theorem replaced_latched :
    latched.func.Checks ∧ latched.masks = {} ∧ ∃ log v w t,
      request (.ofFunc latched.func) (.block 2) latched = (w, t) ∧
      Answers (.ofFunc latched.func) (.find (.block 2)) latched log w t ∧
      (MaskOf.block 2, v) ∈ log ∧ (MaskOf.block 2, w) ∈ log ∧ v ≠ w := by
  have hchecks : latched.func.Checks := by decide +kernel
  have h1 : (Cfg.ofFunc latched.func).preds 1 = [0, 2] := by decide
  have h2 : (Cfg.ofFunc latched.func).preds 2 = [1] := by decide
  have hfill : Answers (.ofFunc latched.func) (.fill 0 1 [0, 2])
      ((latched.withMaskPhi 1).recorded (.block 1) (.inst 0)) _ _ _ :=
    .cons (.edge rfl (.plain rfl (.inl (by decide))) rfl)
      (.cons (.edge rfl (.single rfl (by decide +kernel) h2 (.edge rfl (.known rfl) rfl)) rfl) .nil)
  have h := Answers.single (s := latched) rfl (by decide) h2
    (.edge rfl (.join rfl (by decide) h1 hfill) rfl)
  obtain ⟨log', h'⟩ := exists_answers hchecks.coherent.toClosed (by decide) (.block 2) latched
  obtain ⟨-, hv, ht⟩ := h.unique h'
  refine ⟨hchecks, rfl, _, _, _, _, Prod.ext hv ht, h, List.mem_of_getElem? (i := 4) rfl,
    List.mem_of_getElem? (i := 7) rfl, ?_⟩
  decide +kernel

end Stage

end Lockstep
