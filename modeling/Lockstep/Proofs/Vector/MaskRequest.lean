import Lockstep.Proofs.Cfg.DominatorTree
import Lockstep.Proofs.Vector.MaskStep

/-!
# Requests for masks

Asking for the mask of a block asks for those of the edges into it, and asking for the mask of an edge
asks for that of its source. `Answers` says what a request does without saying how deep it goes: a
derivation is the tree of the requests that it leads to, and lists the masks in the order in which they
are recorded. Where nothing leads back to the entry, every request has such a derivation
(`exists_answers`), because it can pass each block with several predecessors once, and climbs to an
earlier block otherwise; so making all masks twice is making them once (`requests_terminate`).
-/

namespace Lockstep

/-- What a mask belongs to. -/
inductive MaskOf
  | block (b : BlockId)
  | edge (pred succ : BlockId)
  deriving DecidableEq, Repr

namespace Masks

def get? (m : Masks) : MaskOf → Option Value
  | .block b => m.block? b
  | .edge p q => m.edge? p q

def set (m : Masks) : MaskOf → Value → Masks
  | .block b, v => m.setBlock b v
  | .edge p q, v => m.setEdge p q v

theorem get?_set (m : Masks) (x y : MaskOf) (v : Value) :
    (m.set x v).get? y = if y = x then some v else m.get? y := by
  cases x with
  | block b =>
    cases y with
    | block c => simp [get?, set, block?_setBlock]
    | edge p q => rw [if_neg (by simp)]; rfl
  | edge b c =>
    cases y with
    | block c => rw [if_neg (by simp)]; rfl
    | edge p q => simp [get?, set, edge?_setEdge]

theorem get?_set_eq_none_iff (m : Masks) (x y : MaskOf) (v : Value) :
    (m.set x v).get? y = none ↔ y ≠ x ∧ m.get? y = none := by
  rw [get?_set]
  split
  · rename_i e
    exact ⟨(fun h => by cases h), fun h => absurd e h.1⟩
  · rename_i hne
    exact (and_iff_right hne).symm

/-- Records masks in the order of the list. -/
def setAll (m : Masks) (log : List (MaskOf × Value)) : Masks :=
  log.foldl (fun m e => m.set e.1 e.2) m

theorem setAll_append (m : Masks) (log log' : List (MaskOf × Value)) :
    m.setAll (log ++ log') = (m.setAll log).setAll log' :=
  List.foldl_append

/-- What is recorded was there or is listed. -/
theorem isSome_get?_setAll (m : Masks) (log : List (MaskOf × Value)) (x : MaskOf) :
    ((m.setAll log).get? x).isSome = true ↔ (m.get? x).isSome = true ∨ x ∈ log.map Prod.fst := by
  induction log generalizing m with
  | nil => simp [setAll]
  | cons e log ih =>
    rw [show m.setAll (e :: log) = (m.set e.1 e.2).setAll log from rfl, ih, get?_set, List.map_cons,
      List.mem_cons]
    by_cases h : x = e.1 <;> simp [h]

theorem get?_setAll_of_not_mem (m : Masks) {log : List (MaskOf × Value)} {x : MaskOf}
    (h : x ∉ log.map Prod.fst) : (m.setAll log).get? x = m.get? x := by
  induction log generalizing m with
  | nil => rfl
  | cons e log ih =>
    rw [List.map_cons, List.mem_cons, not_or] at h
    rw [show m.setAll (e :: log) = (m.set e.1 e.2).setAll log from rfl, ih _ h.2, get?_set, if_neg h.1]

end Masks

/-- A reachable block of the region, or an edge from one. -/
def MaskOf.InRegion (g : Cfg) (s : Stage) : MaskOf → Prop
  | .block b => b ∈ g.rpo ∧ s.info.inRegion b = true
  | .edge p q => p ∈ g.rpo ∧ s.info.inRegion p = true ∧ q ∈ g.succs p

namespace Stage

/-- Asks for a mask. -/
def request (g : Cfg) : MaskOf → StateM Stage Value
  | .block b => blockMask g b
  | .edge p q => edgeMask g p q

/-- Asks for masks one after the other. -/
def requestAll (g : Cfg) (xs : List MaskOf) : StateM Stage Unit :=
  xs.forM fun x => do
    let _ ← request g x

/-! ## What a request does -/

/-- With a mask recorded. -/
def recorded (s : Stage) : MaskOf → Value → Stage
  | .block b, v => { s with info := s.info.setPredicate b v, masks := s.masks.setBlock b v }
  | .edge p q, v => { s with masks := s.masks.setEdge p q v }

/-- With a new phi for the mask of a block. -/
def withMaskPhi (s : Stage) (b : BlockId) : Stage where
  func := (s.func.appendPhi b .bool []).2
  info := s.info.setShape (.inst s.func.insts.size) .vary
  masks := s.masks

/-- The block needs no mask other than true: it is the entry, not in the region, or not divergent. -/
def Plain (s : Stage) (b : BlockId) : Prop :=
  (b = s.info.entry s.func || !s.info.inRegion b || !s.info.isDivergent b) = true

instance (s : Stage) (b : BlockId) : Decidable (s.Plain b) := inferInstanceAs (Decidable (_ = true))

/-- Narrows the mask of a block to those that take an edge from it. -/
def narrow (pred succ : BlockId) (predMask : Value) : StateM Stage Value := fun s =>
  match s.func.term pred with
  | .brIf cond onTrue _ =>
    let shape := s.info.shapeOfInputs [predMask, cond]
    let narrowing : StateM Stage Value := do
      let (taken, mask) ← build (.blockEnd pred) (narrowed cond predMask (onTrue = succ))
      for v in [taken, mask] do
        if v.inst?.isSome && v != cond && v != predMask then setShape v shape
      return mask
    narrowing s
  | _ => (predMask, s)

/-- A part of answering a request. -/
inductive MaskTask
  /-- Find a mask. -/
  | find (x : MaskOf)
  /-- Give a phi of a block an entry for each of some predecessors. -/
  | fill (phi : InstId) (b : BlockId) (preds : List BlockId)

/-- `Answers g task s log v t`: the task, begun at `s`, ends at `t` with `v`, after recording the masks
`log` in this order. -/
inductive Answers (g : Cfg) : MaskTask → Stage → List (MaskOf × Value) → Value → Stage → Prop
  | known {x : MaskOf} {s : Stage} {v : Value} (h : s.masks.get? x = some v) :
    Answers g (.find x) s [] v s
  | plain {b : BlockId} {s : Stage} (h : s.masks.get? (.block b) = none)
    (hplain : s.Plain b ∨ g.preds b = []) :
    Answers g (.find (.block b)) s [(.block b, .ofBool true)] (.ofBool true)
      (s.recorded (.block b) (.ofBool true))
  | single {b p : BlockId} {s t : Stage} {log : List (MaskOf × Value)} {v : Value}
    (h : s.masks.get? (.block b) = none) (hplain : ¬ s.Plain b) (hpreds : g.preds b = [p])
    (hedge : Answers g (.find (.edge p b)) s log v t) :
    Answers g (.find (.block b)) s (log ++ [(.block b, v)]) v (t.recorded (.block b) v)
  | join {b p q : BlockId} {ps : List BlockId} {s t : Stage} {log : List (MaskOf × Value)} {v : Value}
    (h : s.masks.get? (.block b) = none) (hplain : ¬ s.Plain b) (hpreds : g.preds b = p :: q :: ps)
    (hfill : Answers g (.fill s.func.insts.size b (p :: q :: ps))
      ((s.withMaskPhi b).recorded (.block b) (.inst s.func.insts.size)) log v t) :
    Answers g (.find (.block b)) s ((.block b, .inst s.func.insts.size) :: log)
      (.inst s.func.insts.size) t
  | edge {p q : BlockId} {s t u : Stage} {log : List (MaskOf × Value)} {v w : Value}
    (h : s.masks.get? (.edge p q) = none) (hblock : Answers g (.find (.block p)) s log v t)
    (hnarrow : narrow p q v t = (w, u)) :
    Answers g (.find (.edge p q)) s (log ++ [(.edge p q, w)]) w (u.recorded (.edge p q) w)
  | nil {phi : InstId} {b : BlockId} {s : Stage} : Answers g (.fill phi b []) s [] (.inst phi) s
  | cons {phi : InstId} {b p : BlockId} {ps : List BlockId} {s t u : Stage}
    {log log' : List (MaskOf × Value)} {v w : Value} (hedge : Answers g (.find (.edge p b)) s log v t)
    (hrest : Answers g (.fill phi b ps) { t with func := t.func.setIncoming phi p v } log' w u) :
    Answers g (.fill phi b (p :: ps)) s (log ++ log') w u

variable {g : Cfg} {f : Func} {s t u : Stage} {b p q : BlockId} {fuel : Nat}

/-! ## The functions, one step at a time -/

/-- The mask of an edge that is not there is made from that of its source. -/
theorem edgeMaskBy_of_none {blockMask : BlockId → StateM Stage Value}
    (h : s.masks.get? (.edge p q) = none) {v w : Value} (hblock : blockMask p s = (v, t))
    (hnarrow : narrow p q v t = (w, u)) :
    edgeMaskBy blockMask p q s = (w, u.recorded (.edge p q) w) := by
  have h : s.masks.edge? p q = none := h
  unfold narrow at hnarrow
  unfold edgeMaskBy
  simp only [bind, StateT.bind, get, getThe, MonadStateOf.get, StateT.get, pure, h, hblock]
  cases hterm : t.func.term p with
  | brIf cond onTrue onFalse =>
    rw [hterm] at hnarrow
    unfold narrowed at hnarrow
    simp only [bind, StateT.bind, pure] at hnarrow ⊢
    generalize build _ _ t = r at hnarrow ⊢
    obtain ⟨⟨taken, mask⟩, t'⟩ := r
    dsimp only at hnarrow ⊢
    split at hnarrow
    cases hnarrow
    rfl
  | br _ | ret _ | unreachable =>
    rw [hterm] at hnarrow
    cases hnarrow
    rfl

/-- Gives a phi of a block the masks of the edges from some predecessors. -/
def filled (blockMask : BlockId → StateM Stage Value) (phi : InstId) (b : BlockId)
    (preds : List BlockId) (s : Stage) : Stage :=
  preds.foldl (fun (t : Stage) p =>
    let r := edgeMaskBy blockMask p b t
    { r.2 with func := r.2.func.setIncoming phi p r.1 }) s

theorem forIn_setIncoming (blockMask : BlockId → StateM Stage Value) (phi : InstId)
    (preds : List BlockId) (s : Stage) :
    ForIn.forIn (m := StateM Stage) preds PUnit.unit (fun p _ => do
      let mask ← edgeMaskBy blockMask p b
      modifyFunc (·.setIncoming phi p mask)
      pure (.yield PUnit.unit)) s = (PUnit.unit, filled blockMask phi b preds s) := by
  induction preds generalizing s with
  | nil => rfl
  | cons p preds ih =>
    rw [List.forIn_cons]
    exact ih _

theorem blockMaskWithin_of_some {v : Value} (h : s.masks.get? (.block b) = some v) :
    blockMaskWithin g (fuel + 1) b s = (v, s) := by
  have h : s.masks.block? b = some v := h
  unfold blockMaskWithin
  simp only [bind, StateT.bind, get, getThe, MonadStateOf.get, StateT.get, pure, h]
  rfl

/-- Without a mask for the block, one is made. -/
theorem blockMaskWithin_of_none (h : s.masks.get? (.block b) = none) :
    blockMaskWithin g (fuel + 1) b s = (
      if s.Plain b then (.ofBool true, s.recorded (.block b) (.ofBool true))
      else match g.preds b with
        | [] => (.ofBool true, s.recorded (.block b) (.ofBool true))
        | [p] =>
          let r := edgeMaskBy (blockMaskWithin g fuel) p b s
          (r.1, r.2.recorded (.block b) r.1)
        | preds =>
          let phi := s.func.insts.size
          (.inst phi, filled (blockMaskWithin g fuel) phi b preds
            ((s.withMaskPhi b).recorded (.block b) (.inst phi)))) := by
  have h : s.masks.block? b = none := h
  unfold blockMaskWithin
  simp only [bind, StateT.bind, get, getThe, MonadStateOf.get, StateT.get, pure, h]
  by_cases hp : s.Plain b
  · rw [if_pos hp]
    unfold Plain at hp
    rw [if_pos hp]
    rfl
  · rw [if_neg hp]
    unfold Plain at hp
    rw [if_neg hp]
    rcases g.preds b with _ | ⟨p, _ | ⟨q, ps⟩⟩
    · rfl
    · rfl
    · have hfill := forIn_setIncoming (b := b) (blockMaskWithin g fuel) s.func.insts.size (p :: q :: ps)
        ((s.withMaskPhi b).recorded (.block b) (.inst s.func.insts.size))
      exact congrArg (fun r : PUnit × Stage => (Value.inst s.func.insts.size, r.2)) hfill

/-! ## What is recorded -/

/-- Neither masks nor what needs none has changed. -/
structure Frame (s t : Stage) : Prop where
  masks : t.masks = s.masks
  region : t.info.region = s.info.region
  divergence : t.info.divergence = s.info.divergence

theorem Frame.plain_iff (h : Frame s t) : t.Plain b ↔ s.Plain b := by
  unfold Plain VectorInfo.entry VectorInfo.inRegion VectorInfo.isDivergent Func.entry
  rw [h.region, h.divergence]

theorem triple_narrow (v : Value) : Triple (Frame s) (narrow p q v) fun _ => Frame s := by
  intro t w u ht e
  unfold narrow at e
  split at e
  · rename_i cond onTrue onFalse _
    refine Triple.bind (P := Frame s) (R := fun _ => Frame s) (Q := fun _ => Frame s) ?_
      (fun r => ?_) t w u ht e
    · intro t r u ht e
      cases e
      exact ⟨ht.masks, ht.region, ht.divergence⟩
    · refine Triple.bind (R := fun _ => Frame s) (triple_forIn_setShape fun v _ _ t ht => ?_) fun _ =>
        Triple.pure fun u hu => hu
      exact ⟨ht.masks, ht.region, ht.divergence⟩
  · cases e
    exact ht

@[simp] theorem masks_recorded (s : Stage) (x : MaskOf) (v : Value) :
    (s.recorded x v).masks = s.masks.set x v := by
  cases x <;> rfl

@[simp] theorem plain_recorded (s : Stage) (x : MaskOf) (v : Value) :
    (s.recorded x v).Plain b ↔ s.Plain b := by
  cases x <;> exact Iff.rfl

namespace Answers

variable {task : MaskTask} {log : List (MaskOf × Value)} {v : Value}

/-- The log lists all that has been recorded. -/
theorem masks (h : Answers g task s log v t) : t.masks = s.masks.setAll log := by
  induction h with
  | known h => rfl
  | plain h hplain => rfl
  | @single b p s t log v h hplain hpreds hedge ih =>
    rw [masks_recorded, Masks.setAll_append, ih]
    rfl
  | join h hplain hpreds hfill ih => exact ih
  | @edge p q s t u log v w h hblock hnarrow ih =>
    have hu : u.masks = t.masks := (triple_narrow v t w u ⟨rfl, rfl, rfl⟩ hnarrow).masks
    rw [masks_recorded, Masks.setAll_append, hu, ih]
    rfl
  | nil => rfl
  | cons hedge hrest ih ih' =>
    rw [Masks.setAll_append, ih', ← ih]

/-- Requests do not change which blocks need no mask. -/
theorem plain_iff (h : Answers g task s log v t) : t.Plain b ↔ s.Plain b := by
  induction h with
  | known h => exact Iff.rfl
  | plain h hplain => exact Iff.rfl
  | single h hplain hpreds hedge ih => exact ih
  | join h hplain hpreds hfill ih => exact ih
  | edge h hblock hnarrow ih =>
    exact (triple_narrow _ _ _ _ ⟨rfl, rfl, rfl⟩ hnarrow).plain_iff.trans ih
  | nil => exact Iff.rfl
  | cons hedge hrest ih ih' => exact ih'.trans ih

/-- What has a mask keeps one. -/
theorem eq_none (h : Answers g task s log v t) {x : MaskOf} (hx : t.masks.get? x = none) :
    s.masks.get? x = none := by
  rw [h.masks, ← Option.not_isSome_iff_eq_none, Masks.isSome_get?_setAll] at hx
  exact Option.not_isSome_iff_eq_none.mp fun e => hx (.inl e)

/-- What a request records had no mask when it began. -/
theorem fresh (h : Answers g task s log v t) : ∀ x ∈ log.map Prod.fst, s.masks.get? x = none := by
  induction h with
  | known h => exact fun x hx => absurd hx List.not_mem_nil
  | plain h hplain =>
    intro x hx
    rw [List.map_singleton, List.mem_singleton] at hx
    exact hx ▸ h
  | single h hplain hpreds hedge ih =>
    intro x hx
    rw [List.map_append, List.mem_append, List.map_singleton, List.mem_singleton] at hx
    rcases hx with hx | rfl
    · exact ih x hx
    · exact h
  | join h hplain hpreds hfill ih =>
    intro x hx
    rw [List.map_cons, List.mem_cons] at hx
    rcases hx with rfl | hx
    · exact h
    · have hnone := ih x hx
      rw [masks_recorded] at hnone
      exact ((Masks.get?_set_eq_none_iff _ _ _ _).mp hnone).2
  | edge h hblock hnarrow ih =>
    intro x hx
    rw [List.map_append, List.mem_append, List.map_singleton, List.mem_singleton] at hx
    rcases hx with hx | rfl
    · exact ih x hx
    · exact h
  | nil => exact fun x hx => absurd hx List.not_mem_nil
  | cons hedge hrest ih ih' =>
    intro x hx
    rw [List.map_append, List.mem_append] at hx
    rcases hx with hx | hx
    · exact ih x hx
    · exact hedge.eq_none (ih' x hx)

/-- The answer is the mask that is there afterwards. -/
theorem get?_eq {x : MaskOf} (h : Answers g (.find x) s log v t) : t.masks.get? x = some v := by
  cases h with
  | known h => exact h
  | plain h hplain => rw [masks_recorded, Masks.get?_set, if_pos rfl]
  | single h hplain hpreds hedge => rw [masks_recorded, Masks.get?_set, if_pos rfl]
  | @join b p q ps _ _ _ v h hplain hpreds hfill =>
    have hnot : MaskOf.block b ∉ _ := fun hx => by
      have hnone := hfill.fresh _ hx
      rw [masks_recorded] at hnone
      exact ((Masks.get?_set_eq_none_iff _ _ _ _).mp hnone).1 rfl
    rw [hfill.masks, Masks.get?_setAll_of_not_mem _ hnot, masks_recorded, Masks.get?_set, if_pos rfl]
  | edge h hblock hnarrow => rw [masks_recorded, Masks.get?_set, if_pos rfl]

/-- A task has one derivation. -/
theorem unique (h : Answers g task s log v t) {log' : List (MaskOf × Value)} {v' : Value}
    {t' : Stage} (h' : Answers g task s log' v' t') : log' = log ∧ v' = v ∧ t' = t := by
  induction h generalizing log' v' t' with
  | known h => cases h' <;> grind
  | plain h hplain => cases h' <;> grind
  | single h hplain hpreds hedge ih => cases h' <;> grind
  | join h hplain hpreds hfill ih => cases h' <;> grind
  | edge h hblock hnarrow ih => cases h' <;> grind
  | nil =>
    cases h'
    exact ⟨rfl, rfl, rfl⟩
  | cons hedge hrest ih ih' =>
    cases h'
    grind

end Answers

/-! ## Every request ends -/

/-- The blocks with several predecessors that have no mask yet. -/
def openJoins (g : Cfg) (m : Masks) : Finset BlockId :=
  (Finset.range g.predTable.size).filter fun b => 2 ≤ (g.preds b).length ∧ m.block? b = none

/-- How deep a request for the mask of a block may go: between two blocks with several predecessors,
it climbs from a block to an earlier one. -/
def depthLeft (g : Cfg) (m : Masks) (b : BlockId) : Nat :=
  (openJoins g m).card * (g.succTable.size + 1) + (g.rpoIndex? b).getD 0 + 1

theorem Answers.openJoins_subset {task : MaskTask} {log : List (MaskOf × Value)} {v : Value}
    (h : Answers g task s log v t) : openJoins g t.masks ⊆ openJoins g s.masks := by
  intro b hb
  obtain ⟨hlt, hlen, hnone⟩ := Finset.mem_filter.mp hb
  exact Finset.mem_filter.mpr ⟨hlt, hlen, h.eq_none (x := .block b) hnone⟩

theorem edgeMaskBy_of_some {blockMask : BlockId → StateM Stage Value} {v : Value}
    (h : s.masks.get? (.edge p q) = some v) : edgeMaskBy blockMask p q s = (v, s) := by
  have h : s.masks.edge? p q = some v := h
  unfold edgeMaskBy
  simp only [bind, StateT.bind, get, getThe, MonadStateOf.get, StateT.get, pure, h]
  rfl

/-- A request for the mask of an edge ends if that for its source does. -/
theorem exists_answers_edge {blockMask : BlockId → StateM Stage Value}
    (hp : ∃ log, Answers g (.find (.block p)) s log (blockMask p s).1 (blockMask p s).2) :
    ∃ log, Answers g (.find (.edge p q)) s log (edgeMaskBy blockMask p q s).1
      (edgeMaskBy blockMask p q s).2 := by
  cases he : s.masks.get? (.edge p q) with
  | some v =>
    rw [edgeMaskBy_of_some he]
    exact ⟨[], .known he⟩
  | none =>
    obtain ⟨log, hp⟩ := hp
    have hblock : blockMask p s = ((blockMask p s).1, (blockMask p s).2) := rfl
    rw [edgeMaskBy_of_none he hblock rfl]
    exact ⟨_, .edge he hp rfl⟩

/-- The entries of a phi are found if the masks of the predecessors are, with no more blocks open. -/
theorem exists_answers_fill {blockMask : BlockId → StateM Stage Value} (phi : InstId)
    (preds : List BlockId) (hp : ∀ p ∈ preds, ∀ t, openJoins g t.masks ⊆ openJoins g s.masks →
      ∃ log, Answers g (.find (.block p)) t log (blockMask p t).1 (blockMask p t).2) :
    ∃ log, Answers g (.fill phi b preds) s log (.inst phi) (filled blockMask phi b preds s) := by
  induction preds generalizing s with
  | nil => exact ⟨[], .nil⟩
  | cons p preds ih =>
    obtain ⟨log, hedge⟩ := exists_answers_edge (q := b) (hp p List.mem_cons_self s (Finset.Subset.refl _))
    let r := edgeMaskBy blockMask p b s
    obtain ⟨log', hrest⟩ := ih (s := { r.2 with func := r.2.func.setIncoming phi p r.1 })
      fun q hq t ht => hp q (List.mem_cons_of_mem p hq) t (ht.trans hedge.openJoins_subset)
    exact ⟨log ++ log', .cons hedge hrest⟩

/-- A block with one predecessor stands after it. -/
theorem rpoIndex?_lt_of_preds (hf : f.Closed) (he : (Cfg.ofFunc f).preds f.entry = [])
    (h : (Cfg.ofFunc f).preds b = [p]) :
    ((Cfg.ofFunc f).rpoIndex? p).getD 0 < ((Cfg.ofFunc f).rpoIndex? b).getD 0 := by
  obtain ⟨hp, hpb⟩ := (Cfg.mem_preds hf).mp (h ▸ List.mem_singleton_self p)
  obtain ⟨k, hk⟩ := Cfg.exists_rpoIndex? hf (hp.step hpb)
  rcases DomTree.root_or_exists_earlier (Func.nodup_reversePostOrder hf)
    (fun _ _ _ e => Func.reversePostOrder_grown hf e) hk with rfl | ⟨p', i, hi, hlt, hp'b⟩
  · rw [he] at h
    cases h
  · have hi : (Cfg.ofFunc f).rpoIndex? p' = some i := hi
    have hp' : f.Reachable p' := (Cfg.mem_rpo hf).mp (List.mem_of_getElem? (Cfg.getElem?_of_rpoIndex? hi))
    have hmem : p' ∈ (Cfg.ofFunc f).preds b := (Cfg.mem_preds hf).mpr ⟨hp', hp'b⟩
    rw [h, List.mem_singleton] at hmem
    subst hmem
    rw [hi, hk]
    exact hlt

/-- There are no more positions than blocks. -/
theorem rpoIndex?_getD_le (hf : f.Closed) :
    ((Cfg.ofFunc f).rpoIndex? b).getD 0 ≤ (Cfg.ofFunc f).succTable.size := by
  cases hk : (Cfg.ofFunc f).rpoIndex? b with
  | none => exact Nat.zero_le _
  | some k =>
    have hlt : k < f.reversePostOrder.length :=
      (List.getElem?_eq_some_iff.mp (Cfg.getElem?_of_rpoIndex? hk)).1
    have hsub : f.reversePostOrder ⊆ List.range f.blocks.size := fun x hx =>
      List.mem_range.mpr (((Func.mem_reversePostOrder hf).mp hx).lt hf)
    have hle := (List.subperm_of_subset (Func.nodup_reversePostOrder hf) hsub).length_le
    have hsize : (Cfg.ofFunc f).succTable.size = (List.range f.blocks.size).length := by
      simp [Cfg.ofFunc, Func.blockIds]
    rw [Option.getD_some, hsize]
    omega

/-- Recording the mask of a block with several predecessors leaves fewer of them open. -/
theorem card_openJoins_lt (hb : s.masks.get? (.block b) = none) (hpreds : 2 ≤ (g.preds b).length)
    (v : Value) : (openJoins g (s.masks.setBlock b v)).card < (openJoins g s.masks).card := by
  have hlt : b < g.predTable.size := by
    by_contra hge
    rw [Cfg.preds, Array.getElem?_eq_none (Nat.le_of_not_lt hge)] at hpreds
    exact absurd hpreds (by decide)
  refine Finset.card_lt_card ((Finset.ssubset_iff_of_subset fun x hx => ?_).mpr ⟨b, ?_, ?_⟩)
  · obtain ⟨hx, hlen, hnone⟩ := Finset.mem_filter.mp hx
    rw [Masks.block?_setBlock] at hnone
    split at hnone
    · cases hnone
    · exact Finset.mem_filter.mpr ⟨hx, hlen, hnone⟩
  · exact Finset.mem_filter.mpr ⟨Finset.mem_range.mpr hlt, hpreds, hb⟩
  · intro hx
    have hnone := (Finset.mem_filter.mp hx).2.2
    rw [Masks.block?_setBlock, if_pos rfl] at hnone
    cases hnone

/-- A request that may go as deep as it needs to ends with the answer of a derivation. -/
theorem exists_answers_within (hf : f.Closed) (he : (Cfg.ofFunc f).preds f.entry = []) (fuel : Nat)
    (b : BlockId) (s : Stage) (hfuel : depthLeft (.ofFunc f) s.masks b ≤ fuel) :
    ∃ log, Answers (.ofFunc f) (.find (.block b)) s log (blockMaskWithin (.ofFunc f) fuel b s).1
      (blockMaskWithin (.ofFunc f) fuel b s).2 := by
  induction fuel generalizing b s with
  | zero => exact absurd hfuel (Nat.not_succ_le_zero _)
  | succ fuel ih =>
    cases hb : s.masks.get? (.block b) with
    | some v =>
      rw [blockMaskWithin_of_some hb]
      exact ⟨[], .known hb⟩
    | none =>
      rw [blockMaskWithin_of_none hb]
      by_cases hplain : s.Plain b
      · rw [if_pos hplain]
        exact ⟨_, .plain hb (.inl hplain)⟩
      rw [if_neg hplain]
      rcases hpreds : (Cfg.ofFunc f).preds b with _ | ⟨p, _ | ⟨q, ps⟩⟩
      · exact ⟨_, .plain hb (.inr hpreds)⟩
      · have hlt := rpoIndex?_lt_of_preds hf he hpreds
        have hp : depthLeft (.ofFunc f) s.masks p ≤ fuel := by
          unfold depthLeft at hfuel ⊢
          omega
        obtain ⟨log, hedge⟩ := exists_answers_edge (q := b) (ih p s hp)
        exact ⟨_, .single hb hplain hpreds hedge⟩
      · -- the phi is recorded first, so that no request below comes back to this block
        let opened := (s.withMaskPhi b).recorded (.block b) (.inst s.func.insts.size)
        have hcard : (openJoins (.ofFunc f) opened.masks).card < (openJoins (.ofFunc f) s.masks).card :=
          card_openJoins_lt hb (by rw [hpreds]; exact Nat.le_add_left _ _) _
        have hdepth : ∀ p' (t : Stage), openJoins (.ofFunc f) t.masks ⊆ openJoins (.ofFunc f) opened.masks →
            depthLeft (.ofFunc f) t.masks p' ≤ fuel := fun p' t ht => by
          have hle := Nat.mul_le_mul_right ((Cfg.ofFunc f).succTable.size + 1)
            (Nat.lt_of_le_of_lt (Finset.card_le_card ht) hcard)
          have hpos := rpoIndex?_getD_le (b := p') hf
          rw [Nat.succ_mul] at hle
          unfold depthLeft at hfuel ⊢
          omega
        obtain ⟨log, hfill⟩ := exists_answers_fill (b := b) (s := opened) s.func.insts.size
          (p :: q :: ps) fun p' _ t ht => ih p' t (hdepth p' t ht)
        exact ⟨_, .join hb hplain hpreds hfill⟩

/-- As deep as the requests of a function may go, each of them ends with the answer of a derivation. -/
theorem exists_answers (hf : f.Closed) (he : (Cfg.ofFunc f).preds f.entry = []) (x : MaskOf)
    (s : Stage) : ∃ log, Answers (.ofFunc f) (.find x) s log (request (.ofFunc f) x s).1
      (request (.ofFunc f) x s).2 := by
  have hdepth : ∀ b, depthLeft (.ofFunc f) s.masks b ≤ maskDepth (.ofFunc f) := fun b => by
    have hcard : (openJoins (.ofFunc f) s.masks).card ≤ (Cfg.ofFunc f).succTable.size := by
      refine (Finset.card_filter_le _ _).trans (Nat.le_of_eq ?_)
      simp [Cfg.ofFunc]
    have hle := Nat.mul_le_mul_right ((Cfg.ofFunc f).succTable.size + 1) hcard
    have hpos := rpoIndex?_getD_le (b := b) hf
    unfold depthLeft maskDepth
    rw [Nat.succ_mul]
    omega
  have hblock := fun b => exists_answers_within hf he _ b s (hdepth b)
  cases x with
  | block b => exact hblock b
  | edge p q => exact exists_answers_edge (hblock p)

/-! ## Making all masks again -/

/-- A mask that is there is the answer, and nothing changes. -/
theorem request_of_some {x : MaskOf} {v : Value} (h : s.masks.get? x = some v) :
    request g x s = (v, s) := by
  cases x with
  | block b =>
    obtain ⟨fuel, hfuel⟩ := Nat.exists_eq_add_one_of_ne_zero (maskDepth_ne_zero g)
    show blockMaskWithin g (maskDepth g) b s = _
    rw [hfuel, blockMaskWithin_of_some h]
  | edge p q => exact edgeMaskBy_of_some h

theorem forM_eq_self {α : Type} {k : α → StateM Stage PUnit} {xs : List α}
    (h : ∀ x ∈ xs, k x s = (⟨⟩, s)) : xs.forM k s = (⟨⟩, s) := by
  induction xs with
  | nil => rfl
  | cons x xs ih =>
    show (match k x s with | (_, s) => xs.forM k s) = _
    rw [h x List.mem_cons_self]
    exact ih fun y hy => h y (List.mem_cons_of_mem x hy)

/-- With all masks there, asking for one of the region changes nothing. -/
theorem exists_request_eq (h : AllMasked g g.rpo s) {x : MaskOf} (hx : x.InRegion g s) :
    ∃ v, request g x s = (v, s) := by
  have hsome : (s.masks.get? x).isSome = true := by
    cases x with
    | block b => exact (h b hx.1 hx.2).1
    | edge p q => exact (h p hx.1 hx.2.1).2 q hx.2.2
  obtain ⟨v, hv⟩ := Option.isSome_iff_exists.mp hsome
  exact ⟨v, request_of_some hv⟩

theorem requestAll_of_allMasked (h : AllMasked g g.rpo s) (xs : List MaskOf)
    (hxs : ∀ x ∈ xs, x.InRegion g s) : requestAll g xs s = (⟨⟩, s) := by
  refine forM_eq_self fun x hx => ?_
  obtain ⟨v, hv⟩ := exists_request_eq h (hxs x hx)
  exact congrArg (fun r : Value × Stage => (PUnit.unit, r.2)) hv

theorem expandMasks_of_allMasked (h : AllMasked g g.rpo s) : expandMasks g s = (⟨⟩, s) := by
  refine forM_eq_self fun b hb => ?_
  show (if s.info.inRegion b then _ else _ : StateM Stage PUnit) s = _
  by_cases hr : s.info.inRegion b = true
  · rw [if_pos hr]
    obtain ⟨v, hv⟩ := exists_request_eq h (x := .block b) ⟨hb, hr⟩
    have hedges := requestAll_of_allMasked h ((g.succs b).map (.edge b)) fun x hx => by
      obtain ⟨q, hq, rfl⟩ := List.mem_map.mp hx
      exact ⟨hb, hr, hq⟩
    rw [requestAll, List.forM_eq_forM, List.forM_map] at hedges
    show (match request g (.block b) s with
      | (_, s) => ((g.succs b).forM fun q => do
        let _ ← request g (.edge b q)) s) = _
    rw [hv]
    exact hedges
  · rw [if_neg hr]
    rfl

/-- Every request for a mask ends, at any stage and whatever masks are there already, if nothing leads
back to the entry: there is a derivation of what it answers and of the stage that it leaves. Once all
masks have been made, making them again changes nothing, and neither do requests for the masks of
reachable blocks of the region and of the edges from them. -/
theorem requests_terminate (hf : f.Closed) (he : (Cfg.ofFunc f).preds f.entry = []) (s : Stage) :
    (∀ x, ∃ log, Answers (.ofFunc f) (.find x) s log (request (.ofFunc f) x s).1
      (request (.ofFunc f) x s).2) ∧
    ∀ t, expandMasks (.ofFunc f) s = (⟨⟩, t) → expandMasks (.ofFunc f) t = (⟨⟩, t) ∧
      ∀ xs, (∀ x ∈ xs, x.InRegion (.ofFunc f) t) → requestAll (.ofFunc f) xs t = (⟨⟩, t) := by
  refine ⟨fun x => exists_answers hf he x s, fun t e => ?_⟩
  have hall : AllMasked (.ofFunc f) (Cfg.ofFunc f).rpo t :=
    (takesMaskSteps_expandMasks s s _ t (.refl (Nat.zero_le _)) e).2
  exact ⟨expandMasks_of_allMasked hall, fun xs hxs => requestAll_of_allMasked hall xs hxs⟩

/-- The loop that is entered at both of its blocks, with nothing known about it. -/
def crossing : Stage where
  func := Cfg.crossing
  info := { width := 2 }

theorem requests_terminate_crossing :
    Cfg.crossing.Closed ∧ (Cfg.ofFunc Cfg.crossing).preds Cfg.crossing.entry = [] ∧
      (∃ log v t, Answers (.ofFunc Cfg.crossing) (.find (.edge 2 1)) crossing log v t) ∧
      ∃ t, expandMasks (.ofFunc Cfg.crossing) crossing = (⟨⟩, t) ∧
        expandMasks (.ofFunc Cfg.crossing) t = (⟨⟩, t) ∧
        requestAll (.ofFunc Cfg.crossing) [.edge 2 1, .block 3] t = (⟨⟩, t) := by
  have hf : Cfg.crossing.Closed := (by decide : Cfg.crossing.Coherent).toClosed
  have he : (Cfg.ofFunc Cfg.crossing).preds Cfg.crossing.entry = [] := by decide
  obtain ⟨hends, hagain⟩ := requests_terminate hf he crossing
  generalize e : expandMasks (.ofFunc Cfg.crossing) crossing = r
  obtain ⟨⟨⟩, t⟩ := r
  have hregion : ∀ b, t.info.inRegion b = true :=
    (takesMaskSteps_expandMasks crossing crossing _ t (.refl (Nat.zero_le _)) e).1.inRegion
  obtain ⟨log, hlog⟩ := hends (.edge 2 1)
  obtain ⟨hexpand, hrequest⟩ := hagain t e
  refine ⟨hf, he, ⟨log, _, _, hlog⟩, t, rfl, hexpand, hrequest _ fun x hx => ?_⟩
  rcases List.mem_pair.mp hx with rfl | rfl
  · exact ⟨by decide, hregion 2, by decide⟩
  · exact ⟨by decide, hregion 3⟩

end Stage

end Lockstep
