import Lockstep.Proofs.Linear.Straighten
import Mathlib.Data.List.TakeWhile

/-!
# Straightening one branch

Every step of `linearizeBranch` keeps what `Straightening` says, and in the end the branch is none
any more: its node is one of the chain, and leads to the next.
-/

namespace Lockstep

namespace Stage

variable {s : Stage} {R : BlockId → Prop} {region : Option Region} {rest : List BlockId}

/-! ## Steps -/

/-- A phi that is recorded as uniform stands in its block. -/
def IsPlacedPhi (t : Stage) (phi : InstId) : Prop :=
  t.func.isPhi phi = true ∧ (t.info.isUniform (.inst phi) = true → t.func.Attached phi)

theorem isPlacedPhi_of_mem_phis {t : Stage} {b : BlockId} {phi : InstId}
    (h : phi ∈ t.func.phis b) : t.IsPlacedPhi phi :=
  ⟨List.mem_takeWhile_imp h, fun _ => ⟨b, List.takeWhile_subset _ h⟩⟩

theorem IsPlacedPhi.grow {t u : Stage} {phi : InstId} (h : t.IsPlacedPhi phi) (hg : Grows t u) :
    u.IsPlacedPhi phi := by
  have hlt := t.func.lt_of_isPhi h.1
  refine ⟨(hg.func.isPhi phi).trans h.1, fun hu => (hg.func.attached hlt).mpr (h.2 ?_)⟩
  rwa [VectorInfo.isUniform, hg.shape (.inst phi) hlt] at hu

theorem IsPlacedPhi.replaced {t : Stage} {i phi : InstId} {v : Value} (h : t.IsPlacedPhi i) :
    (t.replaced phi v).IsPlacedPhi i := by
  refine ⟨(isPhi_replaced t phi v i).trans h.1, fun hu => ?_⟩
  rw [VectorInfo.isUniform, shape_replaced] at hu
  split at hu
  · cases hu
  · rename_i hne
    exact attached_replaced (fun e => hne (congrArg _ e)) (h.2 hu)

/-- A rewriting of the function that leaves branches, bodies and phis as they are. -/
theorem Straightening.edit {t : Stage} (h : Straightening s R region rest t) {f : Func}
    (hf : f.Coherent) (hs : f.insts.size = t.func.insts.size)
    (hb : f.blocks.size = t.func.blocks.size) (hp : ∀ i, f.isPhi i = t.func.isPhi i)
    (hbody : ∀ b, f.body b = t.func.body b) (hterm : ∀ b, f.term b = t.func.term b)
    (hmask : t.func.KeepsMasks f) : Straightening s R region rest { t with func := f } := by
  refine h.step ⟨hf, fun b m hm => ?_, fun p q m hm => ?_⟩
    ⟨?_, fun i h1 h2 => ?_, fun i _ => ?_, hmask⟩
    rfl hb (fun b hR c hc => ?_) fun b _ hd => .inl ?_
  · exact (h.valid.block b m hm).mono (Nat.le_of_eq hs.symm)
  · exact (h.valid.edge p q m hm).mono (Nat.le_of_eq hs.symm)
  · exact Nat.le_of_eq hs.symm
  · exact ⟨(hp i).symm.trans h1, h2⟩
  · rintro ⟨b, hi⟩
    exact ⟨b, hbody b ▸ hi⟩
  · exact h.closed b hR c (hterm b ▸ hc)
  · have hd : ({ t with func := f } : Stage).isDivergentBranch b = true := hd
    rw [isDivergentBranch_iff] at hd ⊢
    rwa [hterm b] at hd

theorem Straightening.modifyIncoming {t : Stage} (h : Straightening s R region rest t)
    {phi : InstId} {g : List (BlockId × Value) → List (BlockId × Value)}
    (hg : ∀ e ∈ g (t.func.inst phi).incoming, t.func.Defines e.2) :
    Straightening s R region rest { t with func := t.func.modifyIncoming phi g } := by
  refine h.edit (h.valid.func.modifyIncoming hg) ?_ rfl (fun i => ?_) (fun b => ?_) (fun b => ?_)
    (Func.keepsMasks_modifyIncoming _ _ _)
  · rw [Func.size_insts_modifyIncoming]
  · rw [Func.isPhi, Func.inst_modifyIncoming]
    split
    · exact Func.isPhi_mapIncoming g _
    · rfl
  · rw [Func.body_modifyIncoming]
  · rw [Func.term_modifyIncoming]

theorem IsPlacedPhi.modifyIncoming {t : Stage} {i : InstId} (h : t.IsPlacedPhi i) (phi : InstId)
    (g : List (BlockId × Value) → List (BlockId × Value)) :
    ({ t with func := t.func.modifyIncoming phi g } : Stage).IsPlacedPhi i := by
  refine ⟨?_, fun hu => ?_⟩
  · show ((t.func.modifyIncoming phi g).inst i).isPhi = true
    rw [Func.inst_modifyIncoming]
    split
    · exact (Func.isPhi_mapIncoming g _).trans h.1
    · exact h.1
  · obtain ⟨b, hb⟩ := h.2 hu
    exact ⟨b, by rw [Func.body_modifyIncoming]; exact hb⟩

theorem Straightening.setEdgeMask {t : Stage} (h : Straightening s R region rest t)
    {mask : Value} (hm : t.func.Defines mask) (p q : BlockId) :
    Straightening s R region rest { t with masks := t.masks.setEdge p q mask } := by
  refine h.step ⟨h.valid.func, h.valid.block, fun x y m he => ?_⟩
    ⟨Nat.le_refl _, ?_, ?_, .refl _⟩ rfl rfl
    h.closed fun b _ hd => .inl hd
  · have he : (t.masks.setEdge p q mask).edge? x y = some m := he
    rw [Masks.edge?_setEdge] at he
    split at he
    · cases he
      exact hm
    · exact h.valid.edge x y m he
  · exact fun _ h1 h2 => ⟨h1, h2⟩
  · exact fun _ _ h1 => h1

/-! ## Merging phis -/

/-- Only a mask that is missing makes it fail to ask for one. -/
theorem tripleAll_knownEdgeMask {t : Stage} (ht : t.Valid) (p q : BlockId) :
    TripleAll (Grows t) (knownEdgeMask p q) (fun m u => Grows t u ∧ t.func.Defines m)
      fun e _ => e = .bug (.edgeMaskMissing p q) ∧ t.masks.edge? p q = none := by
  unfold knownEdgeMask
  refine TripleAll.bind TripleAll.get fun u => ?_
  split
  · rename_i m hm
    refine TripleAll.pure ?_
    rintro u' ⟨rfl, hu⟩
    rw [hu.masks] at hm
    exact ⟨hu, ht.edge p q m hm⟩
  · rename_i hm
    refine TripleAll.throw ?_
    rintro u' ⟨rfl, hu⟩
    exact ⟨rfl, hu.masks ▸ hm⟩

/-- Merging inserts operations, and its result exists. It fails only if the mask of an edge is
missing. -/
theorem tripleAll_mergeIncoming {t : Stage} (ht : t.Valid) {point : InsertPoint}
    {incoming : List (BlockId × Value)} (hi : ∀ e ∈ incoming, t.func.Defines e.2) (b : BlockId) :
    TripleAll (Grows t) (mergeIncoming point incoming b)
      (fun r u => Grows t u ∧ u.func.Defines r.1)
      fun e _ => ∃ p ∈ incoming.map Prod.fst, e = .bug (.edgeMaskMissing p b) ∧
        t.masks.edge? p b = none := by
  unfold mergeIncoming
  refine TripleAll.bind (R := fun keyed u => Grows t u ∧
    ∀ e ∈ keyed, t.func.Defines e.1 ∧ t.func.Defines e.2) ?_ fun keyed => ?_
  · refine (TripleAll.mapM (J := fun _ done u => Grows t u ∧
      ∀ e ∈ done, t.func.Defines e.1 ∧ t.func.Defines e.2) incoming ?_ []).mono
      (fun u hu => ⟨hu, fun e he => by cases he⟩) fun keyed u hu => by rwa [List.nil_append] at hu
    rintro ⟨pred, v⟩ tail done hmem
    refine TripleAll.assume fun hdone => ?_
    refine TripleAll.bind ((tripleAll_knownEdgeMask ht pred b).mono_error fun e u he =>
      ⟨pred, List.mem_map_of_mem hmem, he⟩) fun m => TripleAll.pure ?_
    rintro u ⟨hu, hm⟩
    refine ⟨hu, fun e he => ?_⟩
    rcases List.mem_append.mp he with he | he
    · exact hdone e he
    · rw [List.mem_singleton.mp he]
      exact ⟨hm, hi _ hmem⟩
  · exact TripleAll.assume fun hk => TripleAll.lift (triple_merge hk)

theorem triple_mergeIncoming {t : Stage} (ht : t.Valid) {point : InsertPoint}
    {incoming : List (BlockId × Value)} (hi : ∀ e ∈ incoming, t.func.Defines e.2) (b : BlockId) :
    TripleOk (Grows t) (mergeIncoming point incoming b) fun r u =>
      Grows t u ∧ u.func.Defines r.1 :=
  (tripleAll_mergeIncoming ht hi b).ok

/-- The phis of a block are replaced by merges. -/
theorem triple_mergePhis (b : BlockId) :
    TripleOk (Straightening s R region rest) (mergePhis b) fun _ =>
      Straightening s R region rest := by
  unfold mergePhis
  refine TripleOk.bind TripleOk.get fun t => ?_
  refine TripleOk.bind (R := fun (r : List (InstId × Value) × InsertPoint) u =>
    Straightening s R region rest u ∧ ∀ e ∈ r.1, u.IsPlacedPhi e.1 ∧ u.func.Defines e.2) ?_
    fun r => ?_
  · refine (TripleOk.foldlM (J := fun l (r : List (InstId × Value) × InsertPoint) u =>
      Straightening s R region rest u ∧ (∀ i ∈ l, u.IsPlacedPhi i) ∧
        ∀ e ∈ r.1, u.IsPlacedPhi e.1 ∧ u.func.Defines e.2) (t.func.phis b) ?_ _).mono ?_ ?_
    · rintro phi tail ⟨merged, point⟩ -
      refine TripleOk.bind TripleOk.get fun u => ?_
      refine TripleOk.bind (R := fun (r : Value × InsertPoint) w =>
        Grows u w ∧ w.func.Defines r.1 ∧ Straightening s R region rest u ∧
          (∀ i ∈ phi :: tail, u.IsPlacedPhi i) ∧
            ∀ e ∈ merged, u.IsPlacedPhi e.1 ∧ u.func.Defines e.2) ?_ fun r => ?_
      · rintro w r w' ⟨rfl, hu, hl, hm⟩ e
        obtain ⟨h1, h2⟩ := triple_mergeIncoming hu.valid
          (fun e he => hu.valid.func.defines_incoming he) b u r w' (.refl hu.valid.func) e
        exact ⟨h1, h2, hu, hl, hm⟩
      · refine TripleOk.pure ?_
        rintro w ⟨hg, hv, hu, hl, hm⟩
        refine ⟨hu.grow hg, fun i hi => (hl i (List.mem_cons_of_mem _ hi)).grow hg,
          fun e he => ?_⟩
        rcases List.mem_append.mp he with he | he
        · exact ⟨(hm e he).1.grow hg, hg.func.defines (hm e he).2⟩
        · rw [List.mem_singleton.mp he]
          exact ⟨(hl phi List.mem_cons_self).grow hg, hv⟩
    · rintro u ⟨rfl, hu⟩
      exact ⟨hu, fun i hi => isPlacedPhi_of_mem_phis hi, fun e he => by cases he⟩
    · exact fun r u hu => ⟨hu.1, hu.2.2⟩
  · refine TripleOk.bind (R := fun _ => Straightening s R region rest) ?_ fun _ =>
      TripleOk.pure fun u hu => hu
    refine (TripleOk.forIn (J := fun l u => Straightening s R region rest u ∧
      ∀ e ∈ l, u.IsPlacedPhi e.1 ∧ u.func.Defines e.2) r.1 ?_).mono
      (fun u hu => hu) fun _ u hu => hu.1
    rintro ⟨phi, v⟩ tail -
    refine TripleOk.bind (R := fun _ u => Straightening s R region rest u ∧
      ∀ e ∈ tail, u.IsPlacedPhi e.1 ∧ u.func.Defines e.2) (TripleOk.lift ?_) fun _ =>
      TripleOk.pure fun u hu => ⟨rfl, hu⟩
    rintro u _ u' ⟨hu, hl⟩ e
    rw [replacePhi_apply] at e
    cases e
    obtain ⟨hphi, hv⟩ := hl _ List.mem_cons_self
    refine ⟨hu.replaced hphi.1 hphi.2 hv, fun e he => ?_⟩
    obtain ⟨h1, h2⟩ := hl e (List.mem_cons_of_mem _ he)
    exact ⟨h1.replaced, h2.mono (by rw [size_insts_replaced])⟩

/-! ## Funnelling phis -/

theorem triple_dropSinglePhi {l : List InstId} {phi : InstId} :
    TripleOk (fun t => Straightening s R region rest t ∧ t.IsPlacedPhi phi ∧
        ∀ i ∈ l, t.IsPlacedPhi i)
      (dropSinglePhi phi) fun _ t => Straightening s R region rest t ∧ ∀ i ∈ l, t.IsPlacedPhi i := by
  unfold dropSinglePhi
  refine TripleOk.bind TripleOk.get fun t => ?_
  split
  · rename_i v hv
    refine TripleOk.lift ?_
    rintro u _ u' ⟨rfl, ht, hphi, hl⟩ e
    rw [replacePhi_apply] at e
    cases e
    have hdef := ht.valid.func.inputs phi v (by rw [hv]; exact List.mem_singleton_self v)
    exact ⟨ht.replaced hphi.1 hphi.2 hdef, fun i hi => (hl i hi).replaced⟩
  · exact TripleOk.pure fun u hu => ⟨hu.2.1, hu.2.2.2⟩

/-- The phis of a block get one way in instead of several. -/
theorem triple_funnelPhis {b pred : BlockId} {gone : BlockId → Bool} {always : Bool}
    {after : InstId → StageM Unit}
    (hafter : ∀ (l : List InstId) phi,
      TripleOk (fun t => Straightening s R region rest t ∧ t.IsPlacedPhi phi ∧
          ∀ i ∈ l, t.IsPlacedPhi i)
        (after phi) fun _ t =>
          Straightening s R region rest t ∧ ∀ i ∈ l, t.IsPlacedPhi i) :
    TripleOk (Straightening s R region rest) (funnelPhis b pred gone always after) fun _ =>
      Straightening s R region rest := by
  unfold funnelPhis
  refine TripleOk.bind TripleOk.get fun t => ?_
  refine TripleOk.bind (R := fun _ => Straightening s R region rest) ?_ fun _ =>
    TripleOk.pure fun u hu => hu
  refine (TripleOk.forIn (J := fun l u => Straightening s R region rest u ∧
    ∀ i ∈ l, u.IsPlacedPhi i) (t.func.phis b) ?_).mono ?_ fun _ u hu => hu.1
  · rintro phi tail -
    refine TripleOk.bind TripleOk.get fun u => ?_
    dsimp only
    refine TripleOk.bind (R := fun _ w => Straightening s R region rest w ∧ w.IsPlacedPhi phi ∧
      (∀ i ∈ tail, w.IsPlacedPhi i) ∧
      ∀ e ∈ (u.func.removeIncoming phi gone).1, w.func.Defines e.2) (TripleOk.modify ?_)
      fun _ => ?_
    · rintro w ⟨rfl, hu, hl⟩
      refine ⟨hu.modifyIncoming fun e he => ?_, (hl phi List.mem_cons_self).modifyIncoming _ _,
        fun i hi => (hl i (List.mem_cons_of_mem _ hi)).modifyIncoming _ _, fun e he => ?_⟩
      · exact hu.valid.func.defines_incoming (List.mem_filter.mp he).1
      · refine (hu.valid.func.defines_incoming (List.mem_filter.mp he).1).mono ?_
        exact Nat.le_of_eq (Func.size_insts_modifyIncoming _ _ _).symm
    · split
      · refine TripleOk.bind (R := fun (r : Value × InsertPoint) w =>
          Straightening s R region rest w ∧ w.IsPlacedPhi phi ∧
            (∀ i ∈ tail, w.IsPlacedPhi i) ∧ w.func.Defines r.1) ?_ fun r => ?_
        · rintro w r w' ⟨hw, hphi, hl, hi⟩ e
          obtain ⟨h1, h2⟩ := triple_mergeIncoming hw.valid hi b w r w' (.refl hw.valid.func) e
          exact ⟨hw.grow h1, hphi.grow h1, fun i hi => (hl i hi).grow h1, h2⟩
        · refine TripleOk.bind (R := fun _ w => Straightening s R region rest w ∧
            w.IsPlacedPhi phi ∧ ∀ i ∈ tail, w.IsPlacedPhi i) (TripleOk.lift
              (triple_modifyFunc ?_)) fun _ => ?_
          · rintro w ⟨hw, hphi, hl, hv⟩
            refine ⟨hw.modifyIncoming fun e he => ?_, hphi.modifyIncoming _ _,
              fun i hi => (hl i hi).modifyIncoming _ _⟩
            rcases Func.mem_setEntry he with he | rfl
            · exact hw.valid.func.defines_incoming he
            · exact hv
          · exact TripleOk.bind (hafter tail phi) fun _ => TripleOk.pure fun w hw => ⟨rfl, hw⟩
      · exact TripleOk.pure fun w hw => ⟨rfl, hw.1, hw.2.2.1⟩
  · rintro u ⟨rfl, hu⟩
    exact ⟨hu, fun i hi => isPlacedPhi_of_mem_phis hi⟩

/-! ## Redirecting nodes -/

/-- A terminator that leads elsewhere instead, and asks no new question. -/
theorem Straightening.setTerm {t : Stage} (h : Straightening s R region rest t) {b : BlockId}
    {term : Terminator} (ht : R b → ∀ c ∈ term.targets, R c)
    (hlt : ∀ c ∈ term.targets, c < t.func.blocks.size) (hu : ∀ v ∈ term.uses, t.func.Defines v)
    (hd : ∀ c x y, term = .brIf c x y → ∃ x' y', t.func.term b = .brIf c x' y') :
    Straightening s R region rest { t with func := t.func.setTerm b term } := by
  have hf := h.valid.func
  refine h.step ⟨hf.setTerm hlt hu, h.valid.block, h.valid.edge⟩
    ⟨Nat.le_refl _, ?_, ?_, .of_eq fun _ => rfl⟩ rfl ?_
    (fun c hR x hx => ?_) fun c hR hc => .inl ?_
  · exact fun _ h1 h2 => ⟨h1, h2⟩
  · rintro i - ⟨c, hc⟩
    rw [Func.body_setTerm] at hc
    exact ⟨c, hc⟩
  · rw [Func.size_blocks_setTerm]
  · rw [Func.term_setTerm] at hx
    split at hx
    · rename_i e
      exact ht (e.1 ▸ hR) x hx
    · exact h.closed c hR x hx
  · rw [isDivergentBranch_iff] at hc ⊢
    obtain ⟨hin, cond, x, y, hterm, hu⟩ := hc
    rw [Func.term_setTerm] at hterm
    split at hterm
    · rename_i e
      obtain ⟨x', y', h'⟩ := hd cond x y hterm
      exact ⟨hin, cond, x', y', e.1 ▸ h', hu⟩
    · exact ⟨hin, cond, x, y, hterm, hu⟩

/-- The terminator of a node that leads to `target`. -/
def redirected (t : Stage) (node : ChainNode) (target : BlockId) : Terminator :=
  match node.loop with
  | none => .br target
  | some (_, old) => (t.func.term node.exit).map (fun b => if b = old then target else b) id

theorem redirect_apply (t : Stage) (node : ChainNode) (target : BlockId) :
    redirect node target t =
      ((), { t with func := t.func.setTerm node.exit (t.redirected node target) }) := by
  unfold redirect redirected
  cases node.loop <;> rfl

theorem mem_targets_redirected {t : Stage} {node : ChainNode} {target c : BlockId}
    (h : c ∈ (t.redirected node target).targets) :
    c = target ∨ c ∈ (t.func.term node.exit).targets := by
  unfold redirected at h
  split at h
  · exact .inl (List.mem_singleton.mp h)
  · rw [Terminator.targets_map] at h
    obtain ⟨d, hd, rfl⟩ := List.mem_map.mp h
    split
    · exact .inl rfl
    · exact .inr hd

theorem Straightening.redirect {t : Stage} (h : Straightening s R region rest t)
    {node : ChainNode} {target : BlockId} (ht : R target) :
    Straightening s R region rest
      { t with func := t.func.setTerm node.exit (t.redirected node target) } := by
  refine h.setTerm (fun hR c hc => ?_) (fun c hc => ?_) (fun v hv => ?_) fun c x y e => ?_
  · rcases mem_targets_redirected hc with rfl | hc
    · exact ht
    · exact h.closed _ hR c hc
  · rcases mem_targets_redirected hc with rfl | hc
    · exact h.lt c ht
    · exact h.valid.func.target_lt _ c hc
  · unfold redirected at hv
    split at hv
    · cases hv
    · rw [Terminator.uses_map, List.map_id] at hv
      exact h.valid.func.uses _ v hv
  · unfold redirected at e
    split at e
    · cases e
    · cases hterm : t.func.term node.exit <;> rw [hterm] at e <;> cases e
      exact ⟨_, _, rfl⟩

/-! ## One branch -/

theorem triple_liftExcept {α : Type} {P : Stage → Prop} {x : Except VectorizeError α} :
    TripleOk P (linearizeBranch.liftExcept x) fun a t => P t ∧ x = .ok a := by
  cases x with
  | ok a => exact TripleOk.pure fun t ht => ⟨ht, rfl⟩
  | error e => exact TripleOk.throw

/-- A branch that no longer is one need not be straightened. -/
theorem Straightening.tail {t : Stage} {b : BlockId}
    (h : Straightening s R region (b :: rest) t)
    (hb : ∀ c x y, t.func.term b ≠ .brIf c x y) : Straightening s R region rest t :=
  { h with
    branches := fun c hR hd => by
      refine (h.branches c hR hd).imp_left fun hc => ?_
      rcases List.mem_cons.mp hc with rfl | hc
      · obtain ⟨-, cond, x, y, e, -⟩ := isDivergentBranch_iff.mp hd
        exact absurd e (hb cond x y)
      · exact hc }

/-- Any stage may be taken for the start if all of its blocks are still to come. -/
theorem Straightening.restart {t : Stage} (h : Straightening s R region rest t) :
    Straightening t R region (List.range t.func.blocks.size) t :=
  { h with
    later := .refl t
    branches := fun b hR _ => .inl (List.mem_range.mpr (h.lt b hR)) }

theorem triple_redirect {P : Stage → Prop} {node : ChainNode} {target : BlockId}
    {Q : Unit → Stage → Prop}
    (h : ∀ t, P t → Q () { t with
      func := t.func.setTerm node.exit (t.redirected node target) }) :
    Triple P (redirect node target) Q := by
  intro t a t' ht e
  rw [redirect_apply] at e
  cases e
  exact h t ht

/-- When all nodes lead to their targets, the branch is none any more. -/
theorem triple_redirectAll {b : BlockId} {mask : Value} (hR : R b)
    {pairs : List (ChainNode × BlockId)} (ht : ∀ p ∈ pairs, R p.2)
    (hb : ∃ p ∈ pairs, p.1.exit = b ∧ p.1.loop = none) :
    TripleOk (fun t => Straightening s R region (b :: rest) t ∧ t.func.Defines mask)
      (ForIn.forIn pairs PUnit.unit fun p _ => do
        redirect p.1 p.2
        setEdgeMask p.1.exit p.2 mask
        return ForInStep.yield PUnit.unit : StageM PUnit)
      fun _ => Straightening s R region rest := by
  refine (TripleOk.forIn (J := fun l t => Straightening s R region (b :: rest) t ∧
    t.func.Defines mask ∧ ((∃ p ∈ l, p.1.exit = b ∧ p.1.loop = none) ∨
      ∀ c x y, t.func.term b ≠ .brIf c x y)) pairs ?_).mono ?_ ?_
  · rintro ⟨node, target⟩ tail hmem
    refine TripleOk.bind (TripleOk.lift (triple_redirect (Q := fun _ t =>
      Straightening s R region (b :: rest) t ∧ t.func.Defines mask ∧
        ((∃ p ∈ tail, p.1.exit = b ∧ p.1.loop = none) ∨
          ∀ c x y, t.func.term b ≠ .brIf c x y)) ?_)) fun _ => ?_
    · rintro t ⟨h, hm, hor⟩
      refine ⟨h.redirect (ht _ hmem), hm, ?_⟩
      show _ ∨ ∀ c x y, (t.func.setTerm node.exit _).term b ≠ .brIf c x y
      rw [Func.term_setTerm]
      by_cases he : node.exit = b
      · subst he
        rw [if_pos ⟨rfl, h.lt _ hR⟩]
        unfold redirected
        cases hl : node.loop with
        | none => exact .inr fun c x y e => by cases e
        | some l =>
          rcases hor with ⟨p, hp, h1, h2⟩ | hno
          · rcases List.mem_cons.mp hp with rfl | hp
            · rw [hl] at h2
              cases h2
            · exact .inl ⟨p, hp, h1, h2⟩
          · refine .inr fun c x y e => ?_
            cases hterm : t.func.term node.exit with
            | brIf c' x' y' => exact hno c' x' y' hterm
            | _ => rw [hterm] at e; cases e
      · rw [if_neg (fun e => he e.1)]
        refine hor.imp_left fun hex => ?_
        obtain ⟨p, hp, h1, h2⟩ := hex
        rcases List.mem_cons.mp hp with rfl | hp
        · exact absurd h1 he
        · exact ⟨p, hp, h1, h2⟩
    · refine TripleOk.bind (TripleOk.lift (triple_setEdgeMask (Q := fun _ t =>
        Straightening s R region (b :: rest) t ∧ t.func.Defines mask ∧
          ((∃ p ∈ tail, p.1.exit = b ∧ p.1.loop = none) ∨
            ∀ c x y, t.func.term b ≠ .brIf c x y)) ?_)) fun _ => ?_
      · rintro t ⟨h, hm, hor⟩
        exact ⟨h.setEdgeMask hm _ _, hm, hor⟩
      · exact TripleOk.pure fun t ht => ⟨rfl, ht⟩
  · exact fun t ht => ⟨ht.1, ht.2, .inl hb⟩
  · rintro _ t ⟨h, -, hor⟩
    exact h.tail (hor.resolve_left fun ⟨p, hp, _⟩ => by cases hp)

theorem tripleAll_knownBlockMask {t : Stage} (ht : t.Valid) (b : BlockId) :
    TripleAll (· = t) (knownBlockMask b) (fun m u => u = t ∧ t.func.Defines m)
      fun e _ => e = .bug (.blockMaskMissing b) ∧ t.masks.block? b = none := by
  unfold knownBlockMask
  refine TripleAll.bind TripleAll.get fun u => ?_
  split
  · rename_i m hm
    refine TripleAll.pure ?_
    rintro u' ⟨rfl, rfl⟩
    exact ⟨rfl, ht.block b m hm⟩
  · rename_i hm
    refine TripleAll.throw ?_
    rintro u' ⟨rfl, rfl⟩
    exact ⟨rfl, hm⟩

/-- The nodes of a chain with the blocks that they are made to lead to. -/
def links (chain : List ChainNode) (join : BlockId) : List (ChainNode × BlockId) :=
  chain.zip ((chain.drop 1).map ChainNode.entry ++ [join])

theorem mem_links {chain : List ChainNode} {join : BlockId} {p : ChainNode × BlockId}
    (h : p ∈ links chain join) : (∃ n ∈ chain, p.2 = n.entry) ∨ p.2 = join := by
  rcases List.mem_append.mp (List.of_mem_zip h).2 with h | h
  · obtain ⟨n, hn, e⟩ := List.mem_map.mp h
    exact .inl ⟨n, List.mem_of_mem_drop hn, e.symm⟩
  · exact .inr (List.mem_singleton.mp h)

/-- Every node is made to lead somewhere. -/
theorem exists_mem_links {chain : List ChainNode} (join : BlockId) {n : ChainNode}
    (h : n ∈ chain) : ∃ c, (n, c) ∈ links chain join := by
  have hlen : ((chain.drop 1).map ChainNode.entry ++ [join]).length = chain.length := by
    have := List.length_pos_of_mem h
    simp
    omega
  have hmap : (links chain join).map Prod.fst = chain := by
    rw [links, List.map_fst_zip]
    omega
  rw [← hmap] at h
  obtain ⟨⟨m, c⟩, hm, rfl⟩ := List.mem_map.mp h
  exact ⟨c, hm⟩

/-- A node is made to lead to the next. -/
theorem mem_links_of_zip {chain : List ChainNode} (join : BlockId) {p : ChainNode × ChainNode}
    (h : p ∈ chain.zip (chain.drop 1)) : (p.1, p.2.entry) ∈ links chain join := by
  induction chain with
  | nil => cases h
  | cons c chain ih =>
    cases chain with
    | nil => cases h
    | cons d chain =>
      rcases List.mem_cons.mp h with rfl | h
      · exact List.mem_cons_self
      · exact List.mem_cons_of_mem _ (ih h)

/-- The last node is made to lead to the join. -/
theorem mem_links_of_getLast? {chain : List ChainNode} (join : BlockId) {last : ChainNode}
    (h : chain.getLast? = some last) : (last, join) ∈ links chain join := by
  induction chain with
  | nil => cases h
  | cons c chain ih =>
    cases chain with
    | nil =>
      cases h
      exact List.mem_cons_self
    | cons d chain =>
      rw [List.getLast?_cons_cons] at h
      exact List.mem_cons_of_mem _ (ih h)

/-- Making a branch straight leaves only the others to come. -/
theorem triple_linearizeBranch {t : Stage} {b : BlockId}
    (ht : Straightening s R region (b :: rest) t) :
    TripleOk (· = t) (linearizeBranch (.ofFunc t.func) b) fun _ =>
      Straightening s R region rest := by
  unfold linearizeBranch
  have hc := ht.valid.func.toClosed
  split
  · rename_i join hjoin
    obtain ⟨hreach, hjoin⟩ := Cfg.reachable_of_postDom_parent? hc hjoin
    have hR : ∀ x, t.func.Reachable x → R x := fun x => ht.reachable
    refine TripleOk.bind TripleOk.get fun t' => ?_
    refine TripleOk.bind triple_liftExcept fun bs => TripleOk.assume fun hbs => ?_
    refine TripleOk.bind triple_liftExcept fun ns => TripleOk.assume fun hns => ?_
    refine TripleOk.bind triple_liftExcept fun order => TripleOk.assume fun horder => ?_
    have hchain := Chain.mem_chain horder
    have hentry : ∀ n ∈ order.map ns.get, R n.entry := by
      intro n hn
      have hgood := (Chain.good_nodes (LoopForest.nesting_ofCfg _ _) hns).1
      have := (hgood.isNode n ((hchain n).mp hn)).1
      exact hR _ ((Cfg.mem_rpo hc).mp (Chain.of_mem_blocks hbs this).1)
    have hlinks : ∀ p ∈ links (order.map ns.get) join, R p.2 := by
      intro p hp
      rcases mem_links hp with ⟨n, hn, e⟩ | e
      · exact e ▸ hentry n hn
      · exact e ▸ hR join hjoin
    obtain ⟨n, hn, hexit, hloop⟩ :=
      Chain.exists_branchNode hbs ((Cfg.mem_rpo hc).mpr hreach) hns
    obtain ⟨c, hnc⟩ := exists_mem_links join ((hchain n).mpr hn)
    refine TripleOk.bind ((tripleAll_knownBlockMask ht.valid b).ok.mono (fun u hu => hu.2)
      fun m u hu => hu) fun mask => TripleOk.assume fun hmask => ?_
    -- seen from `t`, everything that exists now keeps existing
    let P (u : Stage) : Prop := Straightening s R region (b :: rest) u ∧
      Straightening t R region (List.range t.func.blocks.size) u
    refine TripleOk.bind (R := fun _ => P) ?_ fun _ => ?_
    · refine (TripleOk.forIn (J := fun _ => P) _ ?_).mono ?_ fun _ u hu => hu
      · intro node tail hnode
        split
        · exact TripleOk.bind ((triple_mergePhis _).and (triple_mergePhis _)) fun _ =>
            TripleOk.pure fun u hu => ⟨rfl, hu⟩
        · exact TripleOk.pure fun u hu => ⟨rfl, hu⟩
      · rintro u rfl
        exact ⟨ht, ht.restart⟩
    refine TripleOk.bind (R := fun _ => P) ?_ fun _ => ?_
    · refine TripleOk.forIn (J := fun _ => P) _ ?_
      rintro ⟨prev, node⟩ tail -
      dsimp only
      split
      · refine TripleOk.bind ((triple_funnelPhis ?_).and (triple_funnelPhis ?_)) fun _ =>
          TripleOk.pure fun u hu => ⟨rfl, hu⟩
        all_goals exact fun l phi => TripleOk.pure fun u hu => ⟨hu.1, hu.2.2⟩
      · exact TripleOk.pure fun u hu => ⟨rfl, hu⟩
    have hlast : TripleOk P (do
        ForIn.forIn (links (order.map ns.get) join) PUnit.unit fun p _ => do
          redirect p.1 p.2
          setEdgeMask p.1.exit p.2 mask
          return ForInStep.yield PUnit.unit
        return (order.map ns.get).length : StageM Nat) fun _ => Straightening s R region rest := by
      refine TripleOk.bind (R := fun _ => Straightening s R region rest) ?_ fun _ =>
        TripleOk.pure fun u hu => hu
      refine (triple_redirectAll (hR b hreach) hlinks ⟨_, hnc, hexit, hloop⟩).mono ?_
        fun _ u hu => hu
      exact fun u hu => ⟨hu.1, hmask.mono hu.2.later.size⟩
    split
    · exact TripleOk.bind ((triple_funnelPhis fun l phi => triple_dropSinglePhi).and
        (triple_funnelPhis fun l phi => triple_dropSinglePhi)) fun _ => hlast
    · exact hlast
  · exact TripleOk.throw

end Stage

end Lockstep
