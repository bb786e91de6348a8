import Lockstep.Linear.Linearize
import Lockstep.Proofs.Linear.Chain
import Lockstep.Proofs.Vector.Grow

/-!
# Straightening divergent branches

`Straightening` is what holds while the branches of a list are straightened one after the other: a
block that ends in a divergent branch is still to come, unless a phi that was recorded as uniform has
been lost. Every rewriting keeps it, and the branch that is straightened need not come any more.
-/

namespace Lockstep

namespace Stage

/-- What holds of a stage `t` while the branches in `rest` are still to be straightened; `R` holds
of the blocks reachable at the start, and `s` is the stage that linearization was given. -/
structure Straightening (s : Stage) (R : BlockId → Prop) (region : Option Region)
    (rest : List BlockId) (t : Stage) : Prop where
  valid : t.Valid
  later : Later s t
  region : t.info.region = region
  entry : R t.func.entry
  lt : ∀ b, R b → b < t.func.blocks.size
  closed : ∀ b, R b → ∀ c ∈ (t.func.term b).targets, R c
  branches : ∀ b, R b → t.isDivergentBranch b = true → b ∈ rest ∨ Lost s t

variable {s : Stage} {R : BlockId → Prop} {region : Option Region} {rest : List BlockId}

theorem isDivergentBranch_iff {t : Stage} {b : BlockId} :
    t.isDivergentBranch b = true ↔ t.info.inRegion b = true ∧
      ∃ cond onTrue onFalse, t.func.term b = .brIf cond onTrue onFalse ∧
        t.info.isUniform cond = false := by
  unfold isDivergentBranch
  cases t.func.term b <;> simp

theorem inRegion_congr {v w : VectorInfo} (h : v.region = w.region) (b : BlockId) :
    v.inRegion b = w.inRegion b := by
  rw [VectorInfo.inRegion, VectorInfo.inRegion, h]

theorem Straightening.reachable {t : Stage} (h : Straightening s R region rest t) {b : BlockId}
    (hb : t.func.Reachable b) : R b :=
  hb.closed h.entry h.closed

/-- A rewriting that makes no branch divergent. -/
theorem Straightening.step {t u : Stage} (h : Straightening s R region rest t) (hv : u.Valid)
    (hl : Later t u) (hr : u.info.region = t.info.region)
    (hs : u.func.blocks.size = t.func.blocks.size)
    (hc : ∀ b, R b → ∀ c ∈ (u.func.term b).targets, R c)
    (hb : ∀ b, R b → u.isDivergentBranch b = true → t.isDivergentBranch b = true ∨ Lost s u) :
    Straightening s R region rest u where
  valid := hv
  later := h.later.trans hl
  region := hr.trans h.region
  entry := h.entry
  lt b hb := by rw [hs]; exact h.lt b hb
  closed := hc
  branches b hR hd := by
    rcases hb b hR hd with h1 | h1
    · exact (h.branches b hR h1).imp_right fun h2 => h2.later h.later hl
    · exact .inr h1

theorem Straightening.grow {t u : Stage} (h : Straightening s R region rest t) (hg : Grows t u) :
    Straightening s R region rest u := by
  refine h.step (hg.valid h.valid) hg.later hg.region hg.func.blocks (fun b hR c hc => ?_) fun b _ hd => .inl ?_
  · rw [hg.func.term] at hc
    exact h.closed b hR c hc
  · obtain ⟨hin, cond, x, y, ht, hu⟩ := isDivergentBranch_iff.mp hd
    rw [hg.func.term] at ht
    rw [VectorInfo.isUniform, hg.shape cond (h.valid.func.defines_cond ht)] at hu
    rw [inRegion_congr hg.region] at hin
    exact isDivergentBranch_iff.mpr ⟨hin, cond, x, y, ht, hu⟩

/-! ## Replacing a phi -/

/-- The stage after a phi has been replaced by a value. -/
def replaced (t : Stage) (phi : InstId) (v : Value) : Stage where
  func := (t.func.replaceAllUses (.inst phi) v).detach phi
  info := (t.info.dropShape (.inst phi)).remapPredicates t.func.layout (.inst phi) v
  masks := t.masks.replace t.func.layout (.inst phi) v

theorem replacePhi_apply (t : Stage) (phi : InstId) (v : Value) :
    replacePhi phi v t = ((), t.replaced phi v) := by
  have h : ((t.func.replaceAllUses (.inst phi) v).detach phi).layout = t.func.layout :=
    Func.layout_substUsers t.func _ _
  unfold replaced
  rw [← h]
  rfl

theorem get?_foldl_modify {g : Value → Value} (hg : ∀ v, g (g v) = g v) (bs : List BlockId)
    (m : Table BlockId Value) (k : BlockId) :
    (bs.foldl (fun m b => m.modify b g) m).get? k =
      if k ∈ bs then (m.get? k).map g else m.get? k := by
  induction bs generalizing m with
  | nil => simp
  | cons b bs ih =>
    rw [List.foldl_cons, ih, Table.get?_modify]
    by_cases hk : k ∈ bs
    · rw [if_pos hk, if_pos (List.mem_cons_of_mem _ hk)]
      split
      · cases m.get? k <;> simp [hg]
      · rfl
    · rw [if_neg hk]
      by_cases hb : k = b
      · rw [if_pos hb, if_pos (hb ▸ List.mem_cons_self)]
      · rw [if_neg hb, if_neg]
        intro h
        exact (List.mem_cons.mp h).elim hb hk

/-- Replacing a value in masks replaces it in the masks of the blocks that are listed. -/
theorem block?_replace (m : Masks) (bs : List BlockId) (old new : Value) (b : BlockId) :
    (m.replace bs old new).block? b =
      if b ∈ bs then (m.block? b).map (Substitution.single old new).value else m.block? b :=
  get?_foldl_modify (Substitution.single_idempotent old new).value bs m.blocks b

theorem edge?_replace (m : Masks) (bs : List BlockId) (old new : Value) (p q : BlockId) :
    (m.replace bs old new).edge? p q =
      (m.edge? p q).map (Substitution.single old new).value :=
  Table.get?_mapValues _ _ _

theorem size_insts_replaced (t : Stage) (phi : InstId) (v : Value) :
    (t.replaced phi v).func.insts.size = t.func.insts.size := by
  show (Func.detach _ _).insts.size = _
  rw [Func.size_insts_detach]
  exact Func.size_insts_substUsers t.func _ _

theorem size_blocks_replaced (t : Stage) (phi : InstId) (v : Value) :
    (t.replaced phi v).func.blocks.size = t.func.blocks.size := by
  show (Func.detach _ _).blocks.size = _
  rw [Func.size_blocks_detach]
  exact Func.size_blocks_substUsers t.func _ _

theorem Valid.replaced {t : Stage} (ht : t.Valid) (phi : InstId) {v : Value}
    (hv : t.func.Defines v) : (t.replaced phi v).Valid where
  func := (ht.func.replaceUses hv _).detach phi
  block b m hm := by
    rw [show (t.replaced phi v).masks.block? b = _ from block?_replace t.masks _ _ _ b] at hm
    refine Func.Defines.mono (by rw [size_insts_replaced]) (f := t.func) ?_
    split at hm
    · obtain ⟨w, hw, rfl⟩ := Option.map_eq_some_iff.mp hm
      exact hv.single (ht.block b w hw)
    · exact ht.block b m hm
  edge p q m hm := by
    rw [show (t.replaced phi v).masks.edge? p q = _ from edge?_replace t.masks _ _ _ p q] at hm
    refine Func.Defines.mono (by rw [size_insts_replaced]) (f := t.func) ?_
    obtain ⟨w, hw, rfl⟩ := Option.map_eq_some_iff.mp hm
    exact hv.single (ht.edge p q w hw)

theorem body_replaced_subset {t : Stage} {phi : InstId} {v : Value} {b : BlockId} {i : InstId}
    (h : i ∈ (t.replaced phi v).func.body b) : i ∈ t.func.body b := by
  have := Func.mem_body_of_detach _ h
  rwa [show (t.func.replaceAllUses (.inst phi) v).body b = t.func.body b from
    Func.body_substUsers _ _ _ _] at this

theorem isPhi_replaced (t : Stage) (phi : InstId) (v : Value) (i : InstId) :
    (t.replaced phi v).func.isPhi i = t.func.isPhi i := by
  show ((Func.substUsers t.func (.single (.inst phi) v) t.func.users).inst i).isPhi = _
  rw [Func.inst_substUsers _ _ (Substitution.single_idempotent _ _)]
  split
  · exact Instr.isPhi_map _ _ _
  · rfl

theorem shape_dropShape (v : VectorInfo) (x y : Value) :
    (v.dropShape x).shape y = if y = x ∧ y.isConst = false then .unknown else v.shape y := by
  cases y with
  | const c => simp [VectorInfo.shape, Value.isConst]
  | param k =>
    show ((v.shapes.erase x).get? (.param k)).getD .unknown = _
    rw [Table.get?_erase]
    by_cases h : Value.param k = x <;> simp [h, Value.isConst, VectorInfo.shape, Table.getD]
  | inst i =>
    show ((v.shapes.erase x).get? (.inst i)).getD .unknown = _
    rw [Table.get?_erase]
    by_cases h : Value.inst i = x <;> simp [h, Value.isConst, VectorInfo.shape, Table.getD]

theorem shape_replaced (t : Stage) (phi : InstId) (v x : Value) :
    (t.replaced phi v).info.shape x =
      if x = .inst phi then .unknown else t.info.shape x := by
  show (t.info.dropShape (.inst phi)).shape x = _
  rw [shape_dropShape]
  cases x <;> simp [Value.isConst]

theorem Later.replaced (t : Stage) (phi : InstId) (v : Value) : Later t (t.replaced phi v) where
  size := by rw [size_insts_replaced]
  uniform i h1 h2 := by
    rw [isPhi_replaced] at h1
    refine ⟨h1, ?_⟩
    rw [VectorInfo.isUniform, shape_replaced] at h2
    split at h2
    · cases h2
    · exact h2
  attached i _ := by
    rintro ⟨b, hb⟩
    exact ⟨b, body_replaced_subset hb⟩
  keepsMasks := t.func.keepsMasks_substUsers phi v t.func.users

/-- Every terminator sees the new value. -/
theorem term_replaced {t : Stage} (ht : t.func.Coherent) (phi : InstId) (v : Value)
    (b : BlockId) : (t.replaced phi v).func.term b =
      (t.func.term b).map id (Substitution.single (.inst phi) v).value := by
  show (Func.detach _ _).term b = _
  rw [Func.term_detach, ht.term_replaceAllUses]

/-- A phi that is replaced is in no block. -/
theorem not_attached_replaced {t : Stage} (ht : t.func.Coherent) (phi : InstId) (v : Value) :
    ¬ (t.replaced phi v).func.Attached phi := by
  rintro ⟨b, hb⟩
  have hmem := body_replaced_subset hb
  have hblock : (t.func.inst phi).block = b := ht.placed b phi hmem
  have h : phi ∈ (Func.detach (t.func.replaceAllUses (.inst phi) v) phi).body b := hb
  rw [Func.body_detach] at h
  have hsame : ((t.func.replaceAllUses (.inst phi) v).inst phi).block = b := by
    show ((t.func.substUsers _ _).inst phi).block = b
    rw [Func.inst_substUsers _ _ (Substitution.single_idempotent _ _)]
    split <;> exact hblock
  rw [if_pos hsame] at h
  simpa using (List.mem_filter.mp h).2

/-- Another instruction stays where it is. -/
theorem attached_replaced {t : Stage} {phi i : InstId} {v : Value} (hne : i ≠ phi)
    (hi : t.func.Attached i) : (t.replaced phi v).func.Attached i := by
  obtain ⟨b, hb⟩ := hi
  have hb : i ∈ (t.func.substUsers (.single (.inst phi) v) t.func.users).body b := by
    rw [Func.body_substUsers]
    exact hb
  refine ⟨b, ?_⟩
  show i ∈ (Func.detach (t.func.substUsers (.single (.inst phi) v) t.func.users) phi).body b
  rw [Func.body_detach]
  split
  · exact List.mem_filter.mpr ⟨hb, by simpa using hne⟩
  · exact hb

theorem Straightening.replaced {t : Stage} (h : Straightening s R region rest t) {phi : InstId}
    {v : Value} (hphi : t.func.isPhi phi = true)
    (hatt : t.info.isUniform (.inst phi) = true → t.func.Attached phi) (hv : t.func.Defines v) : Straightening s R region rest (t.replaced phi v) := by
  have hf := h.valid.func
  refine h.step (h.valid.replaced phi hv) (.replaced t phi v) rfl (size_blocks_replaced t phi v)
    (fun b hR c hc => ?_)
    fun b hR hd => ?_
  · rw [term_replaced hf, Terminator.targets_map, List.map_id] at hc
    exact h.closed b hR c hc
  · obtain ⟨hin, cond, x, y, ht, hu⟩ := isDivergentBranch_iff.mp hd
    rw [term_replaced hf] at ht
    obtain ⟨cond', x', y', ht', hcond⟩ : ∃ cond' x' y', t.func.term b = .brIf cond' x' y' ∧
        cond = (Substitution.single (.inst phi) v).value cond' := by
      cases hterm : t.func.term b with
      | brIf cond' x' y' =>
        rw [hterm] at ht
        cases ht
        exact ⟨cond', x', y', rfl, rfl⟩
      | _ =>
        rw [hterm] at ht
        cases ht
    by_cases hcu : t.info.isUniform cond' = true
    · -- the condition is a phi that was recorded as uniform all along
      right
      by_cases hc : cond' = .inst phi
      · subst hc
        obtain ⟨h1, h2⟩ := h.later.uniform phi hphi hcu
        exact ⟨phi, h1, h2, h.later.attached phi (s.func.lt_of_isPhi h1) (hatt hcu),
          not_attached_replaced hf phi v⟩
      · rw [Substitution.value_single, if_neg hc] at hcond
        subst hcond
        rw [VectorInfo.isUniform, shape_replaced, if_neg hc] at hu
        rw [VectorInfo.isUniform, hu] at hcu
        cases hcu
    · exact .inl (isDivergentBranch_iff.mpr ⟨hin, cond', x', y', ht', by simpa using hcu⟩)

end Stage

end Lockstep
