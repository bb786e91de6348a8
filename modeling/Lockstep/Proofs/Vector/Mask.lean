import Lockstep.Proofs.Vector.Grow
import Lockstep.Vector.Mask

/-!
# Making masks

Before branches are straightened, masks are made and loops are normalized. Neither brings an
instruction back that was taken out of its block, and neither makes a phi that is recorded as
uniform (`Prepared`).
-/

namespace Lockstep

namespace Stage

/-- What holds of a stage `t` while `s` is prepared: phis that are recorded as uniform have been so
all along, but for those in `fresh`, which have been made and have no shape yet. -/
structure Prepared (s : Stage) (fresh : List InstId) (t : Stage) : Prop where
  valid : t.Valid
  size : s.func.insts.size ≤ t.func.insts.size
  blocks : t.func.blocks.size = s.func.blocks.size
  region : t.info.region = s.info.region
  uniform : ∀ i, i ∉ fresh → t.func.isPhi i = true → t.info.isUniform (.inst i) = true →
    s.func.isPhi i = true ∧ s.info.isUniform (.inst i) = true
  attached : ∀ i < s.func.insts.size, t.func.Attached i → s.func.Attached i
  keepsMasks : s.func.KeepsMasks t.func

variable {s t : Stage} {fresh : List InstId}

theorem Prepared.refl (hs : s.Valid) : Prepared s [] s where
  valid := hs
  size := Nat.le_refl _
  blocks := rfl
  region := rfl
  uniform _ _ h1 h2 := ⟨h1, h2⟩
  attached _ _ h := h
  keepsMasks := .refl _

theorem Prepared.later (h : Prepared s [] t) : Later s t where
  size := h.size
  uniform i := h.uniform i List.not_mem_nil
  attached := h.attached
  keepsMasks := h.keepsMasks

theorem Prepared.grow {u : Stage} (h : Prepared s fresh t) (hg : Grows t u) :
    Prepared s fresh u where
  valid := hg.valid h.valid
  size := Nat.le_trans h.size hg.func.size
  blocks := hg.func.blocks.trans h.blocks
  region := hg.region.trans h.region
  uniform i hi h1 h2 := by
    obtain ⟨h3, h4⟩ := hg.later.uniform i h1 h2
    exact h.uniform i hi h3 h4
  attached i hi ha :=
    h.attached i hi (hg.later.attached i (Nat.lt_of_lt_of_le hi h.size) ha)
  keepsMasks := h.keepsMasks.trans hg.func.keepsMasks

/-- A phi that was made is not recorded as uniform once it has a shape. -/
theorem Prepared.setShape_vary (h : Prepared s fresh t) (v : Value) {fresh' : List InstId}
    (hf : ∀ i ∈ fresh, i ∈ fresh' ∨ v = .inst i) :
    Prepared s fresh' { t with info := t.info.setShape v .vary } where
  valid := ⟨h.valid.func, h.valid.block, h.valid.edge⟩
  size := h.size
  blocks := h.blocks
  region := h.region
  uniform i hi h1 h2 := by
    have h2 : (t.info.setShape v .vary).isUniform (.inst i) = true := h2
    rw [VectorInfo.isUniform, VectorInfo.shape_setShape] at h2
    split at h2
    · cases h2
    · rename_i hne
      refine h.uniform i (fun hmem => ?_) h1 h2
      exact hne ⟨((hf i hmem).resolve_left hi).symm, rfl⟩
  attached := h.attached
  keepsMasks := h.keepsMasks

/-- What is no phi may have any shape. -/
theorem Prepared.setShape (h : Prepared s fresh t) {v : Value} (shape : Shape)
    (hv : ∀ i, v = .inst i → t.func.isPhi i = false) :
    Prepared s fresh { t with info := t.info.setShape v shape } where
  valid := ⟨h.valid.func, h.valid.block, h.valid.edge⟩
  size := h.size
  blocks := h.blocks
  region := h.region
  uniform i hi h1 h2 := by
    have h2 : (t.info.setShape v shape).isUniform (.inst i) = true := h2
    rw [VectorInfo.isUniform, VectorInfo.shape_setShape] at h2
    split at h2
    · rename_i e
      have h1 : t.func.isPhi i = true := h1
      rw [hv i e.1.symm] at h1
      cases h1
    · exact h.uniform i hi h1 h2
  attached := h.attached
  keepsMasks := h.keepsMasks

theorem Prepared.setBlockMask (h : Prepared s fresh t) {m : Value} (hm : t.func.Defines m)
    (b : BlockId) : Prepared s fresh
      { t with info := t.info.setPredicate b m, masks := t.masks.setBlock b m } where
  valid := by
    refine ⟨h.valid.func, fun c n hn => ?_, h.valid.edge⟩
    have hn : (t.masks.setBlock b m).block? c = some n := hn
    rw [Masks.block?_setBlock] at hn
    split at hn
    · cases hn
      exact hm
    · exact h.valid.block c n hn
  size := h.size
  blocks := h.blocks
  region := h.region
  uniform := h.uniform
  attached := h.attached
  keepsMasks := h.keepsMasks

theorem Prepared.setEdgeMask (h : Prepared s fresh t) {m : Value} (hm : t.func.Defines m)
    (p q : BlockId) : Prepared s fresh { t with masks := t.masks.setEdge p q m } where
  valid := by
    refine ⟨h.valid.func, h.valid.block, fun x y n hn => ?_⟩
    have hn : (t.masks.setEdge p q m).edge? x y = some n := hn
    rw [Masks.edge?_setEdge] at hn
    split at hn
    · cases hn
      exact hm
    · exact h.valid.edge x y n hn
  size := h.size
  blocks := h.blocks
  region := h.region
  uniform := h.uniform
  attached := h.attached
  keepsMasks := h.keepsMasks

theorem Prepared.setDivergent (h : Prepared s fresh t) (b : BlockId) (divergent : Bool) :
    Prepared s fresh { t with info := t.info.setDivergent b divergent } where
  valid := ⟨h.valid.func, h.valid.block, h.valid.edge⟩
  size := h.size
  blocks := h.blocks
  region := h.region
  uniform := h.uniform
  attached := h.attached
  keepsMasks := h.keepsMasks

/-- A change of the function that keeps bodies and phis. -/
theorem Prepared.edit (h : Prepared s fresh t) {f : Func} (hf : f.Coherent)
    (hs : f.insts.size = t.func.insts.size) (hb : f.blocks.size = t.func.blocks.size)
    (hp : ∀ i, f.isPhi i = t.func.isPhi i) (hbody : ∀ b, f.body b = t.func.body b)
    (hmask : t.func.KeepsMasks f) : Prepared s fresh { t with func := f } where
  valid := ⟨hf, fun b m hm => (h.valid.block b m hm).mono (Nat.le_of_eq hs.symm),
    fun p q m hm => (h.valid.edge p q m hm).mono (Nat.le_of_eq hs.symm)⟩
  size := Nat.le_trans h.size (Nat.le_of_eq hs.symm)
  blocks := hb.trans h.blocks
  region := h.region
  uniform i hi h1 h2 := h.uniform i hi ((hp i).symm.trans h1) h2
  attached i hi := by
    rintro ⟨b, hmem⟩
    exact h.attached i hi ⟨b, hbody b ▸ hmem⟩
  keepsMasks := h.keepsMasks.trans hmask

theorem isPhi_modifyIncoming (f : Func) (phi i : InstId)
    (g : List (BlockId × Value) → List (BlockId × Value)) :
    (f.modifyIncoming phi g).isPhi i = f.isPhi i := by
  rw [Func.isPhi, Func.inst_modifyIncoming]
  split
  · exact Func.isPhi_mapIncoming g _
  · rfl

theorem Prepared.setIncoming (h : Prepared s fresh t) (phi : InstId) (pred : BlockId) {v : Value}
    (hv : t.func.Defines v) :
    Prepared s fresh { t with func := t.func.setIncoming phi pred v } :=
  h.edit (h.valid.func.setIncoming hv) (Func.size_insts_modifyIncoming _ _ _) rfl
    (fun _ => isPhi_modifyIncoming _ _ _ _) (fun _ => Func.body_modifyIncoming _ _ _ _)
    (Func.keepsMasks_modifyIncoming _ _ _)

/-- A new phi awaits its shape. -/
theorem Prepared.appendPhi (h : Prepared s fresh t) {b : BlockId} {ty : Ty}
    {incoming : List (BlockId × Value)} (hi : ∀ e ∈ incoming, t.func.Defines e.2) :
    Prepared s (t.func.insts.size :: fresh)
      { t with func := (t.func.appendPhi b ty incoming).2 } where
  valid := by
    have hsize : t.func.insts.size ≤ (t.func.appendPhi b ty incoming).2.insts.size := by
      rw [Func.appendPhi, Func.size_insts_insertAt]
      exact Nat.le_succ _
    refine ⟨h.valid.func.insertAt fun v hv => ?_, fun b m hm => (h.valid.block b m hm).mono hsize,
      fun p q m hm => (h.valid.edge p q m hm).mono hsize⟩
    obtain ⟨e, he, rfl⟩ := List.mem_map.mp hv
    exact hi e he
  size := by
    show _ ≤ (t.func.insertAt _ _ _).2.insts.size
    rw [Func.size_insts_insertAt]
    exact Nat.le_succ_of_le h.size
  blocks := by
    show (t.func.insertAt _ _ _).2.blocks.size = _
    rw [Func.size_blocks_insertAt]
    exact h.blocks
  region := h.region
  uniform i hmem h1 h2 := by
    have hne : i ≠ t.func.insts.size := fun e => hmem (e ▸ List.mem_cons_self)
    have h1 : ((t.func.insertAt _ _ _).2.inst i).isPhi = true := h1
    rw [Func.inst_insertAt, if_neg hne] at h1
    exact h.uniform i (fun hf => hmem (List.mem_cons_of_mem _ hf)) h1 h2
  attached i hi' := by
    rintro ⟨c, hc⟩
    rcases Func.mem_body_insertAt t.func hc with hc | ⟨rfl, -⟩
    · exact h.attached i hi' ⟨c, hc⟩
    · exact absurd (Nat.lt_of_lt_of_le hi' h.size) (Nat.lt_irrefl _)
  keepsMasks := h.keepsMasks.trans (t.func.keepsMasks_insertAt _ _ rfl)

/-! ## Masks of edges and blocks -/

/-- What holds of a prepared stage with at least `n` instructions. -/
def PreparedFrom (s : Stage) (n : Nat) (t : Stage) : Prop :=
  Prepared s [] t ∧ n ≤ t.func.insts.size

theorem PreparedFrom.grow {u : Stage} {n : Nat} (h : PreparedFrom s n t) (hg : Grows t u) :
    PreparedFrom s n u :=
  ⟨h.1.grow hg, Nat.le_trans h.2 hg.func.size⟩

/-- Whether a computation gives an existing value, and keeps a stage prepared. -/
def GivesMask (s : Stage) (m : StateM Stage Value) : Prop :=
  ∀ n, Triple (PreparedFrom s n) m fun v t => PreparedFrom s n t ∧ t.func.Defines v

/-- A conjunction is one of its operands, or new. -/
theorem and_mem_or_fresh (x y : Value) (b : Builder) :
    (Build.and x y b).1 ∈ [x, y] ∨ ¬ b.func.Defines (Build.and x y b).1 := by
  unfold Build.and
  split
  · exact .inl (List.mem_cons_of_mem _ List.mem_cons_self)
  · split
    · exact .inl List.mem_cons_self
    · exact .inr (Merge.fresh_of_ne rfl (Nat.le_refl _))

/-- A negation is a constant, or new. -/
theorem not_const_or_fresh (x : Value) (b : Builder) :
    (Build.not x b).1.inst? = none ∨ ¬ b.func.Defines (Build.not x b).1 := by
  unfold Build.not
  cases x.bool? with
  | some c => exact .inl rfl
  | none => exact .inr (Merge.fresh_of_ne rfl (Nat.le_refl _))

/-- The condition under which an edge is taken. -/
def takenBy (cond : Value) (positive : Prop) [Decidable positive] : Build Value :=
  if positive then pure cond else Build.not cond

theorem built_takenBy {b : Builder} {cond : Value} (positive : Prop) [Decidable positive]
    (hb : b.func.Coherent) (hc : b.func.Defines cond) :
    Built b (takenBy cond positive b) ∧ ((takenBy cond positive b).1 = cond ∨
      (takenBy cond positive b).1.inst? = none ∨
        ¬ b.func.Defines (takenBy cond positive b).1) := by
  unfold takenBy
  split
  · exact ⟨Build.built_pure hb hc, .inl rfl⟩
  · exact ⟨Build.built_not hb hc, .inr (not_const_or_fresh cond b)⟩

/-- The condition under which an edge is taken, and its conjunction with a mask. -/
def narrowed (cond mask : Value) (positive : Prop) [Decidable positive] :
    Build (Value × Value) := do
  let taken ← if positive then pure cond else Build.not cond
  let mask ← Build.and mask taken
  return (taken, mask)

theorem narrowed_apply (cond mask : Value) (positive : Prop) [Decidable positive] (b : Builder) :
    narrowed cond mask positive b = (
      let r := Build.and mask (takenBy cond positive b).1 (takenBy cond positive b).2
      (((takenBy cond positive b).1, r.1), r.2)) := by
  unfold narrowed takenBy
  split <;> rfl

/-- What is built for an edge exists, and is new unless it is one of the operands. -/
theorem built_narrowed {b : Builder} {cond mask : Value} (positive : Prop) [Decidable positive]
    (hb : b.func.Coherent) (hc : b.func.Defines cond) (hm : b.func.Defines mask) :
    b.func.Extends (narrowed cond mask positive b).2.func ∧
      (narrowed cond mask positive b).2.func.Coherent ∧
      (narrowed cond mask positive b).2.func.Defines (narrowed cond mask positive b).1.1 ∧
      (narrowed cond mask positive b).2.func.Defines (narrowed cond mask positive b).1.2 ∧
      ∀ v ∈ [(narrowed cond mask positive b).1.1, (narrowed cond mask positive b).1.2],
        v.inst?.isSome = true → v ≠ cond → v ≠ mask → ¬ b.func.Defines v := by
  rw [narrowed_apply]
  obtain ⟨h1, hnew1⟩ := built_takenBy positive hb hc
  have h2 := Build.built_and h1.coherent (h1.extends_.defines hm) h1.defines
  have hnew2 := and_mem_or_fresh mask (takenBy cond positive b).1 (takenBy cond positive b).2
  have hfresh1 : ∀ v, v = (takenBy cond positive b).1 → v.inst?.isSome = true → v ≠ cond →
      ¬ b.func.Defines v := by
    rintro v rfl hsome hne
    rcases hnew1 with e | e | h
    · exact absurd e hne
    · rw [e] at hsome
      cases hsome
    · exact h
  refine ⟨h1.extends_.trans h2.extends_, h2.coherent, h2.extends_.defines h1.defines, h2.defines,
    fun v hv hsome hne hne' => ?_⟩
  rcases List.mem_pair.mp hv with rfl | rfl
  · exact hfresh1 _ rfl hsome hne
  · rcases hnew2 with hmem | h
    · rcases List.mem_pair.mp hmem with e | e
      · exact absurd e hne'
      · exact hfresh1 _ e hsome hne
    · exact fun hd => h (h1.extends_.defines hd)

theorem triple_edgeMaskBy {blockMask : BlockId → StateM Stage Value}
    (hb : ∀ b, GivesMask s (blockMask b)) (pred succ : BlockId) :
    GivesMask s (edgeMaskBy blockMask pred succ) := by
  intro n
  unfold edgeMaskBy
  refine Triple.bind Triple.get fun t => ?_
  split
  · rename_i mask hmask
    refine Triple.pure ?_
    rintro u ⟨rfl, hu⟩
    exact ⟨hu, hu.1.valid.edge pred succ mask hmask⟩
  refine Triple.bind (((hb pred n)).mono (fun u hu => hu.2) fun m u hu => hu) fun predMask => ?_
  refine Triple.bind Triple.get fun t => ?_
  have hend : ∀ mask, Triple (fun u => PreparedFrom s n u ∧ u.func.Defines mask) (do
      setEdgeMask pred succ mask
      return mask) fun m u => PreparedFrom s n u ∧ u.func.Defines m := by
    refine fun mask => Triple.bind (triple_setEdgeMask (Q := fun _ u => PreparedFrom s n u ∧
      u.func.Defines mask) ?_) fun _ => Triple.pure fun u hu => hu
    rintro u ⟨⟨hu, hn⟩, hm⟩
    exact ⟨⟨hu.setEdgeMask hm _ _, hn⟩, hm⟩
  split
  · rename_i cond onTrue onFalse hterm
    refine Triple.bind (R := fun r u => (PreparedFrom s n t ∧ Grows t u ∧ u.func.Defines r.2) ∧
      ∀ v ∈ [r.1, r.2], v.inst?.isSome = true → v ≠ cond → v ≠ predMask →
        ¬ t.func.Defines v) ?_ fun r => Triple.assume fun hfresh => ?_
    · rintro u r u' ⟨rfl, hu, hm⟩ e
      have hc := hu.1.valid.func.defines_cond hterm
      obtain ⟨h1, h2, -, h4, h5⟩ := built_narrowed (b := ⟨t.func, .blockEnd pred⟩)
        (onTrue = succ) hu.1.valid.func hc hm
      have e : build (.blockEnd pred) (narrowed cond predMask (onTrue = succ)) t = (r, u') := e
      cases e
      exact ⟨⟨hu, (Grows.refl hu.1.valid.func).build h1 h2, h4⟩, h5⟩
    · obtain ⟨taken, mask⟩ := r
      dsimp only
      refine Triple.bind (R := fun _ u => PreparedFrom s n u ∧ u.func.Defines mask) ?_
        fun _ => hend mask
      refine (triple_forIn_setShape (P := fun u => PreparedFrom s n t ∧ Grows t u ∧
        u.func.Defines mask) ?_).mono (fun _ h => h) ?_
      · rintro v hv hp u ⟨ht, hg, hm⟩
        rw [Bool.and_eq_true, Bool.and_eq_true, bne_iff_ne, bne_iff_ne] at hp
        exact ⟨ht, hg.setShape (hfresh v hv hp.1.1 hp.1.2 hp.2) _, hm⟩
      · rintro _ u ⟨ht, hg, hm⟩
        exact ⟨ht.grow hg, hm⟩
  · exact Triple.bind (Triple.pure fun u hu => hu.2) hend

theorem triple_blockMaskWithin (g : Cfg) (fuel : Nat) (b : BlockId) :
    GivesMask s (blockMaskWithin g fuel b) := by
  induction fuel generalizing b with
  | zero => exact fun n => Triple.pure fun t ht => ⟨ht, trivial⟩
  | succ fuel ih =>
    intro n
    have hset : ∀ mask, Triple (fun u => PreparedFrom s n u ∧ u.func.Defines mask) (do
        setBlockMask b mask
        return mask) fun m u => PreparedFrom s n u ∧ u.func.Defines m := by
      refine fun mask => Triple.bind (triple_setBlockMask (Q := fun _ u =>
        PreparedFrom s n u ∧ u.func.Defines mask) ?_) fun _ => Triple.pure fun u hu => hu
      rintro u ⟨⟨hu, hn⟩, hm⟩
      exact ⟨⟨hu.setBlockMask hm _, hn⟩, hm⟩
    have htrue : Triple (fun u : Stage => PreparedFrom s n u) (do
        setBlockMask b (.ofBool true)
        return .ofBool true) fun m u => PreparedFrom s n u ∧ u.func.Defines m :=
      (hset (.ofBool true)).mono (fun u hu => ⟨hu, trivial⟩) fun _ _ hu => hu
    unfold blockMaskWithin
    refine Triple.bind Triple.get fun t => ?_
    split
    · rename_i mask hmask
      refine Triple.pure ?_
      rintro u ⟨rfl, hu⟩
      exact ⟨hu, hu.1.valid.block b mask hmask⟩
    split
    · exact htrue.mono (fun u hu => hu.2) fun _ _ hu => hu
    split
    · exact htrue.mono (fun u hu => hu.2) fun _ _ hu => hu
    · rename_i pred _
      exact Triple.bind ((triple_edgeMaskBy ih pred b n).mono (fun u hu => hu.2)
        fun m u hu => hu) hset
    · -- the phi exists while the masks of the edges are asked for
      refine Triple.bind (R := fun phi u => n ≤ phi ∧ phi < u.func.insts.size ∧
        Prepared s [phi] u) (triple_appendPhi ?_) fun phi => ?_
      · rintro u ⟨-, hu, hn⟩
        refine ⟨hn, ?_, hu.appendPhi fun e he => by cases he⟩
        show u.func.insts.size < (u.func.insertAt _ _ _).2.insts.size
        rw [Func.size_insts_insertAt]
        exact Nat.lt_succ_self _
      refine Triple.bind (R := fun _ u => n ≤ phi ∧ PreparedFrom s (phi + 1) u)
        (triple_setShape ?_) fun _ => ?_
      · rintro u ⟨hn, hlt, hu⟩
        exact ⟨hn, hu.setShape_vary _ fun i hi => .inr (by rw [List.mem_singleton.mp hi]), hlt⟩
      refine Triple.bind (R := fun _ u => n ≤ phi ∧ PreparedFrom s (phi + 1) u)
        (triple_setBlockMask ?_) fun _ => ?_
      · rintro u ⟨hn, hu, hlt⟩
        exact ⟨hn, hu.setBlockMask (m := .inst phi) hlt _, hlt⟩
      refine Triple.bind (R := fun _ u => n ≤ phi ∧ PreparedFrom s (phi + 1) u) ?_ fun _ =>
        Triple.pure fun u hu => ⟨⟨hu.2.1, Nat.le_trans (Nat.le_succ_of_le hu.1) hu.2.2⟩, hu.2.2⟩
      refine Triple.forIn (J := fun _ u => n ≤ phi ∧ PreparedFrom s (phi + 1) u) _ ?_
      rintro pred tail -
      refine Triple.bind (R := fun m u => n ≤ phi ∧ PreparedFrom s (phi + 1) u ∧
        u.func.Defines m) ?_ fun m => ?_
      · rintro u m u' ⟨hn, hu⟩ e
        exact ⟨hn, triple_edgeMaskBy ih pred b (phi + 1) u m u' hu e⟩
      · refine Triple.bind (triple_modifyFunc (Q := fun _ u => n ≤ phi ∧
          PreparedFrom s (phi + 1) u) ?_) fun _ => Triple.pure fun u hu => ⟨rfl, hu⟩
        rintro u ⟨hn, ⟨hu, hlt⟩, hm⟩
        refine ⟨hn, hu.setIncoming phi pred hm, ?_⟩
        exact Nat.le_trans hlt (Nat.le_of_eq (Func.size_insts_modifyIncoming _ _ _).symm)

theorem triple_blockMask (g : Cfg) (b : BlockId) : GivesMask s (blockMask g b) :=
  triple_blockMaskWithin g _ b

theorem triple_edgeMask (g : Cfg) (p q : BlockId) : GivesMask s (edgeMask g p q) :=
  triple_edgeMaskBy (triple_blockMask g) p q

theorem triple_expandMasks (g : Cfg) (n : Nat) :
    Triple (PreparedFrom s n) (expandMasks g) fun _ => PreparedFrom s n := by
  unfold expandMasks
  refine Triple.forM (J := fun _ => PreparedFrom s n) g.rpo ?_
  rintro b tail -
  refine Triple.bind Triple.get fun t => ?_
  split
  · refine Triple.bind ((triple_blockMask g b n).mono (fun u hu => hu.2) fun _ _ hu => hu)
      fun _ => ?_
    refine (Triple.forM (J := fun _ => PreparedFrom s n) (g.succs b) ?_).mono
      (fun u hu => hu.1) fun _ u hu => hu
    rintro succ rest -
    exact Triple.bind (triple_edgeMask g b succ n) fun _ => Triple.pure fun u hu => hu.1
  · exact Triple.pure fun u hu => hu.2

end Stage

end Lockstep
