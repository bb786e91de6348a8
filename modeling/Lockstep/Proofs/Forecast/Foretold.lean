import Lockstep.Proofs.Forecast.Merge
import Lockstep.Proofs.Linear.Course
import Lockstep.Proofs.Linear.Straighten

/-!
# Stages with known masks

Of the mask of a block it is known in every lane whether the lane comes by the block, and of the mask of
an edge whether the lane takes the edge. That is kept when code is made, when entries of a phi change and
when a phi is replaced.
-/

namespace Lockstep

variable {ι : Type}

/-! ## Masks -/

/-- A mask that tells of every lane whether it comes by a block, available to the effects of the
block. -/
structure Doings.BlockMask (D : Doings ι) (g f : Func) (K : Knowledge ι) (b : BlockId) (mask : Value) :
    Prop where
  lt : b < f.blocks.size
  reachable : g.Reachable b
  isTyped : mask.IsTyped
  typeOf : f.typeOf mask = .bool
  atEnd : g.AtEnd f b mask
  before : ∀ i ∈ f.body b, f.isEffect i = true → g.Before f b i mask
  knows : ∀ l, ∃ q, K.Knows l mask (.bool q) ∧ (q = true ↔ b ∈ D.trace l)

/-- A mask that tells of every lane whether it takes an edge. -/
structure EdgeMask (P : ι → List BlockId) (g f : Func) (K : Knowledge ι) (p c : BlockId) (mask : Value) :
    Prop where
  reachable : g.Reachable p
  isTyped : mask.IsTyped
  typeOf : f.typeOf mask = .bool
  atEnd : g.AtEnd f p mask
  knows : ∀ l, ∃ q, K.Knows l mask (.bool q) ∧ (q = true ↔ [p, c] <:+: P l)

/-- A stage whose code runs as foretold, with masks that tell where lanes go. -/
structure Stage.Foretold (D : Doings ι) (P : ι → List BlockId) (g : Func) (ways : InstId → Way ι)
    (K : Knowledge ι) (t : Stage) : Prop where
  runs : D.Runs g ways K t.func
  blocks : t.func.blocks.size = D.func.blocks.size
  region : t.info.region = none
  blockMask : ∀ b m, t.masks.block? b = some m → D.BlockMask g t.func K b m
  predicate : ∀ b, t.info.predicate? b = t.masks.block? b
  edgeMask : ∀ p c m, t.masks.edge? p c = some m → t.func.Edge p c → EdgeMask P g t.func K p c m
  uniform : t.UniformKnown t.func K
  cond : ∀ l b v x y, t.func.term b = .brIf v x y → ∀ c, [b, c] <:+: P l →
    ∃ q, K.Knows l v (.bool q) ∧ (q = true ↔ c = x)
  branch : ∀ l b v x y, t.func.term b = .brIf v x y → b ∈ P l → b ∈ D.trace l
  returns : ∀ b v, D.func.term b = .ret v → ∃ w, t.func.term b = .ret w ∧
    Option.Rel (fun v w => ∀ l x, D.known.Knows l v x → K.Knows l w x) v w

variable {D : Doings ι} {P : ι → List BlockId} {g f f' : Func} {ways ways' : InstId → Way ι}
  {K K' : Knowledge ι} {t t' : Stage} {b p c : BlockId} {mask v : Value} {phi : InstId}

/-! ## Other graphs -/

theorem Stage.Foretold.regraph {g' : Func} (h : Foretold D P g ways K t)
    (hr : ∀ b, g'.Reachable b ↔ g.Reachable b) (hd : ∀ a b, g.Dominates a b → g'.Dominates a b) :
    Foretold D P g' ways K t :=
  { h with
    runs := h.runs.regraph hr hd
    blockMask := fun b m hb =>
      have k := h.blockMask b m hb
      { k with
        reachable := (hr b).mpr k.reachable
        atEnd := k.atEnd.regraph hd
        before := fun i hi he => (k.before i hi he).regraph hd }
    edgeMask := fun p c m hpc he =>
      have k := h.edgeMask p c m hpc he
      { k with
        reachable := (hr p).mpr k.reachable
        atEnd := k.atEnd.regraph hd } }

namespace Func

/-- The same control flow, with other values in the terminators. -/
def Follows (f f' : Func) : Prop := ∀ b, ∃ σ, f'.term b = (f.term b).map id σ

theorem map_id_term (t : Terminator) : t.map id id = t := by
  cases t with
  | ret v => cases v <;> rfl
  | _ => rfl

theorem Follows.refl (f : Func) : f.Follows f := fun _ => ⟨id, (map_id_term _).symm⟩

theorem Follows.trans {f f' f'' : Func} (h : f.Follows f') (k : f'.Follows f'') : f.Follows f'' := by
  intro b
  obtain ⟨σ, h1⟩ := h b
  obtain ⟨τ, h2⟩ := k b
  refine ⟨τ ∘ σ, ?_⟩
  rw [h2, h1]
  cases f.term b with
  | ret v => cases v <;> rfl
  | _ => rfl

theorem Widens.follows {f f' : Func} (h : f.Widens f') : f.Follows f' := fun b =>
  ⟨id, (h.term b).trans (map_id_term _).symm⟩

theorem follows_substPhi {f : Func} (hf : f.Coherent) (phi : InstId) (v : Value) :
    f.Follows (f.substPhi phi v) := fun b => ⟨_, term_substPhi hf phi v b⟩

theorem Follows.edge {f f' : Func} (h : f.Follows f') {a b : BlockId} : f'.Edge a b ↔ f.Edge a b := by
  obtain ⟨σ, e⟩ := h a
  rw [Edge, e, Terminator.targets_map, List.map_id]

theorem Follows.reachable_iff {f f' : Func} (h : f.Follows f') {b : BlockId} :
    f'.Reachable b ↔ f.Reachable b :=
  ⟨fun hb => Relation.ReflTransGen.mono (fun _ _ e => h.edge.mp e) _ _ hb,
    fun hb => Relation.ReflTransGen.mono (fun _ _ e => h.edge.mpr e) _ _ hb⟩

theorem Follows.dominates {f f' : Func} (h : f.Follows f') {a b : BlockId} (hd : f.Dominates a b) :
    f'.Dominates a b := fun hp =>
  hd (Relation.ReflTransGen.mono (fun _ _ e => ⟨e.1, h.edge.mp e.2⟩) _ _ hp)

theorem Follows.acyclic {f f' : Func} (h : f.Follows f') (hf : f.Acyclic) : f'.Acyclic :=
  hf.of_targets fun _ _ => h.edge

theorem Follows.course {f f' : Func} (h : f.Follows f') {P : List BlockId} (hP : f.Course P) :
    f'.Course P := by
  refine ⟨hP.start, hP.chain.imp fun a b hab => h.edge.mpr hab, ?_⟩
  obtain ⟨b, v, hb, hret⟩ := hP.ends
  obtain ⟨σ, e⟩ := h b
  rw [hret] at e
  exact ⟨b, v.map σ, hb, e⟩

end Func

/-! ## Masks in other code -/

theorem Doings.BlockMask.widen (h : D.BlockMask g f K b mask) (he : f.Widens f') (hf : f.Coherent)
    (hK : K.Extends f.insts.size K') (hr : D.Runs g ways' K' f') (hsize : D.func.insts.size ≤ f.insts.size)
    (hD : ∀ b, ∀ i ∈ D.func.body b, i < D.func.insts.size) : D.BlockMask g f' K' b mask where
  lt := he.blocks ▸ h.lt
  reachable := h.reachable
  isTyped := h.isTyped
  typeOf := (he.typeOf (h.atEnd.defines hf)).trans h.typeOf
  atEnd := h.atEnd.widen he
  before i hi heff := by
    have hlt := Nat.lt_of_lt_of_le (hD b i (hr.isEffect_lt hi heff)) hsize
    rw [he.isEffect_eq hlt] at heff
    exact (h.before i (he.old b i hi hlt) heff).widen he
  knows l := by
    obtain ⟨q, h1, h2⟩ := h.knows l
    exact ⟨q, (hK.knows (h.atEnd.defines hf)).mpr h1, h2⟩

/-- In the blocks that a block dominates its mask can be that of an edge. -/
theorem Doings.BlockMask.edgeMask (h : D.BlockMask g f K b mask) (hp : g.Reachable p)
    (hd : g.Dominates b p) (ht : ∀ l, [p, c] <:+: P l ↔ b ∈ D.trace l) : EdgeMask P g f K p c mask where
  reachable := hp
  isTyped := h.isTyped
  typeOf := h.typeOf
  atEnd := h.atEnd.of_dominates hd
  knows l := by
    obtain ⟨q, h1, h2⟩ := h.knows l
    exact ⟨q, h1, h2.trans (ht l).symm⟩

theorem EdgeMask.widen (h : EdgeMask P g f K p c mask) (he : f.Widens f') (hf : f.Coherent)
    (hK : K.Extends f.insts.size K') : EdgeMask P g f' K' p c mask where
  reachable := h.reachable
  isTyped := h.isTyped
  typeOf := (he.typeOf (h.atEnd.defines hf)).trans h.typeOf
  atEnd := h.atEnd.widen he
  knows l := by
    obtain ⟨q, h1, h2⟩ := h.knows l
    exact ⟨q, (hK.knows (h.atEnd.defines hf)).mpr h1, h2⟩

theorem Doings.BlockMask.replaced (h : D.BlockMask g f K c mask) (hf : g.Supports f)
    (k : g.Replaceable f b phi v fun i => .inst phi ∈ (f.inst i).inputs ∨ f.isEffect i = true)
    (hv : K.Refines (.inst phi) v) :
    D.BlockMask g (f.substPhi phi v) K c ((Substitution.single (.inst phi) v).value mask) where
  lt := by
    rw [Func.size_blocks_substPhi]
    exact h.lt
  reachable := h.reachable
  isTyped := k.isTyped_single h.isTyped
  typeOf := by
    rw [Func.typeOf_substPhi]
    exact k.typeOf_single.trans h.typeOf
  atEnd := k.atEnd_single hf h.atEnd
  before i hi heff := by
    have hi : i ∈ f.body c := ((Func.mem_body_substPhi hf.coherent).mp hi).1
    have heff : f.isEffect i = true := Func.isEffect_substPhi f phi v i ▸ heff
    have hnon : i ∈ f.nonPhis c := by
      rw [← f.phis_append_nonPhis c] at hi
      refine (List.mem_append.mp hi).resolve_left fun hi => ?_
      have := Func.isPhi_of_isEffect heff
      rw [Func.isPhi_of_mem_phis hi] at this
      cases this
    exact k.before_single hf hnon (h.before i hi heff) fun _ => .inr heff
  knows l := by
    obtain ⟨q, h1, h2⟩ := h.knows l
    exact ⟨q, hv.single mask l _ h1, h2⟩

theorem EdgeMask.replaced {S : InstId → Prop} (h : EdgeMask P g f K p c mask) (hf : g.Supports f)
    (k : g.Replaceable f b phi v S) (hv : K.Refines (.inst phi) v) :
    EdgeMask P g (f.substPhi phi v) K p c ((Substitution.single (.inst phi) v).value mask) where
  reachable := h.reachable
  isTyped := k.isTyped_single h.isTyped
  typeOf := by
    rw [Func.typeOf_substPhi]
    exact k.typeOf_single.trans h.typeOf
  atEnd := k.atEnd_single hf h.atEnd
  knows l := by
    obtain ⟨q, h1, h2⟩ := h.knows l
    exact ⟨q, hv.single mask l _ h1, h2⟩

namespace Stage

/-! ## More code -/

theorem Foretold.widen (h : Foretold D P g ways K t) (hm : Made t t') (he : t.func.Widens t'.func)
    (hK : K.Extends t.func.insts.size K') (hr : D.Runs g ways' K' t'.func)
    (hu : t'.UniformKnown t'.func K') (hD : D.func.Coherent) : Foretold D P g ways' K' t' where
  runs := hr
  blocks := he.blocks.trans h.blocks
  region := hm.region.trans h.region
  blockMask b m hb := by
    rw [hm.masks] at hb
    exact (h.blockMask b m hb).widen he h.runs.code.coherent hK hr h.runs.size hD.body_lt
  predicate b := by
    rw [hm.masks, ← h.predicate b, VectorInfo.predicate?, hm.predicates]
    rfl
  edgeMask p c m hpc hedge := by
    rw [hm.masks] at hpc
    rw [Func.Edge, he.term] at hedge
    exact (h.edgeMask p c m hpc hedge).widen he h.runs.code.coherent hK
  uniform := hu
  cond l b v x y ht c hbc := by
    rw [he.term] at ht
    obtain ⟨q, h1, h2⟩ := h.cond l b v x y ht c hbc
    exact ⟨q, (hK.knows (h.runs.code.coherent.defines_cond ht)).mpr h1, h2⟩
  branch l b v x y ht := by
    rw [he.term] at ht
    exact h.branch l b v x y ht
  returns b v hv := by
    obtain ⟨w, hw, hrel⟩ := h.returns b v hv
    refine ⟨w, (he.term b).trans hw, ?_⟩
    cases hrel with
    | none => exact .none
    | some hk =>
      have hdef := h.runs.code.coherent.uses b _ (by rw [hw]; exact List.mem_singleton_self _)
      exact .some fun l x hx => (hK.knows hdef).mpr (hk l x hx)

/-! ## Entries -/

theorem Foretold.modifyIncoming (h : Foretold D P g ways K t) {G}
    (hr : D.Runs g ways' K (t.func.modifyIncoming phi G)) :
    Foretold D P g ways' K { t with func := t.func.modifyIncoming phi G } where
  runs := hr
  blocks := h.blocks
  region := h.region
  blockMask b m hb := by
    have hm := h.blockMask b m hb
    refine ⟨hm.lt, hm.reachable, hm.isTyped, ?_, hm.atEnd, fun i hi heff => ?_, hm.knows⟩
    · rw [Func.typeOf_modifyIncoming]
      exact hm.typeOf
    · rw [Func.isEffect_modifyIncoming] at heff
      exact hm.before i hi heff
  predicate := h.predicate
  edgeMask p c m hpc hedge := by
    have hm := h.edgeMask p c m hpc hedge
    refine ⟨hm.reachable, hm.isTyped, ?_, hm.atEnd, hm.knows⟩
    rw [Func.typeOf_modifyIncoming]
    exact hm.typeOf
  uniform v hv := by
    refine ⟨?_, (h.uniform v hv).2⟩
    exact (h.uniform v hv).1.mono (Nat.le_of_eq (Func.size_insts_modifyIncoming _ _ _).symm)
  cond := h.cond
  branch := h.branch
  returns := h.returns

/-! ## Replacement -/

theorem predicate?_remapPredicates (v : VectorInfo) (bs : List BlockId) (old new : Value)
    (b : BlockId) : (v.remapPredicates bs old new).predicate? b =
      if b ∈ bs then (v.predicate? b).map (Substitution.single old new).value else v.predicate? b :=
  get?_foldl_modify (Substitution.single_idempotent old new).value bs v.predicates b

theorem Foretold.replaced (h : Foretold D P g ways K t)
    (k : g.Replaceable t.func b phi v fun i =>
      .inst phi ∈ (t.func.inst i).inputs ∨ t.func.isEffect i = true)
    (hv : K.Refines (.inst phi) v) : Foretold D P g ways K (t.replaced phi v) where
  runs := h.runs.substPhi { k with before := fun i hi hin => k.before i hi (.inl hin) } hv
  blocks := (size_blocks_replaced t phi v).trans h.blocks
  region := h.region
  blockMask c m hc := by
    change (t.masks.replace t.func.layout (.inst phi) v).block? c = some m at hc
    rw [block?_replace] at hc
    obtain ⟨m', hm', rfl⟩ : ∃ m', t.masks.block? c = some m' ∧
        m = (Substitution.single (.inst phi) v).value m' := by
      split at hc
      · obtain ⟨m', hm', rfl⟩ := Option.map_eq_some_iff.mp hc
        exact ⟨m', hm', rfl⟩
      · rename_i hne
        exact absurd ((h.runs.code.coherent.layout c).mpr (h.blockMask c m hc).lt) hne
    exact (h.blockMask c m' hm').replaced h.runs.code k hv
  predicate c := by
    show (VectorInfo.remapPredicates _ _ _ _).predicate? c = (t.masks.replace _ _ _).block? c
    rw [predicate?_remapPredicates, block?_replace, ← h.predicate c]
    rfl
  edgeMask p c m hpc hedge := by
    change (t.masks.replace t.func.layout (.inst phi) v).edge? p c = some m at hpc
    rw [edge?_replace] at hpc
    obtain ⟨m', hm', rfl⟩ := Option.map_eq_some_iff.mp hpc
    exact (h.edgeMask p c m' hm' ((Func.edge_substPhi h.runs.code.coherent phi v).mp hedge)).replaced
      h.runs.code k hv
  uniform u hu := by
    rw [VectorInfo.isUniform, shape_replaced] at hu
    split at hu
    · cases hu
    · obtain ⟨h1, h2⟩ := h.uniform u hu
      exact ⟨h1.mono (Nat.le_of_eq (size_insts_replaced t phi v).symm), h2⟩
  cond l b w x y ht c hbc := by
    rw [term_replaced h.runs.code.coherent] at ht
    cases hterm : t.func.term b with
    | brIf w' x' y' =>
      rw [hterm] at ht
      cases ht
      obtain ⟨q, h1, h2⟩ := h.cond l b w' x' y' hterm c hbc
      exact ⟨q, hv.single w' l _ h1, h2⟩
    | _ =>
      rw [hterm] at ht
      cases ht
  branch l b w x y ht := by
    rw [term_replaced h.runs.code.coherent] at ht
    cases hterm : t.func.term b with
    | brIf w' x' y' => exact h.branch l b w' x' y' hterm
    | _ =>
      rw [hterm] at ht
      cases ht
  returns b u hu := by
    obtain ⟨w, hw, hrel⟩ := h.returns b u hu
    refine ⟨w.map (Substitution.single (.inst phi) v).value, ?_, ?_⟩
    · rw [term_replaced h.runs.code.coherent, hw]
      rfl
    · cases hrel with
      | none => exact .none
      | some hk => exact .some fun l x hx => hv.single _ l x (hk l x hx)

end Stage

end Lockstep
