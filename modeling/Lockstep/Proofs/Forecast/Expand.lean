import Lockstep.Proofs.Forecast.Narrow
import Lockstep.Proofs.Vector.MaskRequest

/-!
# Making masks of what lanes do

Masks are made block by block in reverse post-order, so that in a graph without cycles the masks of all
edges into a block are there when its mask is made. Every mask tells where lanes go.
-/

namespace Lockstep

variable {ι : Type}

/-- Lanes that run through a graph without cycles. -/
structure Doings.Orderly (D : Doings ι) : Prop where
  coherent : D.func.Coherent
  acyclic : D.func.Acyclic
  course : ∀ l, D.func.Course (D.trace l)
  targets : ∀ b, (D.func.term b).targets.Nodup
  exits : ∀ b, ∀ v ∈ (D.func.term b).uses, v.IsTyped

theorem Doings.Orderly.ne_of_brIf {D : Doings ι} (hD : D.Orderly) {p x y : BlockId} {v : Value}
    (hterm : D.func.term p = .brIf v x y) : x ≠ y := by
  have hn := hD.targets p
  rw [hterm] at hn
  rintro rfl
  exact (List.nodup_cons.mp hn).1 (List.mem_singleton_self x)

/-- A lane that comes by a block other than the entry takes an edge into it. -/
theorem Doings.Orderly.mem_trace_iff {D : Doings ι} (hD : D.Orderly) {b : BlockId}
    (hne : b ≠ D.func.entry) {l : ι} :
    b ∈ D.trace l ↔ ∃ p, D.func.Reachable p ∧ D.func.Edge p b ∧ [p, b] <:+: D.trace l := by
  refine ⟨fun hb => ?_, fun ⟨p, _, _, hp⟩ => (mem_of_pair hp).2⟩
  obtain ⟨p, hp⟩ := exists_pair hb (by
    rw [(hD.course l).start]
    exact fun e => hne (Option.some.inj e).symm)
  exact ⟨p, (hD.course l).reachable (mem_of_pair hp).1, (hD.course l).edge hp, hp⟩

namespace Stage

variable {D : Doings ι} {ways : InstId → Way ι} {K : Knowledge ι} {t t' t'' u : Stage}
  {b p c x y : BlockId} {m cond : Value} {l : ι} {phi : InstId} {left : List BlockId} {of : MaskOf}

/-- A stage in which masks are made of what lanes do. -/
structure Expanding (D : Doings ι) (ways : InstId → Way ι) (K : Knowledge ι) (t : Stage) : Prop where
  foretold : t.Foretold D D.trace D.func ways K
  term : ∀ b, t.func.term b = D.func.term b
  divergent : ∀ b, t.info.isDivergent b = true
  ways : ∀ c, ∀ phi ∈ t.func.phis c, ways phi = D.func.way D.trace c

/-- Masks stay once they are made. -/
def Retains (t t' : Stage) : Prop :=
  ∀ of m, t.masks.get? of = some m → t'.masks.get? of = some m

theorem Retains.refl (t : Stage) : Retains t t := fun _ _ h => h

theorem Retains.trans (h : Retains t t') (k : Retains t' t'') : Retains t t'' :=
  fun of m hm => k of m (h of m hm)

theorem Retains.isSome (h : Retains t t') (hm : (t.masks.get? of).isSome = true) :
    (t'.masks.get? of).isSome = true := by
  obtain ⟨m, hm⟩ := Option.isSome_iff_exists.mp hm
  exact Option.isSome_iff_exists.mpr ⟨m, h of m hm⟩

theorem retains_of_eq (h : t'.masks = t.masks) : Retains t t' := fun _ _ hm => h ▸ hm

theorem get?_recorded (t : Stage) (of : MaskOf) (m : Value) :
    (t.recorded of m).masks.get? of = some m := by
  rw [masks_recorded, Masks.get?_set, if_pos rfl]

/-- Only what has no mask is given one. -/
theorem retains_recorded (hnone : t.masks.get? of = none) (m : Value) :
    Retains t (t.recorded of m) := by
  intro of' n hn
  rw [masks_recorded, Masks.get?_set, if_neg]
  · exact hn
  · rintro rfl
    rw [hnone] at hn
    cases hn

namespace Expanding

theorem setShape {v : Value} {shape : Shape} (h : Expanding D ways K t)
    (hv : shape.isUniform = true → t.func.Defines v ∧ K.Common v) :
    Expanding D ways K { t with info := t.info.setShape v shape } :=
  ⟨h.foretold.setShape hv, h.term, h.divergent, h.ways⟩

theorem recordEdge (h : Expanding D ways K t) (hm : EdgeMask D.trace D.func t.func K p c m) :
    Expanding D ways K (t.recorded (.edge p c) m) :=
  ⟨h.foretold.setEdgeMask fun _ => hm, h.term, h.divergent, h.ways⟩

theorem recordBlock (h : Expanding D ways K t) (hm : D.BlockMask D.func t.func K b m) :
    Expanding D ways K (t.recorded (.block b) m) :=
  ⟨h.foretold.setBlockMask hm, h.term, h.divergent, h.ways⟩

/-- The masks that are there tell which lanes take the edges of the given function. -/
theorem edgeMask (h : Expanding D ways K t) (hpc : D.func.Edge p c)
    (hm : t.masks.get? (.edge p c) = some m) : EdgeMask D.trace D.func t.func K p c m :=
  h.foretold.edgeMask p c m hm (by rwa [Func.Edge, h.term])

/-- More operations leave the phis as they are. -/
theorem later {allowed : Value → Prop} {pos : Nat} {d : Draft ι} (hD : D.Orderly)
    (h : Expanding D ways K t) (hg : d.Good ⟨D, D.func, ways, b, allowed⟩)
    (hl : Draft.Later ⟨D, D.func, ways, b, allowed⟩ ⟨t.func, K, pos⟩ d) :
    Expanding D ways d.known { t with func := d.func } where
  foretold := h.foretold.widen ⟨rfl, rfl, rfl, rfl, rfl⟩ hl.widens hl.extends_ hg.runs
    (UniformKnown.widen (s := { t with func := d.func }) h.foretold.uniform hl.widens hl.extends_)
    hD.coherent
  term b := (hl.widens.term b).trans (h.term b)
  divergent := h.divergent
  ways c phi hphi := h.ways c phi ((hl.mem_phis_iff h.foretold.runs.code hg.runs.code).mp hphi)

end Expanding

/-! ## Masks of edges -/

/-- The mask of an edge from a block without a choice is that of the block. -/
theorem edgeMask_of_blockMask (hD : D.Orderly)
    (hm : D.BlockMask D.func t.func K p m) (hpc : D.func.Edge p c)
    (hone : ∀ v x y, D.func.term p ≠ .brIf v x y) : EdgeMask D.trace D.func t.func K p c m := by
  refine ⟨hm.reachable, hm.isTyped, hm.typeOf, hm.atEnd, fun l => ?_⟩
  obtain ⟨q, h1, h2⟩ := hm.knows l
  refine ⟨q, h1, h2.trans ⟨fun hp => ?_, fun hp => (mem_of_pair hp).1⟩⟩
  obtain ⟨d, hd⟩ := (hD.course l).exists_next hp hpc
  have hpd := (hD.course l).edge hd
  unfold Func.Edge at hpc hpd
  cases hterm : D.func.term p with
  | brIf v x y => exact absurd hterm (hone v x y)
  | br x =>
    rw [hterm] at hpc hpd
    obtain rfl := List.mem_singleton.mp hpc
    obtain rfl := List.mem_singleton.mp hpd
    exact hd
  | _ =>
    rw [hterm] at hpc
    cases hpc

/-- In a lane that comes by a branch, the condition tells which edge it takes. -/
theorem Expanding.exists_cond (hD : D.Orderly) (h : Expanding D ways K t)
    (hterm : D.func.term p = .brIf cond x y) (hc : c ∈ [x, y]) (hp : p ∈ D.trace l) :
    ∃ q, K.Knows l cond (.bool q) ∧ ((q == decide (x = c)) = true ↔ [p, c] <:+: D.trace l) := by
  have hedge : ∀ d, D.func.Edge p d ↔ d ∈ [x, y] := fun d => by
    rw [Func.Edge, hterm]
    rfl
  obtain ⟨d, hd⟩ := (hD.course l).exists_next hp ((hedge c).mpr hc)
  obtain ⟨q, hq, hqx⟩ := h.foretold.cond l p cond x y ((h.term p).trans hterm) d hd
  have hxy := hD.ne_of_brIf hterm
  have hdc : [p, c] <:+: D.trace l ↔ d = c :=
    ⟨fun hc => (hD.course l).next_unique hD.acyclic hd hc, fun e => e ▸ hd⟩
  refine ⟨q, hq, ?_⟩
  rw [hdc, beq_iff_eq, Bool.eq_iff_iff, hqx, decide_eq_true_iff]
  rcases List.mem_pair.mp ((hedge d).mp ((hD.course l).edge hd)) with rfl | rfl
  · exact ⟨fun e => e.mp rfl, fun e => ⟨fun _ => e, fun _ => rfl⟩⟩
  · refine ⟨fun e => ((List.mem_pair.mp hc).resolve_left fun hcx => hxy (e.mpr hcx.symm).symm).symm,
      fun e => ⟨fun hdx => absurd hdx.symm hxy, fun hxc => absurd (hxc.trans e.symm) hxy⟩⟩

/-- A narrowed mask tells which lanes take an edge. -/
theorem Expanding.edgeMask_of_narrows {allowed : Value → Prop} {pos : Nat} {d : Draft ι}
    {r : (Value × Value) × Builder} (hD : D.Orderly) (h : Expanding D ways K t)
    (hm : D.BlockMask D.func t.func K p m) (hterm : D.func.term p = .brIf cond x y)
    (hc : c ∈ [x, y]) (k : Build.Narrows ⟨D, D.func, ways, p, allowed⟩ ⟨t.func, K, pos⟩ cond m
      (decide (x = c)) r d) :
    EdgeMask D.trace D.func d.func d.known p c r.1.2 := by
  refine ⟨hm.reachable, k.usable.isTyped, k.usable.typeOf, k.usable.ready.atEnd, fun l => ?_⟩
  obtain ⟨q0, h1, h2⟩ := hm.knows l
  by_cases hp : p ∈ D.trace l
  · obtain rfl := h2.mpr hp
    obtain ⟨q, h3, h4⟩ := h.exists_cond hD hterm hc hp
    exact ⟨_, (k.knows l).2 q h1 h3, h4⟩
  · obtain rfl := Bool.eq_false_iff.mpr fun e => hp (h2.mp e)
    exact ⟨false, (k.knows l).1 h1, iff_of_false (by simp) fun he => hp (mem_of_pair he).1⟩

/-- What is built for the mask of an edge from a branch. -/
theorem Expanding.exists_narrowed (hD : D.Orderly) (h : Expanding D ways K t)
    (hm : D.BlockMask D.func t.func K p m) (hterm : D.func.term p = .brIf cond x y) (hc : c ∈ [x, y])
    {r : (Value × Value) × Builder} (hr : narrowed cond m (x = c) ⟨t.func, .blockEnd p⟩ = r) :
    ∃ K', Expanding D ways K' { t with func := r.2.func } ∧
      EdgeMask D.trace D.func r.2.func K' p c r.1.2 ∧
      ((t.info.shapeOfInputs [m, cond]).isUniform = true →
        ∀ v ∈ [r.1.1, r.1.2], r.2.func.Defines v ∧ K'.Common v) := by
  have hcode := h.foretold.runs.code
  have htermt : t.func.term p = .brIf cond x y := (h.term p).trans hterm
  have huse : ∀ f : Func, f.term p = .brIf cond x y → cond ∈ (f.term p).uses := fun f e => by
    rw [e]
    exact List.mem_singleton_self cond
  obtain ⟨d, hn⟩ := Build.exists_narrows (σ := ⟨D, D.func, ways, p, fun _ => True⟩)
    (d := ⟨t.func, K, (t.func.body p).length⟩) (B := ⟨t.func, .blockEnd p⟩) ⟨rfl, rfl, .inl rfl⟩
    ⟨h.foretold.runs, Func.isSlot_end hm.lt, fun _ _ => trivial⟩
    ⟨hD.exits p cond (huse _ hterm), hcode.typed.cond p cond x y htermt,
      (hcode.exit p hm.reachable cond (huse _ htermt)).readyAt, trivial⟩
    ⟨hm.isTyped, hm.typeOf, hm.atEnd.readyAt, trivial⟩ (fun _ => trivial) (x = c)
  rw [hr] at hn
  rw [hn.stands.func]
  exact ⟨d.known, h.later hD hn.good hn.later, h.edgeMask_of_narrows hD hm hterm hc hn,
    fun hshape => hn.common (h.foretold.uniform.common_of_shape hshape)⟩

/-- The mask of a block is narrowed to the lanes that take an edge from it. -/
theorem triple_narrow_known (hD : D.Orderly) (h : Expanding D ways K t) (hpc : D.func.Edge p c)
    (hm : D.BlockMask D.func t.func K p m) : Triple (· = t) (narrow p c m) fun v u =>
      ∃ K, Expanding D ways K u ∧ EdgeMask D.trace D.func u.func K p c v := by
  rintro s v u rfl e
  unfold narrow at e
  split at e
  · rename_i cond x y htermt
    have hterm : D.func.term p = .brIf cond x y := (h.term p).symm.trans htermt
    have hc : c ∈ [x, y] := by
      rw [Func.Edge, hterm] at hpc
      exact hpc
    obtain ⟨K', h1, h2, h3⟩ := h.exists_narrowed hD hm hterm hc rfl
    let J (r : Value × Value) (w : Stage) : Prop := Expanding D ways K' w ∧
      EdgeMask D.trace D.func w.func K' p c r.2 ∧
      ((s.info.shapeOfInputs [m, cond]).isUniform = true →
        ∀ v ∈ [r.1, r.2], w.func.Defines v ∧ K'.Common v)
    refine ⟨K', Triple.bind (P := (· = s)) (R := J) (Q := fun v w => Expanding D ways K' w ∧
      EdgeMask D.trace D.func w.func K' p c v) ?_ (fun r => ?_) s v u rfl e⟩
    · rintro w r w' rfl e
      cases e
      exact ⟨h1, h2, h3⟩
    · exact Triple.bind (R := fun _ => J r)
        (triple_forIn_setShape fun v hv _ w hw => ⟨hw.1.setShape fun hs => hw.2.2 hs v hv, hw.2⟩)
        fun _ => Triple.pure fun w hw => ⟨hw.1, hw.2.1⟩
  · rename_i hone
    cases e
    exact ⟨K, h, edgeMask_of_blockMask hD hm hpc fun v x y e => hone v x y ((h.term p).trans e)⟩

/-- The mask of an edge is made, where the mask of its source is known. -/
theorem triple_edgeMaskBy_known {source : BlockId → StateM Stage Value} (hD : D.Orderly)
    (h : Expanding D ways K t) (hpc : D.func.Edge p c) (hm : t.masks.get? (.block p) = some m)
    (hsource : source p t = (m, t)) :
    Triple (· = t) (edgeMaskBy source p c) fun v u =>
      (∃ K, Expanding D ways K u) ∧ Retains t u ∧ u.masks.get? (.edge p c) = some v := by
  rintro s v u rfl e
  cases hedge : s.masks.get? (.edge p c) with
  | some w =>
    rw [edgeMaskBy_of_some hedge] at e
    cases e
    exact ⟨⟨K, h⟩, .refl _, hedge⟩
  | none =>
    obtain ⟨w, t, hnarrow⟩ : ∃ w t, narrow p c m s = (w, t) := ⟨_, _, rfl⟩
    rw [edgeMaskBy_of_none hedge hsource hnarrow] at e
    cases e
    obtain ⟨K', h1, h2⟩ :=
      triple_narrow_known hD h hpc (h.foretold.blockMask p m hm) s v t rfl hnarrow
    have hmasks := (triple_narrow m s v t ⟨rfl, rfl, rfl⟩ hnarrow).masks
    refine ⟨⟨K', h1.recordEdge h2⟩, (retains_of_eq hmasks).trans (retains_recorded ?_ _),
      get?_recorded _ _ _⟩
    rw [hmasks]
    exact hedge

/-! ## Masks of blocks -/

theorem Expanding.plain_iff (h : Expanding D ways K t) : t.Plain b ↔ b = D.func.entry := by
  simp only [Plain, Bool.or_eq_true, decide_eq_true_eq, VectorInfo.inRegion, VectorInfo.entry,
    h.foretold.region, h.divergent b, Option.all_none, Bool.not_true, Bool.false_eq_true, or_false,
    Option.map_none, Option.getD_none]
  rfl

/-- The entry is where all lanes come by. -/
theorem Expanding.blockMask_entry (hD : D.Orderly) (h : Expanding D ways K t) :
    D.BlockMask D.func t.func K D.func.entry (.ofBool true) where
  lt := by
    rw [h.foretold.blocks]
    exact hD.coherent.entry_lt
  reachable := Func.reachable_entry _
  isTyped := .inr ⟨true, rfl⟩
  typeOf := rfl
  atEnd := trivial
  before _ _ _ := trivial
  knows l := ⟨true, rfl, iff_of_true rfl (List.mem_of_head? (hD.course l).start)⟩

/-- The mask of the only edge into a block is a mask of the block. -/
theorem Expanding.blockMask_of_edge (hD : D.Orderly) (h : Expanding D ways K t)
    (hb : D.func.Reachable b) (hne : b ≠ D.func.entry) (hpb : D.func.Edge p b)
    (hone : ∀ q, D.func.Reachable q → D.func.Edge q b → q = p)
    (hm : EdgeMask D.trace D.func t.func K p b m) : D.BlockMask D.func t.func K b m := by
  have hdom : D.func.Dominates p b := by
    intro hpath
    rcases Relation.ReflTransGen.cases_tail hpath with e | ⟨x, hx, hxp, hxb⟩
    · exact absurd e hne
    · exact absurd (hone x (Func.reaches_of_path hx) hxb) hxp
  have habove := hm.atEnd.fromAbove hm.reachable hdom (hD.acyclic.ne_of_edge hm.reachable hpb)
  refine ⟨?_, hb, hm.isTyped, hm.typeOf, habove.atEnd, fun i _ _ => habove.before i, fun l => ?_⟩
  · rw [h.foretold.blocks]
    exact hb.lt hD.coherent.toClosed
  · obtain ⟨q, h1, h2⟩ := hm.knows l
    refine ⟨q, h1, h2.trans ?_⟩
    rw [hD.mem_trace_iff hne]
    refine ⟨fun hp => ⟨p, hm.reachable, hpb, hp⟩, ?_⟩
    rintro ⟨q, hq, hqb, hp⟩
    exact hone q hq hqb ▸ hp

/-- What is known of the mask of a block. -/
def Tells (D : Doings ι) (b : BlockId) (l : ι) (x : Scalar) : Prop :=
  ∃ q, x = .bool q ∧ (q = true ↔ b ∈ D.trace l)

theorem Tells.exists_eq {l : ι} {x : Scalar} (h : Tells D b l x) : ∃ q, x = .bool q :=
  h.imp fun _ => And.left

theorem Tells.unique {l : ι} {x y : Scalar} (hx : Tells D b l x) (hy : Tells D b l y) : x = y := by
  obtain ⟨p, rfl, hp⟩ := hx
  obtain ⟨q, rfl, hq⟩ := hy
  rw [Bool.eq_iff_iff.mpr (hp.trans hq.symm)]

/-- A stage in which a phi of the edge masks into a block is made: the edges from `left` are to come. -/
structure Opening (D : Doings ι) (b : BlockId) (phi : InstId) (t : Stage) (left : List BlockId)
    (ways : InstId → Way ι) (K : Knowledge ι) (u : Stage) : Prop where
  foretold : u.Foretold D D.trace D.func ways K
  term : ∀ b, u.func.term b = D.func.term b
  divergent : ∀ b, u.info.isDivergent b = true
  mem : phi ∈ u.func.phis b
  other : ∀ c, ∀ psi ∈ u.func.phis c, psi ≠ phi → ways psi = D.func.way D.trace c
  self : ways phi = { D.func.way D.trace b with pred := fun p => D.func.Edge p b ∧ p ∉ left }
  todo : ∀ p ∈ left, D.func.Reachable p ∧ D.func.Edge p b ∧ (u.masks.get? (.edge p b)).isSome = true
  nodup : left.Nodup
  ty : (u.func.inst phi).ty = .bool
  known : ∀ l x, K.inst l phi x ↔ Tells D b l x
  block : u.masks.get? (.block b) = some (.inst phi)
  retains : Retains t u

/-- One more entry. -/
theorem Opening.setIncoming (h : Opening D b phi t (p :: left) ways K u)
    (hm : u.masks.get? (.edge p b) = some m) :
    ∃ ways, Opening D b phi t left ways K { u with func := u.func.setIncoming phi p m } := by
  obtain ⟨hpr, hpb, -⟩ := h.todo p List.mem_cons_self
  obtain ⟨hpleft, hleft⟩ := List.nodup_cons.mp h.nodup
  have hmask := h.foretold.edgeMask p b m hm (by rwa [Func.Edge, h.term])
  have henter := h.foretold.runs.phis b (hpr.step hpb) phi h.mem
  rw [h.self] at henter
  have hnew : p ∉ (u.func.inst phi).incoming.map Prod.fst := by
    intro hmem
    obtain ⟨e, he, rfl⟩ := List.mem_map.mp hmem
    exact (henter.pred e he).2 List.mem_cons_self
  have hpred : ∀ q, D.func.Edge q b ∧ q ∉ left ↔ (D.func.Edge q b ∧ q ∉ p :: left) ∨ q = p := by
    intro q
    by_cases hq : q = p
    · exact iff_of_true (hq ▸ ⟨hpb, hpleft⟩) (.inr hq)
    · simp [hq]
  have hval : ∀ l x, Tells D b l x → (b ∈ D.trace l → [p, b] <:+: D.trace l) → K.Knows l m x := by
    rintro l x ⟨q, rfl, hq⟩ hl
    obtain ⟨q', h1, h2⟩ := hmask.knows l
    rwa [Bool.eq_iff_iff.mpr (hq.trans ⟨fun hb => h2.mpr (hl hb), fun e => (mem_of_pair (h2.mp e)).2⟩)]
  have hruns : D.Runs D.func (Function.update ways phi
      { D.func.way D.trace b with pred := fun q => D.func.Edge q b ∧ q ∉ left }) K
      (u.func.setIncoming phi p m) := by
    refine h.foretold.runs.modifyIncoming (Func.isPhi_of_mem_phis h.mem) (fun e he => ?_)
      (fun i hi => Function.update_of_ne hi _ _) fun c _ _ => ?_
    · rcases Func.mem_setEntry he with he | rfl
      · exact .inl he
      · exact .inr ⟨hmask.isTyped, hmask.typeOf.trans h.ty.symm, hmask.atEnd⟩
    · rw [Function.update_self]
      exact henter.setEntry hnew hpred (fun l ht x hx => hval l x ((h.known l x).mp hx) fun _ => ht)
        fun l hl x hx => hval l x ((h.known l x).mp hx) fun hb => absurd hb hl
  have hrefits := Func.refits_modifyIncoming u.func phi fun incoming => Func.setEntry incoming p m
  refine ⟨_, h.foretold.modifyIncoming hruns, h.term, h.divergent, (hrefits.phis b).symm ▸ h.mem,
    fun c psi hpsi hne => ?_, Function.update_self _ _ _,
    fun q hq => h.todo q (List.mem_cons_of_mem _ hq), hleft, (hrefits.ty phi).trans h.ty, h.known,
    h.block, h.retains.trans (retains_of_eq rfl)⟩
  rw [Function.update_of_ne hne]
  exact h.other c psi (hrefits.phis c ▸ hpsi) hne

/-- All entries, in the order of the predecessors. -/
theorem Opening.filled {source : BlockId → StateM Stage Value} (h : Opening D b phi t left ways K u) :
    ∃ ways, Opening D b phi t [] ways K (filled source phi b left u) := by
  induction left generalizing ways u with
  | nil => exact ⟨ways, h⟩
  | cons p left ih =>
    obtain ⟨m, hm⟩ := Option.isSome_iff_exists.mp (h.todo p List.mem_cons_self).2.2
    obtain ⟨ways', h'⟩ := h.setIncoming hm
    rw [filled, List.foldl_cons, edgeMaskBy_of_some hm]
    exact ih h'

/-- A new phi that is set where lanes come by is a mask of its block. -/
theorem blockMask_appendPhi {f : Func} (hb : D.func.Reachable b) (hlt : b < f.blocks.size) :
    D.BlockMask D.func (f.appendPhi b .bool []).2 (K.learn f.insts.size (Tells D b)) b
      (.inst f.insts.size) := by
  have hself : (f.appendPhi b .bool []).2.inst f.insts.size =
      { op := .phi [], ty := .bool, block := b } := by
    rw [Func.appendPhi, Func.inst_insertAt, if_pos rfl]
  have hbody : (f.appendPhi b .bool []).2.body b = f.phis b ++ f.insts.size :: f.nonPhis b :=
    Func.body_appendPhi hlt _ _
  refine ⟨?_, hb, trivial, congrArg Instr.ty hself, ⟨b, by rw [hbody]; simp, .refl _ _⟩,
    fun i hi he => ?_, fun l => ?_⟩
  · have hblocks : (f.appendPhi b .bool []).2.blocks.size = f.blocks.size :=
      (f.widens_insertAt _ _ _).blocks
    exact hblocks ▸ hlt
  · have hphi := Func.isPhi_of_isEffect he
    rw [hbody] at hi
    refine .inl ?_
    rw [hbody]
    rcases List.mem_append.mp hi with hi | hi
    · rw [Func.isPhi_appendPhi, Func.isPhi_of_mem_phis hi, Bool.or_true] at hphi
      cases hphi
    rcases List.mem_cons.mp hi with rfl | hi
    · rw [Func.isPhi, hself] at hphi
      cases hphi
    · exact ((List.singleton_sublist.mpr hi).cons_cons _).trans (List.sublist_append_right _ _)
  · refine ⟨decide (b ∈ D.trace l), (K.inst_learn_self _ _ _ _).mpr ⟨_, rfl, ?_⟩, ?_⟩ <;>
      exact decide_eq_true_iff

/-- A new phi for the mask of a block, which will be set where lanes come by. -/
theorem Expanding.opening (hD : D.Orderly) (h : Expanding D ways K t) (hb : D.func.Reachable b)
    (hne : b ≠ D.func.entry) (hnone : t.masks.get? (.block b) = none) {preds : List BlockId}
    (hn : preds.Nodup) (hpreds : ∀ p, p ∈ preds ↔ D.func.Reachable p ∧ D.func.Edge p b)
    (hmasks : ∀ p ∈ preds, (t.masks.get? (.edge p b)).isSome = true) :
    ∃ ways K, Opening D b t.func.insts.size t preds ways K
      ((t.withMaskPhi b).recorded (.block b) (.inst t.func.insts.size)) := by
  have hlt : b < t.func.blocks.size := by
    rw [h.foretold.blocks]
    exact hb.lt hD.coherent.toClosed
  have hwide : t.func.Widens (t.func.appendPhi b .bool []).2 := t.func.widens_insertAt _ _ _
  have hphis := (h.foretold.runs.code.appendPhi hlt (show Ty.bool.IsPlain by decide)).2
  have hknown := fun l x => K.inst_learn_self t.func.insts.size (Tells D b) l x
  have hruns := h.foretold.runs.appendPhi hlt hne (show Ty.bool.IsPlain by decide)
    (Q := Tells D b) (fun l x hx => .inr hx.exists_eq) (fun l x y => Tells.unique)
    (w := { D.func.way D.trace b with pred := fun p => D.func.Edge p b ∧ p ∉ preds })
    fun p hp hw => hw.2 ((hpreds p).mpr ⟨hp, hw.1⟩)
  have huniform := UniformKnown.widen (s := { t with func := (t.func.appendPhi b .bool []).2 })
    h.foretold.uniform hwide (K.extends_learn t.func.insts.size (Tells D b))
  have hmade : Made t { t with func := (t.func.appendPhi b .bool []).2 } := ⟨rfl, rfl, rfl, rfl, rfl⟩
  have hfore := h.foretold.widen hmade hwide (K.extends_learn _ _) hruns huniform hD.coherent
  have hvary : Foretold D D.trace D.func _ _ (t.withMaskPhi b) :=
    hfore.setShape fun h => absurd h Bool.false_ne_true
  refine ⟨_, _, hvary.setBlockMask (blockMask_appendPhi hb hlt),
    fun c => (hwide.term c).trans (h.term c), h.divergent, ?_, fun c psi hpsi hne => ?_,
    Function.update_self _ _ _, fun p hp => ?_, hn, ?_, hknown, get?_recorded _ _ _,
    (retains_of_eq (show (t.withMaskPhi b).masks = t.masks from rfl)).trans (retains_recorded hnone _)⟩
  · show _ ∈ (t.func.appendPhi b .bool []).2.phis b
    rw [hphis, if_pos rfl]
    simp
  · have hpsi : psi ∈ (t.func.appendPhi b .bool []).2.phis c := hpsi
    rw [hphis] at hpsi
    rw [Function.update_of_ne hne]
    rcases List.mem_append.mp hpsi with hpsi | hpsi
    · exact h.ways c psi hpsi
    · split at hpsi
      · exact absurd (List.mem_singleton.mp hpsi) hne
      · cases hpsi
  · obtain ⟨h4, h5⟩ := (hpreds p).mp hp
    exact ⟨h4, h5, hmasks p hp⟩
  · show ((t.func.appendPhi b .bool []).2.inst t.func.insts.size).ty = .bool
    rw [Func.appendPhi, Func.inst_insertAt, if_pos rfl]

/-- When all entries are there, the phi is as any other. -/
theorem Opening.expanding (h : Opening D b phi t [] ways K u) : Expanding D ways K u where
  foretold := h.foretold
  term := h.term
  divergent := h.divergent
  ways c psi hpsi := by
    by_cases hne : psi = phi
    · subst hne
      have hc : c = b := (h.foretold.runs.code.coherent.eq_of_mem_body (Func.mem_body_of_mem_phis hpsi)
        (Func.mem_body_of_mem_phis h.mem))
      rw [h.self, hc]
      simp only [List.not_mem_nil, not_false_eq_true, and_true]
      rfl
    · exact h.other c psi hpsi hne

/-- The mask of a block is made, where the masks of the edges into it are known. -/
theorem triple_blockMask_known (hD : D.Orderly) (h : Expanding D ways K t) (hb : D.func.Reachable b)
    (hpreds : ∀ p, D.func.Reachable p → D.func.Edge p b →
      (t.masks.get? (.edge p b)).isSome = true) :
    Triple (· = t) (blockMask (.ofFunc D.func) b) fun v u =>
      (∃ ways K, Expanding D ways K u) ∧ Retains t u ∧ u.masks.get? (.block b) = some v := by
  rintro s v u rfl e
  have hmem : ∀ p, p ∈ (Cfg.ofFunc D.func).preds b ↔ D.func.Reachable p ∧ D.func.Edge p b := fun p =>
    Cfg.mem_preds hD.coherent.toClosed
  obtain ⟨fuel, hfuel⟩ := Nat.exists_eq_add_one_of_ne_zero (maskDepth_ne_zero (.ofFunc D.func))
  rw [blockMask, hfuel] at e
  cases hnone : s.masks.get? (.block b) with
  | some m =>
    rw [blockMaskWithin_of_some hnone] at e
    cases e
    exact ⟨⟨ways, K, h⟩, .refl _, hnone⟩
  | none =>
    rw [blockMaskWithin_of_none hnone] at e
    split at e
    · rename_i hplain
      cases e
      have hm := h.blockMask_entry hD
      rw [← h.plain_iff.mp hplain] at hm
      exact ⟨⟨ways, K, h.recordBlock hm⟩, retains_recorded hnone _, get?_recorded _ _ _⟩
    rename_i hplain
    have hne : b ≠ D.func.entry := fun e => hplain (h.plain_iff.mpr e)
    split at e
    · rename_i hnil
      obtain ⟨p, hp⟩ := Func.exists_pred hb hne
      have := (hmem p).mpr hp
      rw [hnil] at this
      cases this
    · rename_i p hone
      obtain ⟨hp, hpb⟩ := (hmem p).mp (by rw [hone]; exact List.mem_singleton_self p)
      obtain ⟨m, hm⟩ := Option.isSome_iff_exists.mp (hpreds p hp hpb)
      rw [edgeMaskBy_of_some hm] at e
      cases e
      refine ⟨⟨ways, K, h.recordBlock (h.blockMask_of_edge hD hb hne hpb (fun q hq hqb => ?_)
        (h.edgeMask hpb hm))⟩, retains_recorded hnone _, get?_recorded _ _ _⟩
      have := (hmem q).mpr ⟨hq, hqb⟩
      rw [hone] at this
      exact List.mem_singleton.mp this
    · cases e
      obtain ⟨ways1, K1, h1⟩ := h.opening hD hb hne hnone (Cfg.nodup_preds hD.coherent.toClosed b) hmem
        fun p hp => hpreds p ((hmem p).mp hp).1 ((hmem p).mp hp).2
      obtain ⟨ways2, h2⟩ := h1.filled
      exact ⟨⟨ways2, K1, h2.expanding⟩, h2.retains, h2.block⟩

/-! ## All masks -/

/-- A stage in which the masks of some blocks and of the edges out of them are made. -/
structure Expanded (D : Doings ι) (done : List BlockId) (t : Stage) : Prop where
  expanding : ∃ ways K, Expanding D ways K t
  block : ∀ b ∈ done, (t.masks.get? (.block b)).isSome = true
  edge : ∀ b ∈ done, ∀ c, D.func.Edge b c → (t.masks.get? (.edge b c)).isSome = true

variable {done rest : List BlockId}

theorem Expanded.retains (h : Expanded D done t) (he : ∃ ways K, Expanding D ways K t')
    (k : Retains t t') : Expanded D done t' where
  expanding := he
  block b hb := k.isSome (h.block b hb)
  edge b hb c hc := k.isSome (h.edge b hb c hc)

/-- The masks of the edges out of a block are made. -/
theorem triple_edgeMasks_known (done : List BlockId) (hD : D.Orderly) {succs : List BlockId}
    (hs : ∀ c ∈ succs, D.func.Edge b c) :
    Triple (fun u => Expanded D done u ∧ (u.masks.get? (.block b)).isSome = true)
      (succs.forM fun c => do
        let _ ← edgeMask (.ofFunc D.func) b c)
      fun _ u => Expanded D done u ∧ (u.masks.get? (.block b)).isSome = true ∧
        ∀ c ∈ succs, (u.masks.get? (.edge b c)).isSome = true := by
  refine (Triple.forM (J := fun rest u => Expanded D done u ∧ (u.masks.get? (.block b)).isSome = true ∧
    ∀ c ∈ succs, c ∈ rest ∨ (u.masks.get? (.edge b c)).isSome = true) succs ?_).mono
      (fun u hu => ⟨hu.1, hu.2, fun c hc => .inl hc⟩)
      fun _ u hu => ⟨hu.1, hu.2.1, fun c hc => (hu.2.2 c hc).resolve_left List.not_mem_nil⟩
  intro c rest hc
  refine Triple.bind (R := fun _ u => Expanded D done u ∧ (u.masks.get? (.block b)).isSome = true ∧
    ∀ c ∈ succs, c ∈ rest ∨ (u.masks.get? (.edge b c)).isSome = true) ?_ fun _ =>
      Triple.pure fun u hu => hu
  rintro u v u' ⟨hu, hblock, hedges⟩ e
  obtain ⟨ways, K, hk⟩ := hu.expanding
  obtain ⟨m, hm⟩ := Option.isSome_iff_exists.mp hblock
  obtain ⟨⟨K', h1⟩, h2, h3⟩ :=
    triple_edgeMaskBy_known hD hk (hs c hc) hm (request_of_some hm) u v u' rfl e
  refine ⟨hu.retains ⟨ways, K', h1⟩ h2, h2.isSome hblock, fun d hd => ?_⟩
  rcases hedges d hd with hd | hd
  · rcases List.mem_cons.mp hd with rfl | hd
    · exact .inr (Option.isSome_iff_exists.mpr ⟨v, h3⟩)
    · exact .inl hd
  · exact .inr (h2.isSome hd)

/-- With the blocks before it in reverse post-order done, a block and its edges are next. -/
theorem triple_masksOf_known (hD : D.Orderly) (e : D.func.reversePostOrder = done ++ b :: rest) :
    Triple (Expanded D done) (do
        let _ ← blockMask (.ofFunc D.func) b
        ((Cfg.ofFunc D.func).succs b).forM fun c => do
          let _ ← edgeMask (.ofFunc D.func) b c) fun _ => Expanded D (done ++ [b]) := by
  have hc := hD.coherent.toClosed
  have hb : D.func.Reachable b := (Func.mem_reversePostOrder hc).mp (by rw [e]; simp)
  refine Triple.bind (R := fun _ u => Expanded D done u ∧ (u.masks.get? (.block b)).isSome = true)
    ?_ fun _ => (triple_edgeMasks_known done hD fun c hc' => ((Cfg.mem_succs hc).mp hc').2).mono
      (fun u hu => hu) ?_
  · rintro u v u' hu hrun
    obtain ⟨ways, K, hk⟩ := hu.expanding
    obtain ⟨h1, h2, h3⟩ := triple_blockMask_known hD hk hb
      (fun p hp hpb => hu.edge p (hD.acyclic.mem_of_rpo_of_edge hc e hp hpb) b hpb) u v u' rfl hrun
    exact ⟨hu.retains h1 h2, Option.isSome_iff_exists.mpr ⟨v, h3⟩⟩
  · rintro _ u ⟨hu, hblock, hedges⟩
    refine ⟨hu.expanding, fun c hc' => ?_, fun c hc' d hd => ?_⟩ <;>
      rcases List.mem_append.mp hc' with hc' | hc'
    · exact hu.block c hc'
    · exact List.mem_singleton.mp hc' ▸ hblock
    · exact hu.edge c hc' d hd
    · obtain rfl := List.mem_singleton.mp hc'
      exact hedges d ((Cfg.mem_succs hc).mpr ⟨hb, hd⟩)

/-- All masks are made. -/
theorem triple_expandMasks_known (hD : D.Orderly) (h : Expanding D ways K t) :
    Triple (· = t) (expandMasks (.ofFunc D.func)) fun _ => Expanded D (Cfg.ofFunc D.func).rpo := by
  unfold expandMasks
  refine (Triple.forM (J := fun rest u => ∃ done, D.func.reversePostOrder = done ++ rest ∧
    Expanded D done u) (Cfg.ofFunc D.func).rpo fun b rest _ => ?_).mono ?_ ?_
  · refine Triple.bind Triple.get fun s => ?_
    split
    · rintro u v u' ⟨-, done, e, hu⟩ hrun
      exact ⟨done ++ [b], by rw [e, List.append_assoc]; rfl, triple_masksOf_known hD e u v u' hu hrun⟩
    · rename_i hregion
      refine Triple.pure ?_
      rintro u ⟨rfl, done, -, hu⟩
      obtain ⟨ways, K, hk⟩ := hu.expanding
      rw [VectorInfo.inRegion, hk.foretold.region] at hregion
      exact absurd rfl hregion
  · rintro u rfl
    exact ⟨[], rfl, ⟨ways, K, h⟩, fun _ hb => absurd hb List.not_mem_nil,
      fun _ hb => absurd hb List.not_mem_nil⟩
  · rintro _ u ⟨done, e, hu⟩
    rw [List.append_nil] at e
    subst e
    exact hu

end Stage

end Lockstep
