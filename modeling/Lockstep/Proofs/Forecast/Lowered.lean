import Lockstep.Proofs.Forecast.Expand
import Lockstep.Proofs.Forecast.Straight
import Lockstep.Proofs.Linear.Guard
import Lockstep.Proofs.Pipeline.Uniform

/-!
# Linearized code with known values

After a function without cycles has been linearized, everything is known of its code, all its branches
are uniform, and its effects are guarded by the masks of their blocks.
-/

namespace Lockstep

variable {ι : Type} {D : Doings ι}

namespace Stage

variable {P : ι → List BlockId} {K : Knowledge ι} {ways : InstId → Way ι} {markers : Markers}
  {s0 t u : Stage}

/-- When all masks are made, a stage is steady. -/
theorem Expanded.steady (hD : D.Orderly) (h : Expanded D (Cfg.ofFunc D.func).rpo t) :
    ∃ K, Steady D D.trace K t := by
  obtain ⟨ways, K, hk⟩ := h.expanding
  have hfollows : D.func.Follows t.func := fun b => ⟨id, (hk.term b).trans (Func.map_id_term _).symm⟩
  exact ⟨K, hk.foretold.steady hfollows (fun c _ phi hphi => hk.ways c phi hphi) hD.acyclic hD.course
    (fun l => .refl _) (fun b => .rfl) fun b hb =>
      h.block b ((Cfg.mem_rpo hD.coherent.toClosed).mpr hb)⟩

/-- Everything but masks and layout is as it was. -/
structure Remasked (t u : Stage) : Prop where
  params : u.func.params = t.func.params
  size : u.func.insts.size = t.func.insts.size
  op : ∀ i, (u.func.inst i).op = (t.func.inst i).op
  ty : ∀ i, (u.func.inst i).ty = (t.func.inst i).ty

/-- A stage `u` that was linearized, where `t` is as its branches were made straight. -/
structure Lowered (D : Doings ι) (markers : Markers) (P : ι → List BlockId) (K : Knowledge ι)
    (t u : Stage) : Prop extends Remasked t u where
  steady : Steady D P K t
  uniform : ∀ b c x y, t.func.Reachable b → t.func.term b = .brIf c x y → K.Common c
  info : u.info = t.info
  blocks : u.func.blocks = t.func.blocks
  mask : ∀ b, ∀ i ∈ t.func.body b, (u.func.inst i).mask = (guardedIn markers t.info b (t.func.inst i)).mask

theorem triple_maskEffects_remasked : Triple (· = t) (maskEffects markers) fun _ => Remasked t := by
  refine (triple_maskEffects_of (K := Remasked t) ?_).mono ?_ fun _ _ h => h
  · intro v i g hg h
    have hsame : ∀ j, ((v.func.modifyInst i g).inst j).op = (v.func.inst j).op ∧
        ((v.func.modifyInst i g).inst j).ty = (v.func.inst j).ty := by
      intro j
      rw [Func.inst_modifyInst]
      split
      · obtain ⟨mask, hmask⟩ := hg (v.func.inst j)
        rw [hmask]
        exact ⟨rfl, rfl⟩
      · exact ⟨rfl, rfl⟩
    exact ⟨h.params, (Array.size_modify ..).trans h.size, fun j => (hsame j).1.trans (h.op j),
      fun j => (hsame j).2.trans (h.ty j)⟩
  · rintro u rfl
    exact ⟨rfl, rfl, fun _ => rfl, fun _ => rfl⟩

theorem triple_maskEffects_steady (h : Steady D P K t)
    (hu : ∀ b c x y, t.func.Reachable b → t.func.term b = .brIf c x y → K.Common c) :
    Triple (· = t) (maskEffects markers) fun _ => Lowered D markers P K t := by
  rintro s _ u rfl e
  have hcode := h.foretold.runs.code
  have hg := triple_maskEffects_guarded hcode.coherent s _ u rfl e
  have hr := triple_maskEffects_remasked s _ u rfl e
  refine ⟨hr, h, hu, hg.info, hg.blocks, fun b i hi => ?_⟩
  rw [hg.inst b i hi, if_pos]
  exact (hcode.coherent.layout b).mpr (s.func.lt_of_mem_body hi)

/-- Linearizing makes all branches straight and guards the effects. -/
theorem triple_linearize_known {config : Config} (hcalls : config.cascadeCalls = false)
    (hD : D.func.Coherent) (hs0 : ∀ p, s0.info.isUniform (.inst p) = false) (hv : t.Valid)
    (hl : Later s0 t) (h : ∃ P K, Steady D P K t) :
    TripleOk (· = t) (Stage.linearize markers config) fun _ u => ∃ P K t, Lowered D markers P K t u := by
  unfold Stage.linearize
  refine TripleOk.bind TripleOk.get fun s => ?_
  refine TripleOk.bind (R := fun _ u => ∃ P K, Steady D P K u ∧
    ∀ b c x y, u.func.Reachable b → u.func.term b = .brIf c x y → K.Common c) ?_ fun n => ?_
  · rintro u n u' ⟨hs, hu⟩ e
    subst hs hu
    obtain ⟨P, K, hsteady⟩ := triple_linearizeBranches_steady hD _ s n u' h e
    have hstraight := (triple_linearizeBranches hv hl s n u' rfl e).straight
    refine ⟨P, K, hsteady, fun b c x y hb ht => ?_⟩
    refine (hsteady.foretold.uniform c (hstraight.isUniform hb ?_ ht ?_)).2
    · rw [VectorInfo.inRegion, hsteady.foretold.region]
      rfl
    · rintro ⟨p, -, h2, -⟩
      rw [hs0 p] at h2
      cases h2
  refine TripleOk.bind (R := fun _ u => ∃ P K t, Lowered D markers P K t u) (TripleOk.lift ?_)
    fun _ => ?_
  · rintro u a u' ⟨P, K, hu, hcommon⟩ e
    exact ⟨P, K, u, triple_maskEffects_steady hu hcommon u a u' rfl e⟩
  rw [hcalls]
  refine TripleOk.bind (R := fun _ u => ∃ P K t, Lowered D markers P K t u)
    (TripleOk.pure fun u hu => hu) fun k => ?_
  refine TripleOk.bind (TripleOk.lift (triple_modifyFunc
    (Q := fun _ u => ∃ P K t, Lowered D markers P K t u) ?_)) fun _ => TripleOk.pure fun u hu => hu
  rintro u ⟨P, K, t, hu⟩
  exact ⟨P, K, t, { hu with }⟩

end Stage

namespace Vectorizer

variable {v : Vectorizer} {s : Stage} {K : Knowledge ι} {ways : InstId → Way ι}

/-- Without cycles there are no loops to normalize. -/
theorem normalizeLoops_of_acyclic {t : Stage} {check : LoopCheck} (hc : t.func.Closed)
    (hf : t.func.Acyclic) (markers : Markers) :
    Stage.normalizeLoops markers check (.ofFunc t.func) t = (.ok 0, t) := by
  have hloops : (Analyses.ofFunc t.func).loops.innerToOuter = [] := by
    refine List.eq_nil_iff_forall_not_mem.mpr fun id hid => ?_
    have := LoopForest.get_mem hid
    rw [hf.loops_eq_nil hc] at this
    cases this
  have hdiv : Stage.divergentLoops check (.ofFunc t.func) t = .ok [] := by
    unfold Stage.divergentLoops
    rw [hloops]
    rfl
  unfold Stage.normalizeLoops
  refine (bind_run_eq (a := t) rfl).trans ?_
  rw [hdiv]
  rfl

/-- A function without cycles is linearized. -/
theorem triple_linearize_lowered (hD : D.Orderly) (hcalls : v.config.cascadeCalls = false)
    (hs : s.func = D.func) (hu : ∀ p, s.info.isUniform (.inst p) = false)
    (h : Stage.Expanding D ways K { s with masks := {} }) :
    TripleOk (· = s) v.linearize fun _ u => ∃ P K t, Stage.Lowered D v.markers P K t u := by
  let s₀ : Stage := { s with masks := {} }
  have hcoh : s₀.func.Coherent := by
    show s.func.Coherent
    rw [hs]
    exact hD.coherent
  have hvalid : s₀.Valid := ⟨hcoh, fun b m hm => (by cases hm), fun p q m hm => (by cases hm)⟩
  unfold linearize
  refine TripleOk.bind (R := fun _ t => t = s₀) (TripleOk.modify ?_) fun _ => ?_
  · rintro t rfl
    rfl
  refine TripleOk.bind TripleOk.get fun t => ?_
  refine TripleOk.bind (R := fun _ t => t = s₀) ?_ fun n => ?_
  · rintro u n u' ⟨rfl, rfl⟩ e
    rw [normalizeLoops_of_acyclic hcoh.toClosed (by show s.func.Acyclic; rw [hs]; exact hD.acyclic)] at e
    exact (congrArg Prod.snd e).symm
  refine TripleOk.bind TripleOk.get fun t => ?_
  refine TripleOk.bind (R := fun _ u => u.Valid ∧ Stage.Later s₀ u ∧ ∃ P K, Stage.Steady D P K u)
    (TripleOk.lift ?_) fun _ => TripleOk.bind (R := fun _ u => ∃ P K t, Stage.Lowered D v.markers P K t u)
      ?_ fun _ => TripleOk.pure fun u hu => hu
  · rintro u a u' ⟨hs', hu'⟩ e
    subst hs' hu'
    have hprep := (Stage.triple_expandMasks (s := s₀) (.ofFunc s₀.func) 0 s₀ a u'
      ⟨.refl hvalid, Nat.zero_le _⟩ e).1
    have e' : Stage.expandMasks (.ofFunc D.func) s₀ = (a, u') := hs ▸ e
    obtain ⟨K', hK⟩ := (Stage.triple_expandMasks_known hD h s₀ a u' rfl e').steady hD
    exact ⟨hprep.valid, hprep.later, _, K', hK⟩
  · rintro u a u' ⟨hv, hl, hk⟩ e
    have hu : ∀ p, s₀.info.isUniform (.inst p) = false := hu
    exact Stage.triple_linearize_known hcalls hD.coherent hu hv hl hk u a u' rfl e

end Vectorizer

end Lockstep
