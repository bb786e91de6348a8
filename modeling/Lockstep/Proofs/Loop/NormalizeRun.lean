import Lockstep.Proofs.Func.Check
import Lockstep.Proofs.Loop.TellMask
import Lockstep.Proofs.Vector.Marker

/-!
# Running normalized loops

Normalizing loops lays masks, trackers and exit tests over a function. Each loop in turn gets the
entries of its mask phis, a tracker for each of its values that is used after it, and an exit test
that has the answer of the old one (`exists_traced_normalizeLoop`). The function that results does
in a single lane what it did before (`exists_run_normalizeLoops`).
-/

namespace Lockstep

namespace Stage

variable {f t : Func} {anyFn : FuncId} {leaves : BlockId → BlockId → Prop} {γ γ' : Overlay}
  {l : Loop} {shape : SingleExitLoop} {masks : LoopMasks} {b : BlockId} {ops : List InstId}
  {fresh : List InstId} {v : Value}

/-! ## The masks of a loop -/

/-- The mask phis of a loop. -/
structure HasMasks (γ : Overlay) (l : Loop) (m : LoopMasks) : Prop where
  live : (l.header, m.live) ∈ γ.maskPhis
  entered : (l.header, m.entered) ∈ γ.maskPhis
  ne : m.live ≠ m.entered

theorem HasMasks.mono (h : HasMasks γ l masks) (hle : γ.Le γ') : HasMasks γ' l masks :=
  ⟨hle.maskPhis _ h.live, hle.maskPhis _ h.entered, h.ne⟩

/-- What the masks tell that a loop asks for: of the lanes that enter it, of those that stay in it, and
of those that come to its exiting block. -/
structure ToldMasks (f : Func) (anyFn : FuncId) (leaves : BlockId → BlockId → Prop) (γ : Overlay)
    (l : Loop) (shape : SingleExitLoop) (entering stay mask : Value) : Prop where
  entering : TellsEdge f anyFn leaves γ shape.preheader l.header entering
  stay : TellsEdge f anyFn leaves γ shape.exiting shape.continueTarget stay
  mask : Tells f anyFn γ shape.exiting [] mask fun _ => true

/-- What an exit test tells: `exitNow` is true in the lanes that leave, and `any` has the answer of the
old test. -/
structure ToldTest (f : Func) (anyFn : FuncId) (γ : Overlay) (shape : SingleExitLoop)
    (exitNow : Value) (any : InstId) : Prop where
  now : ∃ φ, Tells f anyFn γ shape.exiting (γ.ops shape.exiting) exitNow φ ∧ φ shape.exit = true
  any : Tells f anyFn γ shape.exiting (γ.ops shape.exiting) (.inst any)
    fun n => n == shape.continueTarget

theorem ToldTest.grows {exitNow : Value} {any : InstId} (h : ToldTest f anyFn γ shape exitNow any)
    (hg : γ.Grows γ') : ToldTest f anyFn γ' shape exitNow any := by
  have hp := hg.ops_prefix shape.exiting
  obtain ⟨φ, hnow, hφ⟩ := h.now
  exact ⟨⟨φ, (hnow.mono hg.toLe).mono_ops hp, hφ⟩, (h.any.mono hg.toLe).mono_ops hp⟩

/-- A stage with an exit test, for an overlay that refines `γ`. -/
def HasTest (f : Func) (anyFn : FuncId) (leaves : BlockId → BlockId → Prop) (fresh : List InstId)
    (γ : Overlay) (shape : SingleExitLoop) (exitNow : Value) (any : InstId) (s : Stage) : Prop :=
  ∃ γ', γ.Le γ' ∧ Traced f anyFn leaves fresh γ' s ∧ ToldTest f anyFn γ' shape exitNow any

theorem HasTest.setInfo {s : Stage} {exitNow : Value} {any : InstId}
    (h : HasTest f anyFn leaves fresh γ shape exitNow any s) (info : VectorInfo) :
    HasTest f anyFn leaves fresh γ shape exitNow any { s with info } := by
  obtain ⟨γ', hle, h, ht⟩ := h
  exact ⟨γ', hle, h.setInfo _, ht⟩

section

variable (hf : f.WellFormed) (hl : l ∈ (Analyses.ofFunc f).loops.loops)
  (hs : l.IsSingleExit f (.ofFunc f) shape)

include hf hl hs

/-- A mask of the header is true in the whole loop. -/
theorem tells_of_header (hA : Annotates f anyFn γ t) {i : InstId}
    (hi : (l.header, i) ∈ γ.maskPhis) (hb : b ∈ l.blocks) :
    Tells f anyFn γ b ops (.inst i) fun _ => true := by
  by_cases hne : b = l.header
  · exact .phi (hne ▸ hi)
  obtain ⟨-, hlt, -, hblock, -⟩ := hA.phis _ _ (hA.maskPhis _ hi)
  refine .region (fun x => x ∈ l.blocks ∧ x ≠ l.header) (fun _ _ => true) ⟨hb, hne⟩
    (fun h => hs.entry_not_mem hf.toClosed hl hf.entry_pred h.1) ?_ ?_ fun _ _ _ _ _ _ => rfl
  · rintro j ⟨⟩
    exact ⟨hlt, fun h => h.2 hblock⟩
  · rintro p c hr hp hc ⟨hcl, hcne⟩
    have hpl := hs.mem_of_target hf.toClosed hl hr hcl hcne hc
    obtain rfl : p = l.header := by
      by_contra hph
      exact hp ⟨hpl, hph⟩
    exact .phi hi

/-- The mask of the edge on which the loop goes on is true at the latch. -/
theorem tells_stay_latch (hnd : ∀ b, (f.term b).targets.Nodup) (hA : Annotates f anyFn γ t)
    (h : TellsEdge f anyFn leaves γ shape.exiting shape.continueTarget v) :
    ∃ φ, Tells f anyFn γ shape.latch (γ.ops shape.latch) v φ ∧ φ l.header = true := by
  have hc := hf.toClosed
  obtain ⟨hx, hxr, -, hout⟩ := hs.exiting_mem hc hl
  obtain ⟨hlatch, hlr, hback⟩ := hs.latch_mem hc hl
  obtain ⟨htargets, -, hcont⟩ := hs.continueTarget_mem hc hl (hnd _)
  have hdom := fun i hi => h.dominates (i := i) hA hf hxr hi
  obtain ⟨φ, htells, hφ, -⟩ := h
  -- in the loop, control leaves the exiting block for the continue target
  have heq : ∀ {c}, c ∈ (f.term shape.exiting).targets → c ∈ l.blocks → c = shape.continueTarget := by
    intro c hc hcl
    exact (htargets c hc).resolve_right fun e => hout (e ▸ hcl)
  by_cases hne : shape.latch = shape.exiting
  · rw [hne] at hback ⊢
    exact ⟨φ, htells, heq hback (LoopForest.header_mem hl) ▸ hφ⟩
  refine ⟨fun _ => true, ?_, rfl⟩
  refine .region (fun x => x ∈ l.blocks ∧ x ≠ shape.exiting ∧ f.Dominates shape.exiting x)
    (fun p n => if p = shape.exiting then φ n else true)
    ⟨hlatch, hne, Cfg.dominates_of_dominators hc hs.dominates⟩
    (fun h => hs.entry_not_mem hc hl hf.entry_pred h.1) (fun i hi => ?_) ?_ ?_
  · obtain ⟨hlt, hd⟩ := hdom i hi
    exact ⟨hlt, fun h => h.2.1 (Func.Dominates.antisymm hxr hd h.2.2)⟩
  all_goals
    rintro p c hr hp hpc ⟨hcl, hcne, hcd⟩
    have hch : c ≠ l.header := by
      rintro rfl
      exact hcne (Func.Dominates.antisymm hxr
        (LoopForest.dominates_header hc hl hs.reducible hx) hcd)
    have hpl := hs.mem_of_target hc hl hr hcl hch hpc
    obtain rfl : p = shape.exiting := by
      by_contra hpx
      exact hp ⟨hpl, hpx, hcd.pred hcne hpc⟩
    simp only [if_true]
  · exact htells
  · rw [heq hpc hcl, hφ]

/-- The mask phis of a loop are there, and the masks that are recorded for it tell what they
should. -/
theorem triple_traced_addLoopMasks (hleaves : leaves shape.exiting shape.exit) :
    Triple (Traced f anyFn leaves fresh γ) (addLoopMasks l shape) fun m s =>
      ∃ γ', γ.Grows γ' ∧ Traced f anyFn leaves (m.entered :: m.live :: fresh) γ' s ∧
        HasMasks γ' l m := by
  have hc := hf.toClosed
  have hlt : shape.header < f.blocks.size :=
    hf.target_lt _ _ (hs.header ▸ (hs.latch_mem hc hl).2.2)
  have hne : shape.header ≠ f.entry := fun e =>
    hs.entry_not_mem hc hl hf.entry_pred (e ▸ hs.header ▸ LoopForest.header_mem hl)
  let Phi (live : InstId) (s : Stage) : Prop := ∃ γ', γ.Grows γ' ∧
    Traced f anyFn leaves (live :: fresh) γ' s ∧ (l.header, live) ∈ γ'.maskPhis
  let Phis (live entered : InstId) (s : Stage) : Prop := ∃ γ', γ.Grows γ' ∧
    Traced f anyFn leaves (entered :: live :: fresh) γ' s ∧ HasMasks γ' l { live, entered }
  unfold addLoopMasks
  refine Triple.bind (R := Phi) (triple_appendPhi ?_) fun live => ?_
  · intro s h
    refine ⟨_, γ.grows_addPhi _ _ true, h.appendPhi hf hlt hne .bool [] true, ?_⟩
    rw [← hs.header, h.annotates.size]
    exact List.mem_cons_self
  refine Triple.bind (R := Phis live) (triple_appendPhi ?_) fun entered => ?_
  · rintro s ⟨γ', hg, h, hlive⟩
    have hg' := γ'.grows_addPhi { op := .phi [], ty := .bool, block := shape.header } shape.header true
    refine ⟨_, hg.trans hg', h.appendPhi hf hlt hne .bool [] true, hg'.maskPhis _ hlive, ?_, ?_⟩
    · rw [← hs.header, h.annotates.size]
      exact List.mem_cons_self
    · rw [h.annotates.size]
      exact Nat.ne_of_lt (h.annotates.phis _ _ (h.annotates.maskPhis _ hlive)).2.1
  have hinfo : ∀ info : Stage → VectorInfo, ∀ s, Phis live entered s →
      Phis live entered { s with info := info s } := by
    rintro info s ⟨γ', hg, h, hm⟩
    exact ⟨γ', hg, h.setInfo _, hm⟩
  refine Triple.bind (R := fun _ => Phis live entered) (triple_setShape (hinfo _)) fun _ => ?_
  refine Triple.bind (R := fun _ => Phis live entered) (triple_setShape (hinfo _)) fun _ => ?_
  refine Triple.bind (R := fun _ => Phis live entered) (triple_setBlockMask ?_) fun _ => ?_
  · rintro s ⟨γ', hg, h, hm⟩
    exact ⟨γ', hg, h.setBlockMask (hs.header ▸ .phi hm.live), hm⟩
  refine Triple.bind (R := fun _ => Phis live entered) (triple_setEdgeMask ?_) fun _ => ?_
  · rintro s ⟨γ', hg, h, hm⟩
    have htells : Tells f anyFn γ' shape.exiting (γ'.ops shape.exiting) (.inst entered) fun _ => true :=
      tells_of_header hf hl hs h.annotates hm.entered (hs.exiting_mem hc hl).1
    exact ⟨γ', hg, h.setEdgeMask ⟨_, htells, rfl, fun hn => absurd hleaves hn⟩, hm⟩
  refine Triple.bind (R := fun _ => Phis live entered) ?_ fun _ => Triple.pure fun s h => h
  refine Triple.forIn (J := fun _ => Phis live entered) _ ?_
  rintro b tail -
  exact Triple.bind (R := fun _ => Phis live entered) (triple_modifyInfo (hinfo _)) fun _ =>
    Triple.pure fun s h => ⟨rfl, h⟩

/-- The entries of the mask phis of a loop are true on the edges into it. -/
theorem complete_masks (hnd : ∀ b, (f.term b).targets.Nodup) (hA : Annotates f anyFn γ t)
    (hm : HasMasks γ l masks) {entering stay : Value}
    (hentering : TellsEdge f anyFn leaves γ shape.preheader l.header entering)
    (hstay : TellsEdge f anyFn leaves γ shape.exiting shape.continueTarget stay)
    (hlive : (γ.code masks.live).incoming.lookup shape.preheader = some entering ∧
      (γ.code masks.live).incoming.lookup shape.latch = some stay)
    (hentered : (γ.code masks.entered).incoming.lookup shape.preheader = some entering ∧
      (γ.code masks.entered).incoming.lookup shape.latch = some (.inst masks.entered)) :
    γ.Complete f anyFn l.header masks.live ∧ γ.Complete f anyFn l.header masks.entered := by
  have hc := hf.toClosed
  have hpre : ∃ φ, Tells f anyFn γ shape.preheader (γ.ops shape.preheader) entering φ ∧
      φ l.header = true := by
    obtain ⟨φ, htells, hφ, -⟩ := hentering
    exact ⟨φ, htells, hφ⟩
  refine ⟨fun p hr hp => ?_, fun p hr hp => ?_⟩
  · rcases hs.eq_of_entering hc hl hr hp with ⟨rfl, -⟩ | ⟨rfl, -⟩
    · exact ⟨entering, hlive.1, fun _ => hpre⟩
    · exact ⟨stay, hlive.2, fun _ => tells_stay_latch hf hl hs hnd hA hstay⟩
  · rcases hs.eq_of_entering hc hl hr hp with ⟨rfl, -⟩ | ⟨rfl, hmem⟩
    · exact ⟨entering, hentered.1, fun _ => hpre⟩
    · exact ⟨_, hentered.2, fun _ => ⟨_, tells_of_header hf hl hs hA hm.entered hmem, rfl⟩⟩

/-- The mask phis of a loop get their entries. -/
theorem exists_traced_maskEntries (hnd : ∀ b, (f.term b).targets.Nodup) {s : Stage}
    (h : Traced f anyFn leaves fresh γ s) (hm : HasMasks γ l masks) (hlive : masks.live ∈ fresh)
    (hentered : masks.entered ∈ fresh) {entering stay : Value}
    (hentering : TellsEdge f anyFn leaves γ shape.preheader l.header entering)
    (hstay : TellsEdge f anyFn leaves γ shape.exiting shape.continueTarget stay)
    {fresh' : List InstId}
    (hfresh : ∀ i ∈ fresh, i ∈ fresh' ∨ i = masks.live ∨ i = masks.entered) :
    ∃ γ', γ.Le γ' ∧ Traced f anyFn leaves fresh' γ' { s with
      func := (((s.func.setIncoming masks.live shape.preheader entering).setIncoming masks.live
        shape.latch stay).setIncoming masks.entered shape.preheader entering).setIncoming
          masks.entered shape.latch (.inst masks.entered) } := by
  have hA := h.annotates
  have hphi := hA.maskPhis _ hm.live
  have hphi' := hA.maskPhis _ hm.entered
  have hisPhi := (hA.phis _ _ hphi).2.2.1
  have hisPhi' := (hA.phis _ _ hphi').2.2.1
  have hne : shape.preheader ≠ shape.latch := fun e =>
    (hs.preheader_mem hf.toClosed hl).1 (e ▸ (hs.latch_mem hf.toClosed hl).1)
  let γ1 := γ.setIncoming masks.live shape.preheader entering
  let γ2 := γ1.setIncoming masks.live shape.latch stay
  let γ3 := γ2.setIncoming masks.entered shape.preheader entering
  let γ4 := γ3.setIncoming masks.entered shape.latch (.inst masks.entered)
  have hle : γ.Le γ4 := (((γ.le_setIncoming _ _ _).trans (γ1.le_setIncoming _ _ _)).trans
    (γ2.le_setIncoming _ _ _)).trans (γ3.le_setIncoming _ _ _)
  have h4 := (((h.setIncoming hphi hlive shape.preheader entering).setIncoming hphi hlive
    shape.latch stay).setIncoming hphi' hentered shape.preheader entering).setIncoming hphi'
      hentered shape.latch (.inst masks.entered)
  have hcode : γ4.code masks.live = γ2.code masks.live :=
    (Overlay.code_setIncoming_of_ne hm.ne.symm _ _).trans
      (Overlay.code_setIncoming_of_ne hm.ne.symm _ _)
  have hcode' : γ2.code masks.entered = γ.code masks.entered :=
    (Overlay.code_setIncoming_of_ne hm.ne _ _).trans (Overlay.code_setIncoming_of_ne hm.ne _ _)
  have hisPhi1 : (γ1.code masks.live).isPhi = true := by rw [Overlay.isPhi_setIncoming, hisPhi]
  have hisPhi2 : (γ2.code masks.entered).isPhi = true := by rw [hcode', hisPhi']
  have hisPhi3 : (γ3.code masks.entered).isPhi = true := by
    rw [Overlay.isPhi_setIncoming, hisPhi2]
  have hcomplete := complete_masks hf hl hs hnd h4.annotates (hm.mono hle) (hentering.mono hle)
    (hstay.mono hle)
    ⟨by rw [hcode, Overlay.lookup_setIncoming hisPhi1, if_neg hne,
        Overlay.lookup_setIncoming hisPhi, if_pos rfl],
      by rw [hcode, Overlay.lookup_setIncoming hisPhi1, if_pos rfl]⟩
    ⟨by rw [Overlay.lookup_setIncoming hisPhi3, if_neg hne, Overlay.lookup_setIncoming hisPhi2,
        if_pos rfl],
      by rw [Overlay.lookup_setIncoming hisPhi3, if_pos rfl]⟩
  refine ⟨γ4, hle, h4.completed fun i hi => (hfresh i hi).imp_right fun hmask b hb => ?_⟩
  rcases hmask with rfl | rfl
  · exact h4.annotates.eq_of_mem_phis hphi hb ▸ hcomplete.1
  · exact h4.annotates.eq_of_mem_phis hphi' hb ▸ hcomplete.2

/-! ## Exit tests -/

/-- The condition of the exiting block, negated if it says that the loop goes on, is true when the
loop is left. -/
theorem buildsTold_exitCond (hnd : ∀ b, (f.term b).targets.Nodup) (hA : Annotates f anyFn γ t) :
    ∃ φ, φ shape.exit = true ∧ BuildsTold f anyFn γ shape.exiting
      ((if shape.stayOnTrue then Build.not shape.cond else pure shape.cond)
        ⟨t, .blockEnd shape.exiting⟩) φ := by
  obtain ⟨onTrue, onFalse, hterm, hstay, -⟩ := hs.term
  have hcond : Tells f anyFn γ shape.exiting (γ.ops shape.exiting) shape.cond
      fun n => n == onTrue := .cond hterm
  have hn := hnd shape.exiting
  have hexit := (hs.exiting_mem hf.toClosed hl).2.2.1
  rw [hterm] at hn hexit
  have hne : onTrue ≠ onFalse := by simpa [Terminator.targets] using hn
  by_cases e : onFalse = shape.exit
  · rw [show shape.stayOnTrue = true by rw [hstay, e, beq_self_eq_true]]
    refine ⟨_, ?_, buildsTold_not hA ⟨_, _, _, hterm⟩ hcond⟩
    rw [← e, beq_eq_false_iff_ne.mpr hne.symm]
    rfl
  · rw [show shape.stayOnTrue = false by rw [hstay, beq_eq_false_iff_ne.mpr e]]
    refine ⟨_, ?_, .pure hA hcond⟩
    rw [(List.mem_pair.mp hexit).resolve_right fun h => e h.symm, beq_self_eq_true]

/-- The new exit test: the lanes that leave now are told, and the question whether any lane stays
has the answer of the old test. -/
theorem exists_told_exitTest (hnd : ∀ b, (f.term b).targets.Nodup)
    (hleaves : ¬ leaves shape.exiting shape.continueTarget) {markers : Markers}
    (hany : markers.func .any = anyFn) (hA : Annotates f anyFn γ t) {mask stay : Value}
    (hmask : Tells f anyFn γ shape.exiting [] mask fun _ => true)
    (hstay : TellsEdge f anyFn leaves γ shape.exiting shape.continueTarget stay)
    {r : (Value × Value × InstId) × Builder}
    (e : exitTest markers shape mask stay ⟨t, .blockEnd shape.exiting⟩ = r) :
    ∃ γ', γ.MoreOps γ' ∧ Annotates f anyFn γ' r.2.func ∧
      ToldTest f anyFn γ' shape r.1.2.1 r.1.2.2 := by
  obtain ⟨onTrue, onFalse, hterm, -⟩ := hs.term
  have hbranch : ∃ c x y, f.term shape.exiting = .brIf c x y := ⟨_, _, _, hterm⟩
  obtain ⟨φ, hφ, hpoint1, γ1, hm1, hA1, htells1⟩ := buildsTold_exitCond hf hl hs hnd hA
  rw [exitTest_apply] at e
  rcases h1 : (if shape.stayOnTrue then Build.not shape.cond else pure shape.cond)
    (⟨t, .blockEnd shape.exiting⟩ : Builder) with ⟨exitCond, t1, point1⟩
  rw [h1] at hpoint1 hA1 htells1 e
  cases hpoint1
  have hmask1 := (hmask.mono hm1.toLe).mono_ops (List.nil_prefix (l := γ1.ops shape.exiting))
  obtain ⟨hpoint2, γ2, hm2, hA2, htells2⟩ := buildsTold_and hA1 hbranch hmask1 htells1
  dsimp only at e
  rcases h2 : Build.and mask exitCond (⟨t1, .blockEnd shape.exiting⟩ : Builder) with
    ⟨exitNow, t2, point2⟩
  rw [h2] at hpoint2 hA2 htells2 e
  cases hpoint2
  obtain ⟨ψ, hstay', hψ, honly⟩ := hstay.mono (hm1.trans hm2).toLe
  obtain ⟨γ3, hm3, hops, hlt, hcode, hA3⟩ := exists_gateOverlay hA2 hbranch .bool (.any hstay')
  subst e
  refine ⟨γ3, hm1.trans (hm2.trans hm3), ?_, ⟨_, (htells2.mono hm3.toLe).mono_ops
    (hm3.ops_prefix _), ?_⟩, ?_⟩
  · rw [hany]
    exact hA3
  · rw [Bool.true_and, hφ]
  · have h : Tells f anyFn γ3 shape.exiting (γ3.ops shape.exiting) (.inst t2.insts.size) ψ := by
      rw [hops]
      exact .any hlt (by rw [hcode]) (hstay'.mono hm3.toLe)
    refine h.congr_targets (targets_ne_nil hbranch) fun n hn => ?_
    by_cases hnc : n = shape.continueTarget
    · rw [hnc, beq_self_eq_true, hψ]
    · rw [beq_eq_false_iff_ne.mpr hnc]
      exact (Bool.eq_false_iff.mpr fun hψn => hnc (honly hleaves n hn hψn)).symm

/-! ## Trackers -/

omit hf in
/-- The value that is tracked is chosen at the end of the exiting block, in the lanes that leave. -/
theorem exists_traced_choice {s s' : Stage} (h : Traced f anyFn leaves fresh γ s)
    {exitNow choice : Value} {i tracker : InstId} {φ : BlockId → Bool} (hne : i ≠ tracker)
    (hi : i < γ.size ∧ (γ.code i).block ∈ l.blocks)
    (hnow : Tells f anyFn γ shape.exiting (γ.ops shape.exiting) exitNow φ)
    (hφ : φ shape.exit = true)
    (e : build (.blockEnd shape.exiting) (Build.select exitNow (.inst i) (.inst tracker)) s =
      (choice, s')) :
    choice = .inst γ.size ∧ ∃ γ', γ.MoreOps γ' ∧
      IsTracked f anyFn γ' { loop := l, shape, value := i, choice := γ.size } ∧
        Traced f anyFn leaves fresh γ' s' := by
  obtain ⟨onTrue, onFalse, hterm, -⟩ := hs.term
  have hselect : Build.select exitNow (.inst i) (.inst tracker) = (do
      Build.apply .select [exitNow, .inst i, .inst tracker] (← Build.typeOf (.inst i))) := by
    unfold Build.select
    rw [if_neg fun e => hne (Value.inst.inj e)]
  rw [hselect] at e
  obtain ⟨γ', hm, hops, hlt, hcode, hA⟩ := exists_gateOverlay h.annotates ⟨_, _, _, hterm⟩
    (s.func.typeOf (.inst i)) (.select [exitNow, .inst i, .inst tracker])
  have hsize := h.annotates.size
  cases e
  rw [hsize] at hops hlt hcode
  have hkept : γ'.code i = γ.code i := hm.kept i hi.1
  refine ⟨congrArg Value.inst hsize, γ', hm, ?_, h.moreOps hm hA⟩
  exact
    { mem := hl
      singleExit := hs
      lt := ⟨Nat.lt_of_lt_of_le hi.1 hm.toGrows.size, hlt.1⟩
      value := by
        show (γ'.code i).block ∈ l.blocks
        rw [hkept]
        exact hi.2
      ty := by
        show (γ'.code γ.size).ty = (γ'.code i).ty
        rw [hcode, hkept]
        exact (h.annotates.seen i hi.1).ty
      choice := ⟨γ.ops shape.exiting, [], exitNow, .inst tracker, φ, hops, by rw [hcode],
        hnow.mono hm.toGrows.toLe, hφ,
        fun hmem => Nat.ne_of_lt hi.1 (List.mem_singleton.mp hmem)⟩ }

/-- A phi of the header with an entry for the preheader only is complete with one for the latch. -/
theorem complete_setIncoming_latch (hA : Annotates f anyFn γ t) {phi : InstId} {u v : Value}
    (hphi : phi ∈ γ.phis shape.header)
    (hincoming : (γ.code phi).incoming = [(shape.preheader, u)])
    (hmask : ∀ e ∈ γ.maskPhis, e.2 ≠ phi) (hb : phi ∈ γ.phis b) :
    (γ.setIncoming phi shape.latch v).Complete f anyFn b phi := by
  have hc := hf.toClosed
  have hne : shape.preheader ≠ shape.latch := fun e =>
    (hs.preheader_mem hc hl).1 (e ▸ (hs.latch_mem hc hl).1)
  have hlookup := Overlay.lookup_setIncoming (hA.phis _ _ hphi).2.2.1 shape.latch v
  obtain rfl := hA.eq_of_mem_phis hphi hb
  intro p hr hp
  rw [hs.header] at hp
  have hnomask : (shape.header, phi) ∉ γ.maskPhis := fun hmem => hmask _ hmem rfl
  rcases hs.eq_of_entering hc hl hr hp with ⟨rfl, -⟩ | ⟨rfl, -⟩
  · refine ⟨u, ?_, fun hmem => absurd hmem hnomask⟩
    rw [hlookup, if_neg hne, hincoming, List.lookup_cons, beq_self_eq_true]
  · exact ⟨v, by rw [hlookup, if_pos rfl], fun hmem => absurd hmem hnomask⟩

/-- A value of the loop is tracked from the header, and is not seen after the loop any more. -/
theorem triple_traced_track {exitNow : Value} {i : InstId} {φ : BlockId → Bool}
    (hi : i < γ.size ∧ (γ.code i).block ∈ l.blocks)
    (hnow : Tells f anyFn γ shape.exiting (γ.ops shape.exiting) exitNow φ)
    (hφ : φ shape.exit = true) :
    Triple (Traced f anyFn leaves fresh γ) (track l shape exitNow i) fun _ s =>
      ∃ γ', γ.Grows γ' ∧ Traced f anyFn leaves fresh γ' s := by
  have hc := hf.toClosed
  have hlt : shape.header < f.blocks.size :=
    hf.target_lt _ _ (hs.header ▸ (hs.latch_mem hc hl).2.2)
  have hentry : shape.header ≠ f.entry := fun e =>
    hs.entry_not_mem hc hl hf.entry_pred (e ▸ hs.header ▸ LoopForest.header_mem hl)
  unfold track
  refine Triple.bind Triple.get fun t => ?_
  dsimp only
  generalize (t.func.inst i).ty = ty
  let d : Instr := { op := .phi [(shape.preheader, .undefined ty)], ty, block := shape.header }
  let γ1 := γ.addPhi shape.header false d
  have hg1 : γ.Grows γ1 := γ.grows_addPhi d shape.header false
  have hphi1 : γ.size ∈ γ1.phis shape.header := by
    show γ.size ∈ if shape.header = shape.header then γ.phis _ ++ [γ.size] else γ.phis _
    rw [if_pos rfl]
    exact List.mem_append_right _ (List.mem_singleton_self _)
  refine Triple.bind (R := fun tracker s => tracker = γ.size ∧
    (∀ e ∈ γ1.maskPhis, e.2 < γ.size) ∧ Traced f anyFn leaves (γ.size :: fresh) γ1 s)
      (triple_appendPhi ?_) fun tracker => ?_
  · rintro s ⟨-, h⟩
    refine ⟨h.annotates.size, fun e he => ?_, ?_⟩
    · exact (h.annotates.phis _ _ (h.annotates.maskPhis e he)).2.1
    · rw [← h.annotates.size]
      exact h.appendPhi hf hlt hentry ty _ false
  let τ : Tracked := { loop := l, shape, value := i, choice := γ1.size }
  refine Triple.bind (R := fun choice s => choice = .inst τ.choice ∧ tracker = γ.size ∧
    ∃ γ2, γ1.MoreOps γ2 ∧ (γ2.code γ.size).incoming = [(shape.preheader, .undefined ty)] ∧
      (∀ e ∈ γ2.maskPhis, e.2 ≠ γ.size) ∧ IsTracked f anyFn γ2 τ ∧
        Traced f anyFn leaves (γ.size :: fresh) γ2 s) ?_ fun choice => ?_
  · rintro s choice s' ⟨rfl, hmask, h⟩ e
    have hi1 : i < γ1.size ∧ (γ1.code i).block ∈ l.blocks :=
      ⟨Nat.lt_of_lt_of_le hi.1 hg1.size, by rw [hg1.kept i hi.1]; exact hi.2⟩
    obtain ⟨hchoice, γ2, hm, hτ, h'⟩ := exists_traced_choice hl hs h (Nat.ne_of_lt hi.1) hi1
      (hnow.mono hg1.toLe) hφ e
    refine ⟨hchoice, rfl, γ2, hm, ?_, fun e he e2 => ?_, hτ, h'⟩
    · rw [hm.kept γ.size (Nat.lt_succ_self _)]
      show ((γ.define d).code γ.size).incoming = _
      rw [γ.code_define_self]
      rfl
    · have hlt1 : e.2 < γ1.size := e2 ▸ Nat.lt_succ_self _
      exact Nat.ne_of_lt (hmask e (hm.masks e he hlt1)) e2
  refine Triple.bind (R := fun _ s => choice = .inst τ.choice ∧ ∃ γ3, γ.Grows γ3 ∧
    IsTracked f anyFn γ3 τ ∧ Traced f anyFn leaves fresh γ3 s) (triple_modifyFunc ?_) fun _ => ?_
  · rintro s ⟨rfl, rfl, γ2, hm, hincoming, hmask, hτ, h⟩
    have hphi2 : γ.size ∈ γ2.phis shape.header := by rw [hm.phis]; exact hphi1
    refine ⟨rfl, _, (hg1.trans hm.toGrows).setIncoming (Nat.le_refl _) _ _,
      hτ.mono (γ2.le_setIncoming _ _ _), (h.setIncoming hphi2 List.mem_cons_self _ _).completed
        fun j hj => (List.mem_cons.mp hj).symm.imp_right ?_⟩
    rintro rfl c hc
    exact complete_setIncoming_latch hf hl hs h.annotates hphi2 hincoming hmask hc
  refine Triple.bind (R := fun _ s => ∃ γ', γ.Grows γ' ∧ Traced f anyFn leaves fresh γ' s)
    (triple_modifyFunc ?_) fun _ => ?_
  · rintro s ⟨rfl, γ3, hg, hτ, h⟩
    refine ⟨_, hg.trans (γ3.grows_addTracked τ), h.replaceUses hτ fun u hu => ?_⟩
    simpa [Loop.contains] using (List.mem_filter.mp hu).2
  refine Triple.bind (R := fun _ s => ∃ γ', γ.Grows γ' ∧ Traced f anyFn leaves fresh γ' s)
    (triple_setShape ?_) fun _ => triple_setShape ?_
  all_goals
    rintro s ⟨γ', hg, h⟩
    exact ⟨γ', hg, h.setInfo _⟩

/-! ## Loops -/

omit hl hs in
/-- A value that is used after a loop is computed in the loop. -/
theorem block_mem_of_liveOuts (hA : Annotates f anyFn γ t) {i : InstId} (hi : i ∈ liveOuts t l) :
    i < γ.size ∧ (γ.code i).block ∈ l.blocks := by
  obtain ⟨b, hb, hmem⟩ := List.mem_flatMap.mp (List.mem_filter.mp hi).1
  obtain ⟨hlt, hblock⟩ := hA.block_of_mem hf.toCoherent hmem
  exact ⟨hlt, hblock ▸ hb⟩

/-- Every value of the loop that is used after it gets a tracker. -/
theorem triple_traced_trackers (t : Stage) {exitNow : Value} {any : InstId} :
    Triple (fun s => t = s ∧ HasTest f anyFn leaves fresh γ shape exitNow any s)
      (ForIn.forIn (liveOuts t.func l) PUnit.unit fun i _ => do
        track l shape exitNow i
        pure (.yield PUnit.unit))
      fun _ => HasTest f anyFn leaves fresh γ shape exitNow any := by
  let Left (rest : List InstId) (s : Stage) : Prop := ∃ γ', γ.Le γ' ∧
    Traced f anyFn leaves fresh γ' s ∧ ToldTest f anyFn γ' shape exitNow any ∧
      ∀ i ∈ rest, i < γ'.size ∧ (γ'.code i).block ∈ l.blocks
  refine (Triple.forIn (J := Left) (liveOuts t.func l) ?_).mono ?_ ?_
  · intro i rest _
    refine Triple.yield ?_
    rintro s _ s' ⟨γ', hle, h, htest, hrest⟩ e
    obtain ⟨φ, hnow, hφ⟩ := htest.now
    obtain ⟨γ'', hg, h'⟩ := triple_traced_track hf hl hs (hrest i List.mem_cons_self) hnow hφ
      s _ s' h e
    refine ⟨γ'', hle.trans hg.toLe, h', htest.grows hg, fun j hj => ?_⟩
    obtain ⟨hlt, hblock⟩ := hrest j (List.mem_cons_of_mem _ hj)
    exact ⟨Nat.lt_of_lt_of_le hlt hg.size, by rwa [hg.block j hlt]⟩
  · rintro s ⟨rfl, γ', hle, h, htest⟩
    exact ⟨γ', hle, h, htest, fun i hi => block_mem_of_liveOuts hf h.annotates hi⟩
  · rintro _ s ⟨γ', hle, h, htest, -⟩
    exact ⟨γ', hle, h, htest⟩

/-- The exiting block gets the new test. -/
theorem traced_setTerm (hnd : ∀ b, (f.term b).targets.Nodup) {exitNow : Value} {any : InstId}
    {s : Stage} (h : HasTest f anyFn leaves fresh γ shape exitNow any s) :
    ∃ γ', γ.Le γ' ∧ Traced f anyFn leaves fresh γ' { s with
      func := s.func.setTerm shape.exiting
        (.brIf (.inst any) shape.continueTarget shape.exit) } := by
  have hxe := (hs.exiting_mem hf.toClosed hl).2.2.1
  obtain ⟨htargets, hcont, -⟩ := hs.continueTarget_mem hf.toClosed hl (hnd _)
  obtain ⟨γ', hle, h, htest⟩ := h
  obtain ⟨onTrue, onFalse, hterm, -⟩ := hs.term
  refine ⟨γ', hle, h.setTerm hterm (fun n => ?_) htest.any⟩
  rw [hterm] at htargets hcont hxe
  have hpair : ∀ {n}, n ∈ (Terminator.brIf shape.cond onTrue onFalse).targets ↔
      n = onTrue ∨ n = onFalse := List.mem_pair
  constructor
  · exact fun hn => htargets n (hpair.mpr hn)
  · rintro (rfl | rfl)
    · exact hpair.mp hcont
    · exact hpair.mp hxe

/-- Normalizing a loop completes its mask phis. -/
theorem triple_traced_normalizeLoop (hnd : ∀ b, (f.term b).targets.Nodup)
    (hleaves : ¬ leaves shape.exiting shape.continueTarget) {markers : Markers}
    (hany : markers.func .any = anyFn) (hm : HasMasks γ l masks) (hlive : masks.live ∈ fresh)
    (hentered : masks.entered ∈ fresh) {fresh' : List InstId}
    (hfresh : ∀ i ∈ fresh, i ∈ fresh' ∨ i = masks.live ∨ i = masks.entered) :
    Triple (Traced f anyFn leaves fresh γ) (normalizeLoop markers (.ofFunc f) l shape masks)
      fun _ s => ∃ γ', γ.Le γ' ∧ Traced f anyFn leaves fresh' γ' s := by
  have hc := hf.toClosed
  obtain ⟨-, hpr, hpre⟩ := hs.preheader_mem hc hl
  obtain ⟨-, hxr, -, -⟩ := hs.exiting_mem hc hl
  obtain ⟨-, hcont, -⟩ := hs.continueTarget_mem hc hl (hnd _)
  unfold normalizeLoop
  -- the masks
  refine Triple.bind (givesTold_edgeMask hf hpr (hs.header ▸ hpre) γ fresh) fun entering => ?_
  refine Triple.bind (R := fun stay s => ∃ γ', γ.Grows γ' ∧ Traced f anyFn leaves fresh γ' s ∧
    TellsEdge f anyFn leaves γ' shape.preheader l.header entering ∧
      TellsEdge f anyFn leaves γ' shape.exiting shape.continueTarget stay) ?_ fun stay => ?_
  · rintro s stay s' ⟨γ', hg, h, hentering⟩ e
    obtain ⟨γ'', hg', h', hstay⟩ := givesTold_edgeMask hf hxr hcont γ' fresh s stay s' h e
    exact ⟨γ'', hg.trans hg', h', hs.header ▸ hentering.mono hg'.toLe, hstay⟩
  refine Triple.bind (R := fun mask s => ∃ γ', γ.Grows γ' ∧ Traced f anyFn leaves fresh γ' s ∧
    ToldMasks f anyFn leaves γ' l shape entering stay mask) ?_ fun mask => ?_
  · rintro s mask s' ⟨γ', hg, h, hentering, hstay⟩ e
    obtain ⟨γ'', hg', h', hmask⟩ := givesTold_blockMask hf hxr γ' fresh s mask s' h e
    exact ⟨γ'', hg.trans hg', h', hentering.mono hg'.toLe, hstay.mono hg'.toLe, hmask⟩
  -- the entries of the mask phis, and the exit test
  refine triple_modifyFunc_bind (triple_modifyFunc_bind (triple_modifyFunc_bind
    (triple_modifyFunc_bind ?_)))
  refine Triple.bind (R := fun r => HasTest f anyFn leaves fresh' γ shape r.2.1 r.2.2) ?_
    fun r => ?_
  · rintro _ r s' ⟨_, ⟨_, ⟨_, ⟨s, ⟨γ', hg, h, hmasks⟩, rfl⟩, rfl⟩, rfl⟩, rfl⟩ e
    obtain ⟨γ1, hle, h1⟩ := exists_traced_maskEntries hf hl hs hnd h (hm.mono hg.toLe) hlive
      hentered hmasks.entering hmasks.stay hfresh
    obtain ⟨γ2, hmore, hA, htest⟩ := exists_told_exitTest hf hl hs hnd hleaves hany
      h1.annotates (hmasks.mask.mono hle) (hmasks.stay.mono hle) rfl
    have e : build (.blockEnd shape.exiting) (exitTest markers shape mask stay) _ = (r, s') := e
    cases e
    exact ⟨γ2, hg.toLe.trans (hle.trans hmore.toLe), h1.moreOps hmore hA, htest⟩
  obtain ⟨exitCond, exitNow, any⟩ := r
  dsimp only
  refine Triple.bind (triple_forIn_setShape fun v _ _ s h => h.setInfo _) fun _ => ?_
  refine Triple.bind (R := fun _ => HasTest f anyFn leaves fresh' γ shape exitNow any)
    (triple_setShape fun s h => h.setInfo _) fun _ => ?_
  refine Triple.bind Triple.get fun t => ?_
  refine Triple.bind (triple_traced_trackers hf hl hs t) fun _ => ?_
  exact triple_modifyFunc fun s h => traced_setTerm hf hl hs hnd h

end

/-! ## All loops -/

/-- The edges along which the loops are left. -/
def Leaves (loops : List (Loop × SingleExitLoop)) (p q : BlockId) : Prop :=
  ∃ e ∈ loops, p = e.2.exiting ∧ q = e.2.exit

theorem AreSingleExit.not_leaves {loops : List (Loop × SingleExitLoop)}
    (h : AreSingleExit f loops) (hf : f.Closed) (hnd : ∀ b, (f.term b).targets.Nodup)
    {e : Loop × SingleExitLoop} (he : e ∈ loops) :
    ¬ Leaves loops e.2.exiting e.2.continueTarget := by
  rintro ⟨e', he', h1, h2⟩
  exact (h.singleExit e he).ne_exit hf (h.mem e he) (h.mem e' he') (h.singleExit e' he') (hnd _)
    (Prod.ext h1 h2)

/-- The mask phis of some loops. -/
def maskPhisOf (masks : List (Loop × SingleExitLoop × LoopMasks)) : List InstId :=
  masks.flatMap fun m => [m.2.2.entered, m.2.2.live]

/-- A function is an overlay of itself. -/
def overlayOf (f : Func) : Overlay where
  size := f.insts.size
  code := f.inst
  phis _ := []
  ops _ := []
  maskPhis := []
  tracked := []

theorem annotates_overlayOf (f : Func) (anyFn : FuncId) : Annotates f anyFn (overlayOf f) f where
  params := rfl
  blocks := rfl
  size := rfl
  le := Nat.le_refl _
  old _ _ := rfl
  body b := by
    show f.body b = (f.phis b ++ []) ++ (f.nonPhis b ++ [])
    rw [List.append_nil, List.append_nil, Func.phis_append_nonPhis]
  phis _ _ h := by cases h
  ops b before i after e := by
    have e : [] = before ++ i :: after := e
    simp at e
  nodup _ := ⟨List.nodup_nil, List.nodup_nil⟩
  seen i _ := .refl _ _
  term b := by
    cases h : f.term b with
    | unreachable => exact .unreachable
    | ret v =>
      cases v with
      | none => exact .ret .none
      | some v => exact .ret (.some .refl)
    | br target => exact .br target
    | brIf c onTrue onFalse => exact .brIf (fun n => Iff.rfl) (.cond h)
  maskPhis _ h := by cases h
  tracked _ h := by cases h

/-- Where no masks are recorded, there is nothing to tell. -/
theorem traced_overlayOf {s : Stage} (hmasks : s.masks = {}) :
    Traced s.func anyFn leaves fresh (overlayOf s.func) s where
  annotates := annotates_overlayOf _ _
  complete _ _ h := absurd h List.not_mem_nil
  block b m hm := by
    rw [hmasks] at hm
    cases hm
  edge p q m hm := by
    rw [hmasks] at hm
    cases hm

/-- Normalizing loops lays a complete overlay over the function. -/
theorem triple_traced_normalizeLoops {s : Stage} {markers : Markers} (hf : s.func.WellFormed)
    (hnd : ∀ b, (s.func.term b).targets.Nodup) (hmasks : s.masks = {}) :
    TripleOk (· = s) (normalizeLoops markers Loop.singleExit (.ofFunc s.func)) fun _ t =>
      ∃ γ, Annotates s.func (markers.func .any) γ t.func ∧
        ∀ b, ∀ i ∈ γ.phis b, γ.Complete s.func (markers.func .any) b i := by
  cases hloops : divergentLoops Loop.singleExit (.ofFunc s.func) s with
  | error x => exact (tripleAll_normalizeLoops_of_error hloops).ok
  | ok loops =>
    have hshapes := areSingleExit_of_divergentLoops hloops
    -- the mask phis that are made are not complete until their loops are normalized
    let Left (masks : List (Loop × SingleExitLoop × LoopMasks)) (u : Stage) : Prop :=
      ∃ γ, Traced s.func (markers.func .any) (Leaves loops) (maskPhisOf masks) γ u ∧
        ∀ m ∈ masks, HasMasks γ m.1 m.2.2
    have hstart : Left [] s :=
      ⟨overlayOf s.func, traced_overlayOf hmasks, fun _ h => absurd h List.not_mem_nil⟩
    refine ((tripleAll_normalizeLoops_of (E := fun _ _ => True) (J := Left) (K := Left) hloops
      hstart ?_ (fun _ _ _ h => h) ?_).ok).mono (fun _ h => h) ?_
    · rintro l shape done hmem u m u' ⟨γ, h, hdone⟩ e
      obtain ⟨γ', hg, h', hm⟩ := triple_traced_addLoopMasks hf (hshapes.mem _ hmem)
        (hshapes.singleExit _ hmem) ⟨_, hmem, rfl, rfl⟩ u m u' h e
      refine ⟨γ', h'.completed fun i hi => .inl ?_, fun x hx => ?_⟩
      · simp only [maskPhisOf, List.flatMap_append, List.mem_append, List.flatMap_singleton]
        simp only [List.mem_cons] at hi ⊢
        tauto
      · rcases List.mem_append.mp hx with hx | hx
        · exact (hdone x hx).mono hg.toLe
        · rw [List.mem_singleton.mp hx]
          exact hm
    · rintro l shape m rest hmem u a u' ⟨γ, h, hm⟩ e
      have hphis : maskPhisOf ((l, shape, m) :: rest) = m.entered :: m.live :: maskPhisOf rest :=
        rfl
      rw [hphis] at h
      obtain ⟨γ', hle, h'⟩ := triple_traced_normalizeLoop hf (hshapes.mem _ hmem)
        (hshapes.singleExit _ hmem) hnd (hshapes.not_leaves hf.toClosed hnd hmem) rfl
        (hm _ List.mem_cons_self) (by simp) (by simp) (fun i hi => by
          simp only [List.mem_cons] at hi
          tauto) u a u' h e
      exact ⟨γ', h', fun x hx => (hm x (List.mem_cons_of_mem _ hx)).mono hle⟩
    · rintro _ u ⟨γ, h, -⟩
      exact ⟨γ, h.annotates, fun b i hi => h.complete b i hi List.not_mem_nil⟩

/-- A single-lane run of a well-formed function that returns is matched by the run of the function
with its divergent loops normalized: the value that is returned, the blocks that are passed, the
memory and the calls are the same. -/
theorem exists_run_normalizeLoops {M : Module} {f : Func} (hf : f.WellFormed)
    (hnd : ∀ b, (f.term b).targets.Nodup) {info : VectorInfo} {n : Nat} {t : Stage}
    (h : normalizeLoops (Markers.declare M).1 Loop.singleExit (.ofFunc f) { func := f, info } =
      (.ok n, t)) {s s' : Setup} (hs : s.Alike s') (hwidth : s.width = 1)
    (hlimit : s.limit ≤ s'.limit) (hmarker : s.marker? = (Markers.declare M).1.kindOf?)
    {args : List Lanes} {memory : Array Scalar} {ret : Option Lanes} {m : Machine}
    (e : f.run s args memory = (.ok ret, m)) :
    ∃ m', t.func.run s' args memory = (.ok ret, m') ∧ m'.trace = m.trace ∧
      m'.memory = m.memory ∧ m'.calls = m.calls := by
  obtain ⟨γ, hA, hc⟩ := triple_traced_normalizeLoops (s := { func := f, info }) hf hnd rfl _ n t rfl h
  obtain ⟨m', hrun, hpath, hmem, hcalls⟩ := hA.exists_run hf hnd hc hs hwidth hlimit
    (by rw [hmarker, Markers.kindOf?_func_declare]) e
  exact ⟨m', hrun, congrArg List.reverse hpath, hmem, congrArg List.reverse hcalls⟩

/-- Counts up to a bound that differs between lanes, and returns the counter. -/
def countUp : Func where
  params := [.int 32]
  retTy := .int 32
  blocks := #[
    { term := .br 1 },
    { insts := [0, 1], term := .brIf (.inst 1) 2 3 },
    { insts := [2], term := .br 1 },
    { term := .ret (some (.inst 0)) }]
  insts := #[
    { op := .phi [(0, .ofInt (.int 32) 0), (2, .inst 2)], ty := .int 32, block := 1 },
    { op := .apply (.cmp .slt) [.inst 0, .param 0], ty := .bool, block := 1 },
    { op := .apply (.binary .add) [.inst 0, .ofInt (.int 32) 1], ty := .int 32, block := 2 }]
  layout := [0, 1, 2, 3]

/-- The counter with its loop normalized, for an empty module. -/
def countUpNormalized : Except VectorizeError Nat × Stage :=
  normalizeLoops (Markers.declare default).1 Loop.singleExit (.ofFunc countUp)
    { func := countUp, info := { width := 4 } }

/-- A run in a single lane, for an empty module. -/
def singleLane : Setup := { width := 1, limit := 10, marker? := (Markers.declare default).1.kindOf? }

/-- The counter is tracked, and has the same value after the normalized loop. -/
theorem exists_run_countUpNormalized : countUpNormalized.1 = .ok 1 ∧
    ∃ m, countUpNormalized.2.func.run singleLane [[.int 2]] #[] = (.ok (some [.int 2]), m) ∧
      m.trace = [0, 1, 2, 1, 2, 1, 3] := by
  have hf : countUp.WellFormed := Func.wellFormed_of_checks (by decide) (by decide +kernel)
  have hnd : ∀ b, (countUp.term b).targets.Nodup := by
    intro b
    by_cases hb : b < countUp.blocks.size
    · exact (by decide : ∀ b < countUp.blocks.size, (countUp.term b).targets.Nodup) b hb
    · rw [Cfg.term_of_size_le (Nat.le_of_not_lt hb)]
      exact List.nodup_nil
  have hn : countUpNormalized.1 = .ok 1 := by decide +kernel
  have hret : (countUp.run singleLane [[.int 2]] #[]).1 = .ok (some [.int 2]) := by decide +kernel
  have htrace : (countUp.run singleLane [[.int 2]] #[]).2.trace = [0, 1, 2, 1, 2, 1, 3] := by
    decide +kernel
  obtain ⟨m, h, ht, -⟩ := exists_run_normalizeLoops (t := countUpNormalized.2) (s := singleLane)
    (m := (countUp.run singleLane [[.int 2]] #[]).2) hf hnd (Prod.ext hn rfl) ⟨rfl, rfl, rfl⟩ rfl
    (Nat.le_refl _) rfl (Prod.ext hret rfl)
  exact ⟨hn, m, h, ht.trans htrace⟩

end Stage

end Lockstep
