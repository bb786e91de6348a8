import Lockstep.Loop.Normalize
import Lockstep.Proofs.Cfg.LoopForest
import Lockstep.Proofs.Vector.Mask

/-!
# Normalizing loops

Normalizing the loops with a divergent exit keeps a stage prepared: the mask phis and the trackers
that it makes are recorded as varying, and the new exit tests lead where the old ones led.
-/

namespace Lockstep

/-! ## Single-exit loops -/

/-- What is known of a single-exit loop. -/
structure Loop.IsSingleExit (f : Func) (a : Analyses) (l : Loop) (shape : SingleExitLoop) :
    Prop where
  reducible : l.reducible = true
  header : shape.header = l.header
  preheader : l.preheader? f = some shape.preheader
  latch : l.latch? = some shape.latch
  exitEdges : l.exitEdges = [(shape.exiting, shape.exit)]
  term : ∃ onTrue onFalse, f.term shape.exiting = .brIf shape.cond onTrue onFalse ∧
    shape.stayOnTrue = (onFalse == shape.exit) ∧
    shape.continueTarget = if shape.stayOnTrue then onTrue else onFalse
  dominates : a.dom.dominates shape.exiting shape.latch = true

theorem Loop.isSingleExit_of_eq_ok {f : Func} {a : Analyses} {l : Loop} {shape : SingleExitLoop}
    (h : l.singleExit f a = .ok shape) : l.IsSingleExit f a shape := by
  unfold Loop.singleExit at h
  by_cases hr : l.reducible = true
  swap
  · rw [Bool.not_eq_true] at hr
    rw [hr] at h
    cases h
  rw [hr] at h
  cases hp : l.preheader? f with
  | none => rw [hp] at h; cases h
  | some preheader =>
  rw [hp] at h
  cases hl : l.latch? with
  | none => rw [hl] at h; cases h
  | some latch =>
  rw [hl] at h
  rcases he : l.exitEdges with - | ⟨⟨exiting, exit⟩, - | ⟨e, es⟩⟩
  · rw [he] at h; cases h
  · rw [he] at h
    dsimp only [bind, Except.bind, Bool.not_true, Bool.false_eq_true, if_false] at h
    cases ht : f.term exiting with
    | brIf cond onTrue onFalse =>
      rw [ht] at h
      by_cases hd : a.dom.dominates exiting latch = true
      · rw [hd] at h
        cases h
        exact ⟨hr, rfl, hp, hl, he, ⟨onTrue, onFalse, ht, rfl, rfl⟩, hd⟩
      · rw [Bool.not_eq_true] at hd
        rw [hd] at h
        cases h
    | _ => rw [ht] at h; cases h
  · rw [he] at h; cases h

/-- A loop of which all this is known is recognized. -/
theorem Loop.IsSingleExit.eq_ok {f : Func} {a : Analyses} {l : Loop} {shape : SingleExitLoop}
    (h : l.IsSingleExit f a shape) : l.singleExit f a = .ok shape := by
  obtain ⟨onTrue, onFalse, ht, hs, hc⟩ := h.term
  unfold Loop.singleExit
  rw [h.reducible, h.preheader, h.latch, h.exitEdges]
  simp only [ht, h.dominates, ← hs, ← hc, ← h.header]
  rfl

theorem LoopForest.get_mem {t : LoopForest} {id : LoopId} (h : id ∈ t.innerToOuter) :
    t.get id ∈ t.loops := by
  have hlt : id < t.loops.length := List.mem_range.mp (List.mem_mergeSort.mp h)
  rw [LoopForest.get, List.getElem?_eq_getElem hlt]
  exact List.getElem_mem hlt

namespace Stage

variable {s : Stage}

/-- The targets and the condition of an exit test exist. -/
structure HasExitTest (f : Func) (shape : SingleExitLoop) : Prop where
  cond : f.Defines shape.cond
  exit : shape.exit < f.blocks.size
  continueTarget : shape.continueTarget < f.blocks.size

theorem hasExitTest_of_divergentLoops {loops : List (Loop × SingleExitLoop)}
    (hf : s.func.Coherent)
    (h : divergentLoops Loop.singleExit (.ofFunc s.func) s = .ok loops) :
    ∀ e ∈ loops, HasExitTest s.func e.2 := by
  intro e he
  obtain ⟨l, hl, hc⟩ := exists_of_mem_mapM h e he
  obtain ⟨hl, -⟩ := List.mem_filter.mp hl
  obtain ⟨id, hid, rfl⟩ := List.mem_map.mp hl
  split at hc
  swap
  · cases hc
  rename_i shape hshape
  cases hc
  have hs := Loop.isSingleExit_of_eq_ok hshape
  obtain ⟨onTrue, onFalse, ht, -, hcont⟩ := hs.term
  have htargets : ∀ c ∈ [onTrue, onFalse], c < s.func.blocks.size := by
    intro c hmem
    refine hf.target_lt shape.exiting c ?_
    rw [ht]
    exact hmem
  refine ⟨hf.defines_cond ht, ?_, ?_⟩
  · obtain ⟨-, found, -, hfound⟩ :=
      LoopForest.exists_fromFound (Cfg.ofFunc s.func) (Cfg.ofFunc s.func).dominators
    have hedges := (hfound.isLoopOf _ (LoopForest.get_mem hid)).exitEdges
    have hmem : (shape.exiting, shape.exit) ∈
        ((Analyses.ofFunc s.func).loops.get id).exitEdges := by
      rw [hs.exitEdges]
      exact List.mem_singleton_self _
    have hmem := (List.mem_filter.mp (hedges ▸ hmem)).1
    obtain ⟨b, -, hb⟩ := List.mem_flatMap.mp hmem
    obtain ⟨c, hc, e⟩ := List.mem_map.mp hb
    cases e
    exact hf.target_lt _ _ ((Cfg.mem_succs hf.toClosed).mp hc).2
  · rw [hcont]
    split
    · exact htargets onTrue List.mem_cons_self
    · exact htargets onFalse (List.mem_cons_of_mem _ List.mem_cons_self)

/-! ## Steps -/

/-- What holds of a prepared stage in which some values exist. -/
def PreparedWith (s : Stage) (fresh : List InstId) (vs : List Value) (t : Stage) : Prop :=
  Prepared s fresh t ∧ ∀ v ∈ vs, t.func.Defines v

variable {fresh : List InstId} {vs ws : List Value}

theorem PreparedWith.mono {t : Stage} (h : PreparedWith s fresh vs t) (hw : ∀ v ∈ ws, v ∈ vs) :
    PreparedWith s fresh ws t :=
  ⟨h.1, fun v hv => h.2 v (hw v hv)⟩

theorem PreparedWith.grow {t u : Stage} (h : PreparedWith s fresh vs t) (hg : Grows t u) :
    PreparedWith s fresh vs u :=
  ⟨h.1.grow hg, fun v hv => hg.func.defines (h.2 v hv)⟩

/-- A mask that is asked for exists besides the values that existed. -/
theorem GivesMask.triple {m : StateM Stage Value} (h : GivesMask s m) (vs : List Value) :
    Triple (PreparedWith s [] vs) m fun v => PreparedWith s [] (v :: vs) := by
  rintro t v u ⟨ht, hvs⟩ e
  obtain ⟨⟨hu, hsize⟩, hv⟩ := h t.func.insts.size t v u ⟨ht, Nat.le_refl _⟩ e
  refine ⟨hu, fun w hw => ?_⟩
  rcases List.mem_cons.mp hw with rfl | hw
  · exact hv
  · exact (hvs w hw).mono hsize

theorem triple_setIncoming (phi : InstId) (pred : BlockId) {v : Value} (hv : v ∈ vs) :
    Triple (PreparedWith s fresh vs) (modifyFunc (·.setIncoming phi pred v)) fun _ =>
      PreparedWith s fresh vs := by
  refine triple_modifyFunc ?_
  rintro t ⟨ht, hvs⟩
  refine ⟨ht.setIncoming phi pred (hvs v hv), fun w hw => (hvs w hw).mono ?_⟩
  exact Nat.le_of_eq (Func.size_insts_modifyIncoming _ _ _).symm

theorem triple_setShape_vary (fresh' : List InstId) (v : Value)
    (hf : ∀ i ∈ fresh, i ∈ fresh' ∨ v = .inst i) :
    Triple (PreparedWith s fresh vs) (setShape v .vary) fun _ => PreparedWith s fresh' vs := by
  refine triple_setShape ?_
  rintro t ⟨ht, hvs⟩
  exact ⟨ht.setShape_vary v hf, hvs⟩

theorem triple_appendPhi_fresh {b : BlockId} {ty : Ty} {incoming : List (BlockId × Value)}
    (hi : ∀ e ∈ incoming, e.2.inst? = none) :
    Triple (PreparedWith s fresh vs) (appendPhi b ty incoming) fun phi =>
      PreparedWith s (phi :: fresh) (.inst phi :: vs) := by
  refine triple_appendPhi ?_
  rintro t ⟨ht, hvs⟩
  have hsize : t.func.insts.size < (t.func.appendPhi b ty incoming).2.insts.size := by
    rw [Func.appendPhi, Func.size_insts_insertAt]
    exact Nat.lt_succ_self _
  refine ⟨ht.appendPhi fun e he => ?_, fun v hv => ?_⟩
  · have hnone := hi e he
    cases hv : e.2 with
    | inst i => rw [hv] at hnone; cases hnone
    | _ => trivial
  · rcases List.mem_cons.mp hv with rfl | hv
    · exact hsize
    · exact (hvs v hv).mono (Nat.le_of_lt hsize)

/-! ## Loop masks -/

theorem triple_addLoopMasks (l : Loop) (shape : SingleExitLoop) (vs : List Value) :
    Triple (PreparedWith s [] vs) (addLoopMasks l shape) fun m =>
      PreparedWith s [] (.inst m.entered :: .inst m.live :: vs) := by
  unfold addLoopMasks
  refine Triple.bind (triple_appendPhi_fresh fun e he => by cases he) fun live => ?_
  refine Triple.bind (triple_appendPhi_fresh fun e he => by cases he) fun entered => ?_
  refine Triple.bind (triple_setShape_vary [entered] _ ?_) fun _ => ?_
  · intro i hi
    rcases List.mem_pair.mp hi with rfl | rfl
    · exact .inl (List.mem_singleton_self _)
    · exact .inr rfl
  refine Triple.bind (triple_setShape_vary [] _ ?_) fun _ => ?_
  · exact fun i hi => .inr (by rw [List.mem_singleton.mp hi])
  refine Triple.bind (R := fun _ => PreparedWith s [] (.inst entered :: .inst live :: vs))
    (triple_setBlockMask ?_) fun _ => ?_
  · rintro t ⟨ht, hvs⟩
    exact ⟨ht.setBlockMask (hvs _ (List.mem_cons_of_mem _ List.mem_cons_self)) _, hvs⟩
  refine Triple.bind (R := fun _ => PreparedWith s [] (.inst entered :: .inst live :: vs))
    (triple_setEdgeMask ?_) fun _ => ?_
  · rintro t ⟨ht, hvs⟩
    exact ⟨ht.setEdgeMask (hvs _ List.mem_cons_self) _ _, hvs⟩
  refine Triple.bind (R := fun _ => PreparedWith s [] (.inst entered :: .inst live :: vs)) ?_
    fun _ => Triple.pure fun t ht => ht
  refine Triple.forIn (J := fun _ => PreparedWith s [] (.inst entered :: .inst live :: vs)) _ ?_
  rintro b tail -
  refine Triple.yield (triple_modifyInfo ?_)
  rintro t ⟨ht, hvs⟩
  exact ⟨ht.setDivergent b true, hvs⟩

/-! ## Trackers -/

theorem triple_build {point : InsertPoint} {m : Build Value}
    (hm : ∀ b : Builder, b.func.Coherent → (∀ v ∈ vs, b.func.Defines v) → Built b (m b)) :
    Triple (PreparedWith s fresh vs) (build point m) fun v => PreparedWith s fresh (v :: vs) := by
  rintro t v u ⟨ht, hvs⟩ e
  have h := hm ⟨t.func, point⟩ ht.valid.func hvs
  have hg := (Grows.refl ht.valid.func).build h.extends_ h.coherent
  cases e
  refine ⟨ht.grow hg, fun w hw => ?_⟩
  rcases List.mem_cons.mp hw with rfl | hw
  · exact h.defines
  · exact h.extends_.defines (hvs w hw)

/-- A tracker is recorded as varying. -/
theorem triple_track {l : Loop} {shape : SingleExitLoop} {exitNow : Value} {i : InstId}
    (he : exitNow ∈ vs) (hi : .inst i ∈ vs) :
    Triple (PreparedWith s [] vs) (track l shape exitNow i) fun _ => PreparedWith s [] vs := by
  unfold track
  refine Triple.bind Triple.get fun t => ?_
  refine Triple.bind ((triple_appendPhi_fresh ?_).mono (fun u hu => hu.2) fun _ _ hu => hu)
    fun tracker => ?_
  · intro e he
    rw [List.mem_singleton.mp he]
    rfl
  refine Triple.bind (triple_build fun b hb hvs => Build.built_select hb
    (hvs _ (List.mem_cons_of_mem _ he)) (hvs _ (List.mem_cons_of_mem _ hi))
    (hvs _ List.mem_cons_self)) fun tracked => ?_
  refine Triple.bind (triple_setIncoming _ _ List.mem_cons_self) fun _ => ?_
  refine Triple.bind (R := fun _ => PreparedWith s [tracker] (tracked :: .inst tracker :: vs))
    (triple_modifyFunc ?_) fun _ => ?_
  · rintro u ⟨hu, hvs⟩
    have hsize := Func.size_insts_substUsers u.func (.single (.inst i) tracked)
      (((UseMap.compute u.func).usersOf (.inst i)).filter fun w =>
        !l.contains (u.func.userBlock w))
    refine ⟨hu.edit (hu.valid.func.replaceUses (hvs _ List.mem_cons_self) _) hsize
      (Func.size_blocks_substUsers _ _ _) (fun j => ?_) (fun b => Func.body_substUsers _ _ _ _)
      (Func.keepsMasks_substUsers _ _ _ _),
      fun v hv => (hvs v hv).mono (Nat.le_of_eq hsize.symm)⟩
    show ((Func.substUsers _ _ _).inst j).isPhi = _
    rw [Func.inst_substUsers _ _ (Substitution.single_idempotent _ _)]
    split
    · exact Instr.isPhi_map _ _ _
    · rfl
  refine Triple.bind (triple_setShape_vary [] _ fun j hj => ?_) fun _ => ?_
  · exact .inr (by rw [List.mem_singleton.mp hj])
  refine (triple_setShape_vary [] _ fun j hj => by cases hj).mono (fun _ hu => hu)
    fun _ u hu => hu.mono fun v hv => List.mem_cons_of_mem _ (List.mem_cons_of_mem _ hv)

/-! ## Exit tests -/

/-- The new exit test of a loop: the condition to leave, the lanes that leave now, and whether any
lane stays. -/
def exitTest (markers : Markers) (shape : SingleExitLoop) (mask stay : Value) :
    Build (Value × Value × InstId) := do
  let exitCond ← if shape.stayOnTrue then Build.not shape.cond else pure shape.cond
  let exitNow ← Build.and mask exitCond
  let any ← Build.call (markers.func .any) .bool [stay]
  return (exitCond, exitNow, any)

theorem exitTest_apply (markers : Markers) (shape : SingleExitLoop) (mask stay : Value)
    (b : Builder) :
    exitTest markers shape mask stay b = (
      let r := (if shape.stayOnTrue then Build.not shape.cond else pure shape.cond) b
      let r' := Build.and mask r.1 r.2
      let r'' := Build.call (markers.func .any) .bool [stay] r'.2
      ((r.1, r'.1, r''.1), r''.2)) := by
  unfold exitTest
  split <;> rfl

/-- Building an exit test. -/
theorem built_exitTest (markers : Markers) (shape : SingleExitLoop) (mask stay : Value)
    {b : Builder} (hb : b.func.Coherent) (hc : b.func.Defines shape.cond)
    (hm : b.func.Defines mask) (hs : b.func.Defines stay) :
    b.func.Extends (exitTest markers shape mask stay b).2.func ∧
      (exitTest markers shape mask stay b).2.func.Coherent ∧
      (exitTest markers shape mask stay b).2.func.Defines
        (exitTest markers shape mask stay b).1.2.1 ∧
      (exitTest markers shape mask stay b).2.func.Defines
        (.inst (exitTest markers shape mask stay b).1.2.2) ∧
      (exitTest markers shape mask stay b).2.func.isPhi
        (exitTest markers shape mask stay b).1.2.2 = false := by
  rw [exitTest_apply]
  have h1 : Built b ((if shape.stayOnTrue then Build.not shape.cond else pure shape.cond) b) := by
    split
    · exact Build.built_not hb hc
    · exact Build.built_pure hb hc
  have h2 := Build.built_and h1.coherent (h1.extends_.defines hm) h1.defines
  have hstay := h2.extends_.defines (h1.extends_.defines hs)
  have hargs : ∀ v ∈ [stay], (Build.and mask _ _).2.func.Defines v :=
    fun v hv => List.mem_singleton.mp hv ▸ hstay
  have h3 := Build.built_apply h2.coherent (.call (markers.func .any)) hargs .bool
  refine ⟨h1.extends_.trans (h2.extends_.trans h3.extends_), h3.coherent,
    h3.extends_.defines h2.defines, h3.defines, h3.extends_.fresh _ (Nat.le_refl _)⟩

theorem triple_normalizeLoop {markers : Markers} {g : Cfg} {l : Loop} {shape : SingleExitLoop}
    {masks : LoopMasks} (hshape : HasExitTest s.func shape) (hc : shape.cond ∈ vs)
    (he : .inst masks.entered ∈ vs) :
    Triple (PreparedWith s [] vs) (normalizeLoop markers g l shape masks) fun _ =>
      PreparedWith s [] vs := by
  unfold normalizeLoop
  refine Triple.bind ((triple_edgeMask g _ _).triple vs) fun entering => ?_
  refine Triple.bind ((triple_edgeMask g _ _).triple _) fun stay => ?_
  refine Triple.bind ((triple_blockMask g _).triple _) fun exitingMask => ?_
  have hentered : .inst masks.entered ∈ exitingMask :: stay :: entering :: vs := by simp [he]
  refine Triple.bind (triple_setIncoming _ _ (by simp)) fun _ => ?_
  refine Triple.bind (triple_setIncoming _ _ (by simp)) fun _ => ?_
  refine Triple.bind (triple_setIncoming _ _ (by simp)) fun _ => ?_
  refine Triple.bind (triple_setIncoming _ _ hentered) fun _ => ?_
  refine Triple.bind (R := fun r t =>
    PreparedWith s [] (.inst r.2.2 :: r.2.1 :: vs) t ∧ t.func.isPhi r.2.2 = false) ?_ fun r => ?_
  · rintro t r u ⟨ht, hvs⟩ e
    obtain ⟨h1, h2, h3, h4, h5⟩ := built_exitTest markers shape exitingMask stay
      (b := ⟨t.func, .blockEnd shape.exiting⟩) ht.valid.func (hvs _ (by simp [hc])) (hvs _ (by simp)) (hvs _ (by simp))
    have e : build (.blockEnd shape.exiting) (exitTest markers shape exitingMask stay) t =
      (r, u) := e
    have hg := (Grows.refl ht.valid.func).build h1 h2
    cases e
    refine ⟨⟨ht.grow hg, fun v hv => ?_⟩, h5⟩
    rcases List.mem_cons.mp hv with rfl | hv
    · exact h4
    · rcases List.mem_cons.mp hv with rfl | hv
      · exact h3
      · exact h1.defines (hvs v (by simp [hv]))
  obtain ⟨exitCond, exitNow, any⟩ := r
  dsimp only
  refine Triple.bind (R := fun _ t => PreparedWith s [] (.inst any :: exitNow :: vs) t ∧
    t.func.isPhi any = false) ?_ fun _ => ?_
  · refine triple_forIn_setShape ?_
    rintro v - - t ⟨⟨ht, hvs⟩, hany⟩
    exact ⟨⟨ht.setShape_vary v fun i hi => (by cases hi), hvs⟩, hany⟩
  refine Triple.bind (R := fun _ => PreparedWith s [] (.inst any :: exitNow :: vs))
    (triple_setShape ?_) fun _ => ?_
  · rintro t ⟨⟨ht, hvs⟩, hany⟩
    refine ⟨ht.setShape .uni fun i hi => ?_, hvs⟩
    cases hi
    exact hany
  refine Triple.bind Triple.get fun t => ?_
  refine Triple.bind (R := fun _ => PreparedWith s [] (.inst any :: exitNow :: vs)) ?_
    fun _ => ?_
  · have hmem : ∀ i ∈ liveOuts t.func l, ∃ b, i ∈ t.func.body b := by
      intro i hi
      obtain ⟨b, -, hb⟩ := List.mem_flatMap.mp (List.mem_filter.mp hi).1
      exact ⟨b, hb⟩
    refine (Triple.forIn (J := fun _ => PreparedWith s []
      ((liveOuts t.func l).map .inst ++ (.inst any :: exitNow :: vs))) (liveOuts t.func l)
      ?_).mono ?_ ?_
    · intro i tail hi
      exact Triple.yield (triple_track (by simp) (by simp [hi]))
    · rintro u ⟨rfl, hu, hvs⟩
      refine ⟨hu, fun v hv => ?_⟩
      rcases List.mem_append.mp hv with hv | hv
      · obtain ⟨i, hi, rfl⟩ := List.mem_map.mp hv
        obtain ⟨b, hb⟩ := hmem i hi
        exact hu.valid.func.body_lt b i hb
      · exact hvs v hv
    · exact fun _ u hu => hu.mono fun v hv => List.mem_append_right _ hv
  · refine triple_modifyFunc ?_
    rintro u ⟨hu, hvs⟩
    have hlt : ∀ c ∈ [shape.continueTarget, shape.exit], c < u.func.blocks.size := by
      intro c hc
      rw [hu.blocks]
      rcases List.mem_pair.mp hc with rfl | rfl
      · exact hshape.continueTarget
      · exact hshape.exit
    refine ⟨hu.edit (hu.valid.func.setTerm hlt fun v hv => ?_) (Func.size_insts_setTerm _ _ _)
      (Func.size_blocks_setTerm _ _ _) (fun _ => rfl) (fun b => Func.body_setTerm _ _ _ _)
      (.of_eq fun _ => rfl),
      fun v hv => ?_⟩
    · exact List.mem_singleton.mp hv ▸ hvs _ List.mem_cons_self
    · exact hvs v (List.mem_cons_of_mem _ (List.mem_cons_of_mem _ hv))

/-! ## All loops -/

/-- Nothing is done if a loop is rejected. -/
theorem tripleAll_normalizeLoops_of_error {markers : Markers} {check : LoopCheck} {a : Analyses}
    {x : VectorizeError} {Q : Nat → Stage → Prop} (h : divergentLoops check a s = .error x) :
    TripleAll (· = s) (normalizeLoops markers check a) Q fun e t => e = x ∧ t = s := by
  unfold normalizeLoops
  refine TripleAll.get_bind ?_
  rintro t rfl
  rw [h]
  exact TripleAll.throw fun u hu => ⟨rfl, hu⟩

/-- All loops get their mask phis, and then one loop after the other is normalized. `J` is what is
known of the mask phis made so far, and `K` what is known with the loops that are left. -/
theorem tripleAll_normalizeLoops_of {markers : Markers} {check : LoopCheck} {a : Analyses}
    {loops : List (Loop × SingleExitLoop)} {E : VectorizeError → Stage → Prop}
    {J K : List (Loop × SingleExitLoop × LoopMasks) → Stage → Prop}
    (hloops : divergentLoops check a s = .ok loops) (hs : J [] s)
    (hmade : ∀ l shape done, (l, shape) ∈ loops →
      Triple (J done) (addLoopMasks l shape) fun m => J (done ++ [(l, shape, m)]))
    (hstart : ∀ masks u, masks.map (fun m => (m.1, m.2.1)) = loops → J masks u → K masks u)
    (hleft : ∀ l shape m rest, (l, shape) ∈ loops →
      Triple (K ((l, shape, m) :: rest)) (normalizeLoop markers a.cfg l shape m)
        fun _ => K rest) :
    TripleAll (· = s) (normalizeLoops markers check a) (fun _ => K []) E := by
  unfold normalizeLoops
  refine TripleAll.get_bind ?_
  rintro t rfl
  rw [hloops]
  let key (m : Loop × SingleExitLoop × LoopMasks) : Loop × SingleExitLoop := (m.1, m.2.1)
  refine TripleAll.bind (R := fun masks u => K masks u ∧ masks.map key = loops) ?_
    fun masks => TripleAll.assume fun hmasks => ?_
  · refine (TripleAll.mapM (J := fun rest done u => J done u ∧ done.map key ++ rest = loops)
      loops ?_ []).mono ?_ ?_
    · rintro ⟨l, shape⟩ rest done hmem
      refine TripleAll.assume fun hdone => TripleAll.bind (TripleAll.lift (hmade l shape done hmem))
        fun m => TripleAll.pure fun u hu => ⟨hu, ?_⟩
      rw [List.map_append, List.append_assoc]
      exact hdone
    · rintro u rfl
      exact ⟨hs, rfl⟩
    · rintro masks u ⟨hu, e⟩
      rw [List.append_nil] at e
      exact ⟨hstart masks u e hu, e⟩
  · refine TripleAll.bind (TripleAll.forIn (J := K) masks ?_) fun _ => TripleAll.pure fun _ h => h
    rintro ⟨l, shape, m⟩ rest hmem
    have hmem : (l, shape) ∈ loops := hmasks ▸ List.mem_map_of_mem (f := key) hmem
    exact TripleAll.bind (TripleAll.lift (hleft l shape m rest hmem)) fun _ =>
      TripleAll.pure fun u hu => ⟨rfl, hu⟩

/-- Normalizing loops keeps a stage prepared. -/
theorem triple_normalizeLoops {markers : Markers} (hs : s.Valid) :
    TripleOk (· = s) (normalizeLoops markers Loop.singleExit (.ofFunc s.func)) fun _ =>
      Prepared s [] := by
  cases hloops : divergentLoops Loop.singleExit (.ofFunc s.func) s with
  | error x => exact (tripleAll_normalizeLoops_of_error hloops).ok
  | ok loops =>
    have htests := hasExitTest_of_divergentLoops hs.func hloops
    -- the conditions exist from the start, the mask phis as soon as they are made
    let known (masks : List (Loop × SingleExitLoop × LoopMasks)) : List Value :=
      loops.map (·.2.cond) ++ masks.map fun m => .inst m.2.2.entered
    have hknown : PreparedWith s [] (known []) s := by
      refine ⟨.refl hs, fun v hv => ?_⟩
      have hv : v ∈ loops.map (·.2.cond) ++ [] := hv
      rw [List.append_nil] at hv
      obtain ⟨e, he, rfl⟩ := List.mem_map.mp hv
      exact (htests e he).cond
    refine ((tripleAll_normalizeLoops_of (E := fun _ _ => True)
      (J := fun masks => PreparedWith s [] (known masks))
      (K := fun masks => PreparedWith s [] (known masks)) hloops hknown ?_
      (fun _ _ _ h => h) ?_).ok).mono (fun _ h => h) fun _ _ h => h.1
    · intro l shape done _
      refine (triple_addLoopMasks l shape (known done)).mono (fun _ h => h) fun m u hu =>
        hu.mono fun v hv => ?_
      simp only [known, List.map_append, List.mem_append, List.map_singleton, List.mem_cons] at hv ⊢
      tauto
    · intro l shape m rest hmem
      refine Triple.mono (P := PreparedWith s [] (known ((l, shape, m) :: rest)))
        (triple_normalizeLoop (htests _ hmem) ?_ ?_) (fun _ h => h)
        fun _ u hu => hu.mono fun v hv => ?_
      · exact List.mem_append_left _ (List.mem_map.mpr ⟨_, hmem, rfl⟩)
      · exact List.mem_append_right _ List.mem_cons_self
      · rcases List.mem_append.mp hv with hv | hv
        · exact List.mem_append_left _ hv
        · exact List.mem_append_right _ (List.mem_cons_of_mem _ hv)

end Stage

end Lockstep
