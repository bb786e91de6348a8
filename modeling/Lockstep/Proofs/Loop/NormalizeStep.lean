import Lockstep.Proofs.Func.Placed
import Lockstep.Proofs.Loop.SingleExit
import Lockstep.Proofs.Vector.MaskStep

/-!
# What normalizing loops does

While a loop is normalized, the stage changes in small steps (`NormalizeStep`): a mask, a shape or a
mark is recorded, an operation or a phi is added, a phi gets an entry for an edge of the graph, or
uses after the loop are redirected. In the end the loop gets its new exit test. `NormalizeRun` is what
normalizing several loops amounts to (`tripleAll_normalizeLoops`): what its steps preserve, the whole
run preserves.
-/

namespace Lockstep

namespace Stage

/-! ## Steps -/

/-- A step of normalizing the loop `l` of the graph `g`; shapes are recorded for no instruction before
`n`. -/
inductive NormalizeStep (g : Cfg) (l : Loop) (n : Nat) (s : Stage) : Stage → Prop
  | blockMask (b : BlockId) (v : Value) : NormalizeStep g l n s
    { s with info := s.info.setPredicate b v, masks := s.masks.setBlock b v }
  | edgeMask (p q : BlockId) (v : Value) : NormalizeStep g l n s
    { s with masks := s.masks.setEdge p q v }
  | divergent (b : BlockId) (divergent : Bool) : NormalizeStep g l n s
    { s with info := s.info.setDivergent b divergent }
  | shape (i : InstId) (shape : Shape) (hi : n ≤ i) : NormalizeStep g l n s
    { s with info := s.info.setShape (.inst i) shape }
  | op (b : BlockId) (code : Opcode) (args : List Value) (ty : Ty) : NormalizeStep g l n s
    { s with func := (s.func.append b { op := .apply code args, ty, block := b }).2 }
  | phi (b : BlockId) (ty : Ty) (incoming : List (BlockId × Value))
    (hi : ∀ e ∈ incoming, e.1 ∈ g.preds b) : NormalizeStep g l n s
    { s with func := (s.func.appendPhi b ty incoming).2 }
  | entry {phi : InstId} {pred : BlockId} (v : Value)
    (hpred : pred ∈ g.preds (s.func.inst phi).block) : NormalizeStep g l n s
    { s with func := s.func.setIncoming phi pred v }
  | redirect (i : InstId) (v : Value) (us : List User)
    (hi : (s.func.inst i).block ∈ l.blocks) (hus : ∀ u ∈ us, s.func.userBlock u ∉ l.blocks) :
    NormalizeStep g l n s { s with func := s.func.substUsers (.single (.inst i) v) us }

variable {g : Cfg} {l : Loop} {n m : Nat} {s t u : Stage} {b : BlockId}

theorem MaskStep.normalize (h : MaskStep g n s t) : NormalizeStep g l n s t := by
  cases h with
  | blockMask b v => exact .blockMask b v
  | edgeMask p q v => exact .edgeMask p q v
  | shape i shape hi => exact .shape i shape hi
  | gate b op args ty => exact .op b (.binary op) args ty
  | phi b => exact .phi b .bool [] fun e he => absurd he List.not_mem_nil
  | entry v hphi hpred => exact .entry v hpred

namespace NormalizeStep

theorem mono (h : NormalizeStep g l n s t) (hm : m ≤ n) : NormalizeStep g l m s t := by
  cases h with
  | blockMask b v => exact .blockMask b v
  | edgeMask p q v => exact .edgeMask p q v
  | divergent b divergent => exact .divergent b divergent
  | shape i shape hi => exact .shape i shape (Nat.le_trans hm hi)
  | op b code args ty => exact .op b code args ty
  | phi b ty incoming hi => exact .phi b ty incoming hi
  | entry v hpred => exact .entry v hpred
  | redirect i v us hi hus => exact .redirect i v us hi hus

/-! ## What a step preserves -/

theorem size_le (h : NormalizeStep g l n s t) : s.func.insts.size ≤ t.func.insts.size := by
  cases h with
  | op b code args ty => exact Nat.le_of_lt (Nat.lt_of_lt_of_eq (Nat.lt_succ_self _)
      (Func.size_insts_insertAt _ _ _ _).symm)
  | phi b ty incoming hi => exact Nat.le_of_lt (Nat.lt_of_lt_of_eq (Nat.lt_succ_self _)
      (Func.size_insts_insertAt _ _ _ _).symm)
  | entry v hpred => exact Nat.le_of_eq (Func.size_insts_modifyIncoming _ _ _).symm
  | redirect i v us hi hus => exact Nat.le_of_eq (Func.size_insts_substUsers _ _ _).symm
  | _ => exact Nat.le_refl _

/-- An instruction keeps its block. -/
theorem standsIn (h : NormalizeStep g l n s t) {i : InstId} (hi : s.func.StandsIn i b) :
    t.func.StandsIn i b := by
  cases h with
  | op c code args ty => exact hi.insertAt _ _ _
  | phi c ty incoming hin => exact hi.insertAt _ _ _
  | entry v hpred =>
    exact ⟨Nat.lt_of_lt_of_eq hi.1 (Func.size_insts_modifyIncoming _ _ _).symm,
      (Func.block_modifyIncoming _ _ _ _).trans hi.2⟩
  | redirect j v us hj hus =>
    have hsingle := Substitution.single_idempotent (.inst j) v
    exact ⟨Nat.lt_of_lt_of_eq hi.1 (Func.size_insts_substUsers _ _ _).symm,
      (Func.block_substUsers _ hsingle us i).trans hi.2⟩
  | _ => exact hi

theorem placed (h : NormalizeStep g l n s t) (hs : s.func.Placed) : t.func.Placed := by
  cases h with
  | op b code args ty => exact hs.insertAt _ _ _
  | phi b ty incoming hin => exact hs.insertAt _ _ _
  | entry v hpred =>
    exact hs.refits (Func.refits_modifyIncoming _ _ _) (Func.block_modifyIncoming _ _ · _)
  | redirect j v us hj hus =>
    have hsingle := Substitution.single_idempotent (.inst j) v
    exact hs.refits (Func.refits_substUsers _ hsingle us) (Func.block_substUsers _ hsingle us)
  | _ => exact hs

/-- Nothing gets listed twice. -/
theorem listsOnce (h : NormalizeStep g l n s t) (hs : s.func.ListsOnce) : t.func.ListsOnce := by
  cases h with
  | op b code args ty => exact hs.insertAt _ _ _
  | phi b ty incoming hin => exact hs.insertAt _ _ _
  | entry v hpred =>
    exact hs.refits (Func.refits_modifyIncoming _ _ _) (Func.block_modifyIncoming _ _ · _)
  | redirect j v us hj hus =>
    have hsingle := Substitution.single_idempotent (.inst j) v
    exact hs.refits (Func.refits_substUsers _ hsingle us) (Func.block_substUsers _ hsingle us)
  | _ => exact hs

/-- An instruction of a block stood there, or is new. -/
theorem mem_body (h : NormalizeStep g l n s t) {i : InstId} (hi : i ∈ t.func.body b) :
    i ∈ s.func.body b ∨ s.func.insts.size ≤ i := by
  cases h with
  | op c code args ty => exact (Func.mem_body_insertAt _ hi).imp_right fun h => Nat.le_of_eq h.1.symm
  | phi c ty incoming hin =>
    exact (Func.mem_body_insertAt _ hi).imp_right fun h => Nat.le_of_eq h.1.symm
  | entry v hpred => exact .inl hi
  | redirect j v us hj hus =>
    have hi : i ∈ (s.func.substUsers _ us).body b := hi
    rw [Func.body_substUsers] at hi
    exact .inl hi
  | _ => exact .inl hi

theorem size_blocks (h : NormalizeStep g l n s t) : t.func.blocks.size = s.func.blocks.size := by
  cases h with
  | op b code args ty => exact Func.size_blocks_insertAt _ _ _ _
  | phi b ty incoming hi => exact Func.size_blocks_insertAt _ _ _ _
  | entry v hpred => exact Func.size_blocks_modifyIncoming _ _ _
  | redirect i v us hi hus => exact Func.size_blocks_substUsers _ _ _
  | _ => rfl

/-- A shape is kept, but for the instructions from `n` on. -/
theorem shape_eq (h : NormalizeStep g l n s t) {v : Value} (hv : ∀ i, v = .inst i → i < n) :
    t.info.shape v = s.info.shape v := by
  cases h with
  | shape i shape hi =>
    show (s.info.setShape (.inst i) shape).shape v = _
    rw [VectorInfo.shape_setShape, if_neg]
    rintro ⟨rfl, -⟩
    exact Nat.not_lt_of_le hi (hv i rfl)
  | _ => rfl

theorem region (h : NormalizeStep g l n s t) : t.info.region = s.info.region := by
  cases h <;> rfl

/-- A terminator is kept, or it stands outside the loop and takes another value for one that was
computed in the loop. -/
theorem term (h : NormalizeStep g l n s t) (b : BlockId) :
    t.func.term b = s.func.term b ∨ b ∉ l.blocks ∧ ∃ i v, (s.func.inst i).block ∈ l.blocks ∧
      t.func.term b = (s.func.term b).map id (Substitution.single (.inst i) v).value := by
  cases h with
  | op c code args ty => exact .inl (Func.term_insertAt _ _ _ _ _)
  | phi c ty incoming hin => exact .inl (Func.term_insertAt _ _ _ _ _)
  | entry v hpred => exact .inl (Func.term_modifyIncoming _ _ _ _)
  | redirect i v us hi hus =>
    have e := Func.term_substUsers s.func us (Substitution.single_idempotent (.inst i) v) b
    split at e
    · rename_i hb
      exact .inr ⟨hus _ hb, i, v, hi, e⟩
    · exact .inl e
  | _ => exact .inl rfl

theorem targets (h : NormalizeStep g l n s t) (b : BlockId) :
    (t.func.term b).targets = (s.func.term b).targets := by
  rcases h.term b with e | ⟨-, i, v, -, e⟩
  · rw [e]
  · rw [e, Terminator.targets_map, List.map_id]

/-- The entries of a phi stay entries for edges of the graph. -/
theorem mem_preds (h : NormalizeStep g l n s t) {i : InstId}
    (hi : ∀ e ∈ (s.func.inst i).incoming, e.1 ∈ g.preds (s.func.inst i).block) :
    ∀ e ∈ (t.func.inst i).incoming, e.1 ∈ g.preds (t.func.inst i).block := by
  cases h with
  | op b code args ty =>
    show ∀ e ∈ ((s.func.insertAt _ _ _).2.inst i).incoming,
      e.1 ∈ g.preds ((s.func.insertAt _ _ _).2.inst i).block
    rw [Func.inst_insertAt]
    split
    · exact fun e he => absurd he List.not_mem_nil
    · exact hi
  | phi b ty incoming hin =>
    show ∀ e ∈ ((s.func.insertAt _ _ _).2.inst i).incoming,
      e.1 ∈ g.preds ((s.func.insertAt _ _ _).2.inst i).block
    rw [Func.inst_insertAt]
    split
    · exact hin
    · exact hi
  | @entry phi pred v hpred =>
    show ∀ e ∈ ((s.func.modifyIncoming _ _).inst i).incoming,
      e.1 ∈ g.preds ((s.func.modifyIncoming _ _).inst i).block
    rw [Func.block_modifyIncoming, Func.inst_modifyIncoming]
    split
    · rename_i hphi
      intro e he
      rcases Func.mem_setEntry (Func.mem_incoming_mapIncoming he) with he | rfl
      · exact hi e he
      · exact hphi ▸ hpred
    · exact hi
  | redirect j v us hj hus =>
    have hsingle := Substitution.single_idempotent (.inst j) v
    show ∀ e ∈ ((s.func.substUsers _ _).inst i).incoming,
      e.1 ∈ g.preds ((s.func.substUsers _ _).inst i).block
    intro e he
    have he := List.mem_map_of_mem (f := Prod.fst) he
    rw [Func.map_fst_incoming_substUsers _ hsingle fun _ => rfl] at he
    obtain ⟨e', he', e1⟩ := List.mem_map.mp he
    rw [Func.block_substUsers _ hsingle, ← e1]
    exact hi e' he'
  | _ => exact hi

/-- A block whose phis have entries for edges of the graph keeps to them. -/
theorem entersAlong (h : NormalizeStep g l n s t) (hs : s.func.Placed)
    (hb : s.func.EntersAlong g b) : t.func.EntersAlong g b := by
  intro i hi
  rw [← (h.placed hs b i hi).2]
  refine h.mem_preds fun e he => ?_
  rcases h.mem_body hi with hold | hnew
  · rw [(hs b i hold).2]
    exact hb i hold e he
  · rw [s.func.inst_of_size_le hnew] at he
    exact absurd he List.not_mem_nil

end NormalizeStep

/-- What normalizing the loop `l` has led to, from a stage `s` with at least `n` instructions. -/
structure NormalizeSteps (g : Cfg) (l : Loop) (n : Nat) (s t : Stage) : Prop where
  steps : Relation.ReflTransGen (NormalizeStep g l n) s t
  le : n ≤ t.func.insts.size

namespace NormalizeSteps

theorem refl (h : n ≤ s.func.insts.size) : NormalizeSteps g l n s s := ⟨.refl, h⟩

theorem trans (h : NormalizeSteps g l n s t) (k : NormalizeSteps g l n t u) :
    NormalizeSteps g l n s u :=
  ⟨h.steps.trans k.steps, k.le⟩

theorem step (h : NormalizeSteps g l n s t) (k : NormalizeStep g l n t u) :
    NormalizeSteps g l n s u :=
  ⟨h.steps.tail k, Nat.le_trans h.le k.size_le⟩

theorem mono (h : NormalizeSteps g l n s t) (hm : m ≤ n) : NormalizeSteps g l m s t :=
  ⟨Relation.ReflTransGen.mono (fun _ _ k => k.mono hm) _ _ h.steps, Nat.le_trans hm h.le⟩

/-- What each step preserves is preserved. -/
theorem invariant {J : Stage → Prop} (h : NormalizeSteps g l n s t) (hs : J s)
    (step : ∀ {t u}, NormalizeStep g l n t u → J t → J u) : J t := by
  obtain ⟨h, -⟩ := h
  induction h with
  | refl => exact hs
  | tail _ h ih => exact step h ih

theorem size_le (h : NormalizeSteps g l n s t) : s.func.insts.size ≤ t.func.insts.size :=
  h.invariant (J := fun u => s.func.insts.size ≤ u.func.insts.size) (Nat.le_refl _)
    fun h hu => Nat.le_trans hu h.size_le

theorem standsIn (h : NormalizeSteps g l n s t) {i : InstId} (hi : s.func.StandsIn i b) :
    t.func.StandsIn i b :=
  h.invariant (J := fun u => u.func.StandsIn i b) hi fun h hu => h.standsIn hu

theorem placed (h : NormalizeSteps g l n s t) (hs : s.func.Placed) : t.func.Placed :=
  h.invariant (J := fun u => u.func.Placed) hs fun h hu => h.placed hu

theorem shape_eq (h : NormalizeSteps g l n s t) {v : Value} (hv : ∀ i, v = .inst i → i < n) :
    t.info.shape v = s.info.shape v :=
  h.invariant (J := fun u => u.info.shape v = s.info.shape v) rfl
    fun h hu => (h.shape_eq hv).trans hu

theorem targets (h : NormalizeSteps g l n s t) (b : BlockId) :
    (t.func.term b).targets = (s.func.term b).targets :=
  h.invariant (J := fun u => (u.func.term b).targets = (s.func.term b).targets) rfl
    fun h hu => (h.targets b).trans hu

theorem size_blocks (h : NormalizeSteps g l n s t) :
    t.func.blocks.size = s.func.blocks.size :=
  h.invariant (J := fun u => u.func.blocks.size = s.func.blocks.size) rfl
    fun h hu => h.size_blocks.trans hu

theorem listsOnce (h : NormalizeSteps g l n s t) (hs : s.func.ListsOnce) : t.func.ListsOnce :=
  h.invariant (J := fun u => u.func.ListsOnce) hs fun h hu => h.listsOnce hu

theorem entersAlong (h : NormalizeSteps g l n s t) (hs : s.func.Placed)
    (hb : s.func.EntersAlong g b) : t.func.EntersAlong g b :=
  (h.invariant (J := fun u => u.func.Placed ∧ u.func.EntersAlong g b) ⟨hs, hb⟩
    fun h hu => ⟨h.placed hu.1, h.entersAlong hu.1 hu.2⟩).2

end NormalizeSteps

theorem MaskSteps.normalize (h : MaskSteps g n s t) : NormalizeSteps g l n s t :=
  ⟨Relation.ReflTransGen.mono (fun _ _ h => h.normalize) _ _ h.steps, h.le⟩

/-! ## A loop takes only these steps -/

/-- A computation takes only steps of normalizing, on a stage that stays placed. -/
def Normalizing (g : Cfg) (l : Loop) (n : Nat) (s t : Stage) : Prop :=
  NormalizeSteps g l n s t ∧ t.func.Placed

theorem Normalizing.step (h : Normalizing g l n s t) (k : NormalizeStep g l n t u) :
    Normalizing g l n s u :=
  ⟨h.1.step k, k.placed h.2⟩

theorem Normalizing.masks (h : Normalizing g l n s t) (k : MaskSteps g n t u) :
    Normalizing g l n s u :=
  ⟨h.1.trans k.normalize, k.normalize (l := l).placed h.2⟩

/-- A mask that is asked for takes steps of normalizing. -/
theorem TakesMaskSteps.triple {α : Type} {M : StateM Stage α} {Q : α → Stage → Prop}
    (hm : TakesMaskSteps g n M Q) :
    Triple (Normalizing g l n s) M fun _ => Normalizing g l n s := by
  intro t a u ht e
  exact ht.masks (hm t t a u (.refl ht.1.le) e).1

/-- The mask phis of a loop stand in its header. -/
structure PlacesMasks (t : Stage) (header : BlockId) (masks : LoopMasks) : Prop where
  live : t.func.StandsIn masks.live header
  entered : t.func.StandsIn masks.entered header

theorem NormalizeSteps.placesMasks (h : NormalizeSteps g l n s t) {header : BlockId}
    {masks : LoopMasks} (hs : s.PlacesMasks header masks) : t.PlacesMasks header masks :=
  ⟨h.standsIn hs.live, h.standsIn hs.entered⟩

/-- A phi is added to the header, and what each step preserves is preserved. -/
theorem triple_appendPhi_steps {P : Stage → Prop}
    (hP : ∀ {t u}, NormalizeStep g l n t u → P t → P u) (b : BlockId) (ty : Ty)
    {incoming : List (BlockId × Value)} (hi : ∀ e ∈ incoming, e.1 ∈ g.preds b) :
    Triple (fun t => Normalizing g l n s t ∧ P t) (appendPhi b ty incoming) fun phi t =>
      (Normalizing g l n s t ∧ P t ∧ t.func.StandsIn phi b) ∧ n ≤ phi := by
  refine triple_appendPhi fun t ht => ?_
  have hstep : NormalizeStep g l n t _ := .phi b ty incoming hi
  exact ⟨⟨ht.1.step hstep, hP hstep ht.2, Func.standsIn_insertAt _ _ _ _⟩, ht.1.1.le⟩

/-- The mask phis are made in the header. -/
theorem triple_addLoopMasks_steps (shape : SingleExitLoop) :
    Triple (Normalizing g l n s) (addLoopMasks l shape) fun m t =>
      Normalizing g l n s t ∧ t.PlacesMasks shape.header m := by
  let header := shape.header
  have hnil : ∀ e ∈ ([] : List (BlockId × Value)), e.1 ∈ g.preds header :=
    fun e he => absurd he List.not_mem_nil
  unfold addLoopMasks
  refine Triple.bind ((triple_appendPhi_steps (P := fun _ => True) (fun _ h => h) header .bool
    hnil).mono (fun _ ht => ⟨ht, trivial⟩) fun _ _ h => h) fun live => Triple.assume fun hlive => ?_
  refine Triple.bind ((triple_appendPhi_steps (P := fun t => t.func.StandsIn live header)
    (fun h ht => h.standsIn ht) header .bool hnil).mono (fun _ ht => ⟨ht.1, ht.2.2⟩)
    fun _ _ h => h) fun entered => Triple.assume fun hentered => ?_
  let Done (t : Stage) : Prop :=
    Normalizing g l n s t ∧ t.PlacesMasks header { live, entered }
  have hstep {t u : Stage} (h : NormalizeStep g l n t u) (ht : Done t) : Done u :=
    ⟨ht.1.step h, h.standsIn ht.2.live, h.standsIn ht.2.entered⟩
  refine Triple.bind (R := fun _ => Done) (triple_setShape fun t ht =>
    hstep (.shape live .vary hlive) ⟨ht.1, ht.2.1, ht.2.2⟩) fun _ => ?_
  refine Triple.bind (R := fun _ => Done) (triple_setShape fun t ht =>
    hstep (.shape entered .vary hentered) ht) fun _ => ?_
  refine Triple.bind (R := fun _ => Done) (triple_setBlockMask fun t ht =>
    hstep (.blockMask _ _) ht) fun _ => ?_
  refine Triple.bind (R := fun _ => Done) (triple_setEdgeMask fun t ht =>
    hstep (.edgeMask _ _ _) ht) fun _ => ?_
  refine Triple.bind (R := fun _ => Done) (Triple.forIn (J := fun _ => Done) _ ?_)
    fun _ => Triple.pure fun t ht => ht
  exact fun b tail _ => Triple.yield (triple_modifyInfo fun t ht => hstep (.divergent b true) ht)

theorem triple_setIncoming_steps {header pred : BlockId} {phi : InstId}
    (hs : s.func.StandsIn phi header) (hpred : pred ∈ g.preds header) (v : Value) :
    Triple (Normalizing g l n s) (modifyFunc (·.setIncoming phi pred v)) fun _ =>
      Normalizing g l n s :=
  triple_modifyFunc fun _ ht => ht.step (.entry v ((ht.1.standsIn hs).2 ▸ hpred))

/-! ### Trackers -/

/-- A value of the loop gets its tracker. -/
theorem triple_track_steps {shape : SingleExitLoop} {exitNow : Value} {i : InstId} {c : BlockId}
    (hi : s.func.StandsIn i c) (hc : c ∈ l.blocks)
    (hpre : shape.preheader ∈ g.preds shape.header) (hlatch : shape.latch ∈ g.preds shape.header)
    (hn : i < n) :
    Triple (Normalizing g l n s) (track l shape exitNow i) fun _ => Normalizing g l n s := by
  unfold track
  refine Triple.bind Triple.get fun _ => ?_
  refine Triple.bind ((triple_appendPhi_steps (P := fun _ => True) (fun _ h => h) shape.header
    _ ?_).mono (fun u hu => ⟨hu.2, trivial⟩) fun _ _ h => h) fun tracker =>
      Triple.assume fun htracker => ?_
  · rintro e he
    rw [List.mem_singleton.mp he]
    exact hpre
  have hne : Value.inst i ≠ .inst tracker := by
    rintro ⟨⟩
    exact Nat.not_lt_of_le htracker hn
  refine Triple.bind (R := fun tracked u => (Normalizing g l n s u ∧
    u.func.StandsIn tracker shape.header) ∧ ∃ j, tracked = .inst j ∧ n ≤ j) ?_ fun tracked =>
      Triple.assume fun htracked => ?_
  · rintro u tracked u' ⟨hu, -, hstands⟩ e
    have hstep : NormalizeStep g l n u { u with func := (u.func.append shape.exiting
        { op := .apply .select [exitNow, .inst i, .inst tracker], ty := u.func.typeOf (.inst i)
          block := shape.exiting }).2 } := .op _ _ _ _
    have e : build (.blockEnd shape.exiting) (Build.select exitNow (.inst i) (.inst tracker)) u =
        (tracked, u') := e
    unfold build buildOn Build.select at e
    rw [if_neg hne] at e
    cases e
    exact ⟨⟨hu.step hstep, hstep.standsIn hstands⟩, _, rfl, hu.1.le⟩
  obtain ⟨j, rfl, hj⟩ := htracked
  refine Triple.bind (R := fun _ => Normalizing g l n s) (triple_modifyFunc fun u hu =>
    hu.1.step (.entry _ (hu.2.2 ▸ hlatch))) fun _ => ?_
  refine Triple.bind (R := fun _ => Normalizing g l n s) (triple_modifyFunc fun u hu => ?_)
    fun _ => ?_
  · refine hu.step (.redirect i (.inst j) _ ((hu.1.standsIn hi).2 ▸ hc) fun w hw => ?_)
    simpa [Loop.contains] using (List.mem_filter.mp hw).2
  refine Triple.bind (R := fun _ => Normalizing g l n s) (triple_setShape fun u hu =>
    hu.step (.shape tracker .vary htracker)) fun _ => ?_
  exact triple_setShape fun u hu => hu.step (.shape j .vary hj)

/-! ### Exit tests -/

/-- Whether an instruction of a block asks a uniform question. -/
structure IsExitTest (t : Stage) (b : BlockId) (i : InstId) : Prop where
  standsIn : t.func.StandsIn i b
  uniform : t.info.isUniform (.inst i) = true

theorem NormalizeSteps.isExitTest (h : NormalizeSteps g l n s t) {i : InstId}
    (hi : s.IsExitTest b i) (hn : i < n) : t.IsExitTest b i where
  standsIn := h.standsIn hi.standsIn
  uniform := by
    rw [VectorInfo.isUniform, h.shape_eq (v := .inst i) fun j e => by cases e; exact hn]
    exact hi.uniform

/-- The stage in which a loop asks its new question. -/
def withExitTest (t : Stage) (shape : SingleExitLoop) (i : InstId) : Stage :=
  { t with
    func := t.func.setTerm shape.exiting (.brIf (.inst i) shape.continueTarget shape.exit) }

/-- The condition to leave and the lanes that leave now are new, or operands, and the question whether
any lane stays is new. -/
theorem normalizing_exitTest (markers : Markers) (shape : SingleExitLoop) (mask stay : Value)
    (ht : Normalizing g l n s t) :
    let r := exitTest markers shape mask stay ⟨t.func, .blockEnd shape.exiting⟩
    (Normalizing g l n s { t with func := r.2.func } ∧ r.2.func.StandsIn r.1.2.2 shape.exiting) ∧
      n ≤ r.1.2.2 ∧ ∀ v ∈ [r.1.1, r.1.2.1], ∀ i, v = .inst i → v ≠ shape.cond → v ≠ mask → n ≤ i := by
  have hcond : (if shape.stayOnTrue then Build.not shape.cond else pure shape.cond) =
      takenBy shape.cond (shape.stayOnTrue = false) := by
    unfold takenBy
    cases shape.stayOnTrue <;> rfl
  simp only [exitTest_apply]
  rw [hcond]
  have htaken := gateSteps_takenBy (.refl ht.1.le) shape.exiting shape.cond
    (shape.stayOnTrue = false) (t := t) (g := g)
  rcases hr : takenBy shape.cond (shape.stayOnTrue = false) ⟨t.func, .blockEnd shape.exiting⟩ with
    ⟨exitCond, f1, point1⟩
  rw [hr] at htaken
  obtain ⟨hsteps, hpoint, hnew⟩ := htaken
  cases hpoint
  have hand := gateSteps_and hsteps shape.exiting mask exitCond
  rcases hr' : Build.and mask exitCond ⟨f1, .blockEnd shape.exiting⟩ with ⟨exitNow, f2, point2⟩
  rw [hr'] at hand
  obtain ⟨hsteps', hpoint, hnew'⟩ := hand
  cases hpoint
  have ht' := ht.masks hsteps'
  have hany : NormalizeStep g l n { t with func := f2 } _ :=
    .op shape.exiting (.call (markers.func .any)) [stay] .bool
  have htaken : ∀ i, exitCond = .inst i → exitCond ≠ shape.cond → n ≤ i := fun i e hne =>
    (hnew i e).resolve_left fun hmem => hne (List.mem_singleton.mp hmem)
  refine ⟨⟨ht'.step hany, Func.standsIn_insertAt _ _ _ _⟩, ht'.1.le, fun v hv i e hne hne' => ?_⟩
  rcases List.mem_pair.mp hv with rfl | rfl
  · exact htaken i e hne
  · rcases hnew' i e with hmem | hi
    · rcases List.mem_pair.mp hmem with hmask | htake
      · exact absurd hmask hne'
      · exact htaken i (htake ▸ e) (htake ▸ hne)
    · exact hi

/-- A loop is normalized by steps, after which its exiting block asks a uniform question. -/
theorem triple_normalizeLoop_steps {markers : Markers} {shape : SingleExitLoop} {masks : LoopMasks}
    (hm : s.PlacesMasks shape.header masks) (hp : s.func.Placed)
    (hpre : shape.preheader ∈ g.preds shape.header) (hlatch : shape.latch ∈ g.preds shape.header) :
    Triple (· = s) (normalizeLoop markers g l shape masks) fun _ t => ∃ u i,
      NormalizeSteps g l s.func.insts.size s u ∧ u.IsExitTest shape.exiting i ∧
        t = u.withExitTest shape i := by
  let N := Normalizing g l s.func.insts.size s
  have hstart : ∀ t, t = s → N t := by
    rintro t rfl
    exact ⟨.refl (Nat.le_refl _), hp⟩
  refine Triple.mono ?_ hstart fun _ _ h => h
  unfold normalizeLoop
  refine Triple.bind (takesMaskSteps_edgeMask _ _).triple fun entering => ?_
  refine Triple.bind (takesMaskSteps_edgeMask _ _).triple fun stay => ?_
  refine Triple.bind (takesMaskSteps_blockMask _).triple fun exitingMask => ?_
  refine Triple.bind (triple_setIncoming_steps hm.live hpre _) fun _ => ?_
  refine Triple.bind (triple_setIncoming_steps hm.live hlatch _) fun _ => ?_
  refine Triple.bind (triple_setIncoming_steps hm.entered hpre _) fun _ => ?_
  refine Triple.bind (triple_setIncoming_steps hm.entered hlatch _) fun _ => ?_
  refine Triple.bind (R := fun r t => (N t ∧ t.func.StandsIn r.2.2 shape.exiting) ∧
    s.func.insts.size ≤ r.2.2 ∧ ∀ v ∈ [r.1, r.2.1], ∀ i, v = .inst i → v ≠ shape.cond →
      v ≠ exitingMask → s.func.insts.size ≤ i) ?_ fun r => Triple.assume fun hr => ?_
  · intro t r u ht e
    have e : build (.blockEnd shape.exiting) (exitTest markers shape exitingMask stay) t =
        (r, u) := e
    have h := normalizing_exitTest markers shape exitingMask stay ht
    cases e
    exact h
  obtain ⟨exitCond, exitNow, any⟩ := r
  obtain ⟨hany, hvary⟩ := hr
  dsimp only at hany hvary ⊢
  let Asks (t : Stage) : Prop := N t ∧ t.func.StandsIn any shape.exiting
  refine Triple.bind (R := fun _ => Asks) ?_ fun _ => ?_
  · refine triple_forIn_setShape fun v hv hne t ht => ?_
    rw [Bool.and_eq_true, Bool.and_eq_true, bne_iff_ne, bne_iff_ne] at hne
    obtain ⟨⟨hne, hne'⟩, hsome⟩ := hne
    obtain ⟨i, rfl⟩ := v.eq_inst_of_isSome hsome
    have hstep : NormalizeStep g l s.func.insts.size t _ :=
      .shape i .vary (hvary _ hv i rfl hne hne')
    exact ⟨ht.1.step hstep, hstep.standsIn ht.2⟩
  refine Triple.bind (R := fun _ t => N t ∧ t.IsExitTest shape.exiting any)
    (triple_setShape fun t ht => ?_) fun _ => ?_
  · have hstep : NormalizeStep g l s.func.insts.size t _ := .shape any .uni hany
    refine ⟨ht.1.step hstep, hstep.standsIn ht.2, ?_⟩
    show (t.info.setShape (.inst any) .uni).isUniform (.inst any) = true
    rw [VectorInfo.isUniform, VectorInfo.shape_setShape, if_pos ⟨rfl, rfl⟩]
    rfl
  refine Triple.bind Triple.get fun t => ?_
  -- from here on no shape is recorded but for what is new, so that the question stays uniform
  refine Triple.bind (R := fun _ u => Normalizing g l t.func.insts.size t u ∧ N t ∧
    t.IsExitTest shape.exiting any) ?_ fun _ => ?_
  · refine (Triple.forIn (J := fun _ u => Normalizing g l t.func.insts.size t u ∧ N t ∧
      t.IsExitTest shape.exiting any) (liveOuts t.func l) ?_).mono ?_ fun _ _ h => h
    · intro i tail hi
      refine Triple.assume fun ht => ?_
      obtain ⟨b, hb, hib⟩ := List.mem_flatMap.mp (List.mem_filter.mp hi).1
      have hstands := ht.1.2 b i hib
      exact Triple.yield ((triple_track_steps hstands hb hpre hlatch hstands.1).mono
        (fun _ h => h) fun _ _ hu => ⟨hu, ht⟩)
    · rintro u ⟨rfl, hu⟩
      exact ⟨⟨.refl (Nat.le_refl _), hu.1.2⟩, hu⟩
  refine triple_modifyFunc fun u hu => ⟨u, any, ?_, ?_, rfl⟩
  · exact hu.2.1.1.trans (hu.1.1.mono hu.2.1.1.le)
  · exact hu.1.1.isExitTest hu.2.2 hu.2.2.standsIn.1

/-! ## Runs -/

/-- What normalizing loops of the graph `g` has led to: steps for one loop after the other, and new
exit tests. -/
inductive NormalizeRun (g : Cfg) (loops : List (Loop × SingleExitLoop)) (s : Stage) : Stage → Prop
  | refl : NormalizeRun g loops s s
  | steps {t u : Stage} {e : Loop × SingleExitLoop} (h : NormalizeRun g loops s t) (he : e ∈ loops)
    (k : NormalizeSteps g e.1 t.func.insts.size t u) : NormalizeRun g loops s u
  | exit {t : Stage} {e : Loop × SingleExitLoop} {i : InstId} (h : NormalizeRun g loops s t)
    (he : e ∈ loops) (hi : t.IsExitTest e.2.exiting i)
    (ht : ∀ c, c ∈ (t.func.term e.2.exiting).targets ↔ c = e.2.continueTarget ∨ c = e.2.exit) :
    NormalizeRun g loops s (t.withExitTest e.2 i)

theorem refits_withExitTest (t : Stage) (shape : SingleExitLoop) (i : InstId) :
    t.func.Refits (t.withExitTest shape i).func :=
  Func.refits_setTerm _ _ _

namespace NormalizeRun

variable {loops : List (Loop × SingleExitLoop)}

theorem size_le (h : NormalizeRun g loops s t) : s.func.insts.size ≤ t.func.insts.size := by
  induction h with
  | refl => exact Nat.le_refl _
  | steps _ _ k ih => exact Nat.le_trans ih k.size_le
  | exit _ _ _ _ ih => exact ih

/-- Where there are no loops to normalize, nothing changes. -/
theorem eq_of_nil (h : NormalizeRun g [] s t) : t = s := by
  induction h with
  | refl => rfl
  | steps _ he _ _ => exact absurd he List.not_mem_nil
  | exit _ he _ _ _ => exact absurd he List.not_mem_nil

theorem standsIn (h : NormalizeRun g loops s t) {i : InstId} (hi : s.func.StandsIn i b) :
    t.func.StandsIn i b := by
  induction h with
  | refl => exact hi
  | steps _ _ k ih => exact k.standsIn ih
  | exit _ _ _ _ ih => exact ih

theorem placed (h : NormalizeRun g loops s t) (hs : s.func.Placed) : t.func.Placed := by
  induction h with
  | refl => exact hs
  | steps _ _ k ih => exact k.placed ih
  | exit _ _ _ _ ih => exact ih.refits (refits_withExitTest _ _ _) fun _ => rfl

/-- Branches lead where they led, in another order maybe. -/
theorem mem_targets (h : NormalizeRun g loops s t) {c : BlockId} :
    c ∈ (t.func.term b).targets ↔ c ∈ (s.func.term b).targets := by
  induction h with
  | refl => exact Iff.rfl
  | steps _ _ k ih => rw [k.targets, ih]
  | @exit t e i _ _ _ ht ih =>
    rw [← ih]
    show c ∈ ((t.func.setTerm _ _).term b).targets ↔ _
    rw [Func.term_setTerm]
    split
    · rename_i hb
      rw [← hb.1, ht]
      simp [Terminator.targets]
    · exact Iff.rfl

theorem size_blocks (h : NormalizeRun g loops s t) :
    t.func.blocks.size = s.func.blocks.size := by
  induction h with
  | refl => rfl
  | steps _ _ k ih => exact k.size_blocks.trans ih
  | exit _ _ _ _ ih => exact (refits_withExitTest _ _ _).size_blocks.trans ih

/-- A function whose branches stay among its blocks remains one. -/
theorem closed (h : NormalizeRun g loops s t) (hs : s.func.Closed) : t.func.Closed where
  entry_lt := Nat.lt_of_lt_of_eq hs.entry_lt h.size_blocks.symm
  target_lt b c hc := Nat.lt_of_lt_of_eq (hs.target_lt b c (h.mem_targets.mp hc)) h.size_blocks.symm

theorem region (h : NormalizeRun g loops s t) : t.info.region = s.info.region := by
  induction h with
  | refl => rfl
  | steps _ _ k ih => exact (k.invariant (J := fun u => u.info.region = _) rfl
      fun h hu => h.region.trans hu).trans ih
  | exit _ _ _ _ ih => exact ih

theorem listsOnce (h : NormalizeRun g loops s t) (hs : s.func.ListsOnce) : t.func.ListsOnce := by
  induction h with
  | refl => exact hs
  | steps _ _ k ih => exact k.listsOnce ih
  | exit _ _ _ _ ih => exact ih.refits (refits_withExitTest _ _ _) fun _ => rfl

/-- The entries of phis stay entries for edges of the graph. -/
theorem entersAlong (h : NormalizeRun g loops s t) (hs : s.func.Placed)
    (hb : s.func.EntersAlong g b) : t.func.EntersAlong g b := by
  induction h with
  | refl => exact hb
  | steps h _ k ih => exact k.entersAlong (h.placed hs) ih
  | exit _ _ _ _ ih =>
    intro i hi
    rw [(refits_withExitTest _ _ _).body] at hi
    exact ih i hi

end NormalizeRun

/-! ## Uniform questions -/

/-- Whether a block ends in a uniform branch on a value that none of the loops replaces there: one
that is computed in a loop only if the block lies in the loop as well. -/
def AsksUniform (loops : List (Loop × SingleExitLoop)) (b : BlockId) (t : Stage) : Prop :=
  ∃ c x y, t.func.term b = .brIf c x y ∧ t.info.isUniform c = true ∧ ∀ i, c = .inst i →
    ∃ d, t.func.StandsIn i d ∧ ∀ e ∈ loops, d ∈ e.1.blocks → b ∈ e.1.blocks

variable {loops : List (Loop × SingleExitLoop)} {e : Loop × SingleExitLoop}

theorem NormalizeSteps.asksUniform (h : NormalizeSteps g e.1 t.func.insts.size t u) (he : e ∈ loops)
    (ht : t.AsksUniform loops b) : u.AsksUniform loops b := by
  obtain ⟨c, x, y, hterm, huniform, hc⟩ := ht
  refine ⟨c, x, y, ?_, ?_, fun i hi => ?_⟩
  · refine (h.invariant (J := fun u => u.func.term b = .brIf c x y ∧ ∀ i, c = .inst i →
      ∃ d, u.func.StandsIn i d ∧ (d ∈ e.1.blocks → b ∈ e.1.blocks)) ⟨hterm, fun i hi => ?_⟩ ?_).1
    · obtain ⟨d, hd, hin⟩ := hc i hi
      exact ⟨d, hd, hin e he⟩
    · rintro v w k ⟨hv, hcv⟩
      refine ⟨?_, fun i hi => ?_⟩
      · rcases k.term b with hw | ⟨hb, j, new, hj, hw⟩
        · rw [hw, hv]
        · have hne : c ≠ .inst j := by
            rintro rfl
            obtain ⟨d, hd, hin⟩ := hcv j rfl
            exact hb (hin (hd.2 ▸ hj))
          rw [hw, hv]
          show Terminator.brIf ((Substitution.single (.inst j) new).value c) x y = _
          rw [Substitution.value_single, if_neg hne]
      · obtain ⟨d, hd, hin⟩ := hcv i hi
        exact ⟨d, k.standsIn hd, hin⟩
  · rw [VectorInfo.isUniform, h.shape_eq fun i hi => ?_]
    · exact huniform
    · obtain ⟨d, hd, -⟩ := hc i hi
      exact hd.1
  · obtain ⟨d, hd, hin⟩ := hc i hi
    exact ⟨d, h.standsIn hd, hin⟩

/-- A new exit test asks a uniform question. -/
theorem asksUniform_withExitTest {shape : SingleExitLoop} {i : InstId}
    (hi : t.IsExitTest shape.exiting i) (hlt : shape.exiting < t.func.blocks.size) :
    (t.withExitTest shape i).AsksUniform loops shape.exiting := by
  refine ⟨.inst i, shape.continueTarget, shape.exit, ?_, hi.uniform, fun j hj => ?_⟩
  · show (t.func.setTerm _ _).term _ = _
    rw [Func.term_setTerm, if_pos ⟨rfl, hlt⟩]
  · cases hj
    exact ⟨shape.exiting, hi.standsIn, fun e _ h => h⟩

theorem AsksUniform.withExitTest {shape : SingleExitLoop} {i : InstId} (h : t.AsksUniform loops b)
    (hi : t.IsExitTest shape.exiting i) : (t.withExitTest shape i).AsksUniform loops b := by
  by_cases hb : shape.exiting = b ∧ shape.exiting < t.func.blocks.size
  · obtain ⟨rfl, hlt⟩ := hb
    exact asksUniform_withExitTest hi hlt
  · obtain ⟨c, x, y, hterm, huniform, hc⟩ := h
    refine ⟨c, x, y, ?_, huniform, hc⟩
    show (t.func.setTerm _ _).term b = _
    rw [Func.term_setTerm, if_neg hb]
    exact hterm

theorem NormalizeRun.asksUniform (h : NormalizeRun g loops s t) (hs : s.AsksUniform loops b) :
    t.AsksUniform loops b := by
  induction h with
  | refl => exact hs
  | steps _ he k ih => exact k.asksUniform he ih
  | exit _ _ hi _ ih => exact ih.withExitTest hi

/-! ## All loops -/

/-- A rejected loop is the only reason to fail. -/
theorem eq_unsupportedLoop_of_divergentLoops {check : LoopCheck} {a : Analyses} {x : VectorizeError}
    (h : divergentLoops check a s = .error x) :
    ∃ header reason, x = .unsupportedLoop header reason := by
  obtain ⟨l, -, hl⟩ := exists_of_mapM_eq_error h
  split at hl
  · cases hl
  · cases hl
    exact ⟨_, _, rfl⟩

/-- The exit test that a loop gets leads where the old one led. -/
theorem NormalizeRun.mem_targets_exiting (h : NormalizeRun g loops s t) {a : Analyses}
    {shape : SingleExitLoop} (hl : l.IsSingleExit s.func a shape)
    (he : shape.exit ∈ (s.func.term shape.exiting).targets) {c : BlockId} :
    c ∈ (t.func.term shape.exiting).targets ↔ c = shape.continueTarget ∨ c = shape.exit := by
  rw [h.mem_targets]
  obtain ⟨onTrue, onFalse, hterm, hstay, hcont⟩ := hl.term
  rw [hterm] at he ⊢
  show c ∈ [onTrue, onFalse] ↔ _
  have he : shape.exit ∈ [onTrue, onFalse] := he
  by_cases e : onFalse = shape.exit
  · rw [hcont, hstay, e, beq_self_eq_true, if_pos rfl]
    simp
  · rw [hcont, hstay, beq_false_of_ne e, if_neg Bool.false_ne_true]
    rw [(List.mem_pair.mp he).resolve_right fun e' => e e'.symm]
    simp [or_comm]

/-- Normalizing loops fails only on a loop that is rejected. Otherwise it is a run for the divergent
loops, after which the exiting block of each asks a uniform question. -/
theorem tripleAll_normalizeLoops {markers : Markers} (hf : s.func.Coherent) :
    TripleAll (· = s) (normalizeLoops markers Loop.singleExit (.ofFunc s.func))
      (fun _ t => ∃ loops, divergentLoops Loop.singleExit (.ofFunc s.func) s = .ok loops ∧
        NormalizeRun (.ofFunc s.func) loops s t ∧ ∀ e ∈ loops, t.AsksUniform loops e.2.exiting)
      fun e _ => ∃ header reason, e = .unsupportedLoop header reason := by
  have hc := hf.toClosed
  cases hloops : divergentLoops Loop.singleExit (.ofFunc s.func) s with
  | error x =>
    refine (tripleAll_normalizeLoops_of_error hloops).mono_error ?_
    rintro _ _ ⟨rfl, -⟩
    exact eq_unsupportedLoop_of_divergentLoops hloops
  | ok loops =>
    have hshapes := areSingleExit_of_divergentLoops hloops
    let Made (masks : List (Loop × SingleExitLoop × LoopMasks)) (u : Stage) : Prop :=
      NormalizeRun (.ofFunc s.func) loops s u ∧
        ∀ m ∈ masks, u.PlacesMasks m.2.1.header m.2.2
    let Left (masks : List (Loop × SingleExitLoop × LoopMasks)) (u : Stage) : Prop :=
      Made masks u ∧
        ∀ e ∈ loops, e ∈ masks.map (fun m => (m.1, m.2.1)) ∨ u.AsksUniform loops e.2.exiting
    refine (tripleAll_normalizeLoops_of (J := Made) (K := Left) hloops
      ⟨.refl, fun m hm => absurd hm List.not_mem_nil⟩ ?_
      (fun masks u e h => ⟨h, fun x hx => .inl (e ▸ hx)⟩) ?_).mono (fun _ h => h) ?_
    · rintro l shape done hmem u m u' ⟨hrun, hplaces⟩ e
      have hnew : Normalizing (.ofFunc s.func) l u.func.insts.size u u :=
        ⟨.refl (Nat.le_refl _), hrun.placed hf.placed_body⟩
      obtain ⟨⟨hsteps, -⟩, hm⟩ := triple_addLoopMasks_steps shape u m u' hnew e
      refine ⟨hrun.steps hmem hsteps, fun x hx => ?_⟩
      rcases List.mem_append.mp hx with hx | hx
      · exact hsteps.placesMasks (hplaces x hx)
      · rw [List.mem_singleton.mp hx]
        exact hm
    · rintro l shape m rest hmem u a u' ⟨⟨hrun, hplaces⟩, hasks⟩ e
      have hl := hshapes.mem _ hmem
      have hsingle := hshapes.singleExit _ hmem
      have hheader : shape.header = l.header := hsingle.header
      obtain ⟨v, i, hsteps, hi, rfl⟩ := triple_normalizeLoop_steps (hplaces _ List.mem_cons_self)
        (hrun.placed hf.placed_body)
        (hheader ▸ (Cfg.mem_preds hc).mpr (hsingle.preheader_mem hc hl).2)
        (hheader ▸ (Cfg.mem_preds hc).mpr (hsingle.latch_mem hc hl).2) u a u' rfl e
      have hrun' := hrun.steps hmem hsteps
      have htargets : ∀ c, c ∈ (v.func.term shape.exiting).targets ↔
          c = shape.continueTarget ∨ c = shape.exit :=
        fun c => hrun'.mem_targets_exiting hsingle (hsingle.exiting_mem hc hl).2.2.1
      refine ⟨⟨hrun'.exit hmem hi htargets, fun x hx => ?_⟩, fun e he => ?_⟩
      · have hx := hsteps.placesMasks (hplaces x (List.mem_cons_of_mem _ hx))
        exact ⟨hx.live, hx.entered⟩
      · rcases hasks e he with he' | he'
        · rcases List.mem_cons.mp he' with rfl | he'
          · exact .inr (asksUniform_withExitTest hi
              (v.func.lt_of_mem_targets ((htargets _).mpr (.inr rfl))))
          · exact .inl he'
        · exact .inr ((hsteps.asksUniform hmem he').withExitTest hi)
    · exact fun _ u h => ⟨loops, rfl, h.1.1, fun e he =>
        (h.2 e he).resolve_left List.not_mem_nil⟩

end Stage

end Lockstep
