import Lockstep.Proofs.Vector.Mask
import Mathlib.Logic.Relation

/-!
# What making masks does

Whatever masks are asked for, the stage changes in small steps (`MaskStep`): a mask is recorded, a
gate is put at the end of a block, a phi is added, a phi that was added gets an entry for an edge of
the graph, or a value that was added gets a shape. What each of these steps preserves, making masks
preserves (`takesMaskSteps_blockMask`, `takesMaskSteps_edgeMask`, `takesMaskSteps_expandMasks`).
-/

namespace Lockstep

theorem Value.eq_inst_of_isSome (v : Value) (h : v.inst?.isSome = true) : ∃ i, v = .inst i := by
  cases v with
  | inst i => exact ⟨i, rfl⟩
  | const _ | param _ => cases h

namespace Stage

/-- A step of making masks along the edges of `g`; the instructions before `n` are left alone. -/
inductive MaskStep (g : Cfg) (n : Nat) (s : Stage) : Stage → Prop
  | blockMask (b : BlockId) (v : Value) : MaskStep g n s
    { s with info := s.info.setPredicate b v, masks := s.masks.setBlock b v }
  | edgeMask (p q : BlockId) (v : Value) : MaskStep g n s { s with masks := s.masks.setEdge p q v }
  | shape (i : InstId) (shape : Shape) (hi : n ≤ i) : MaskStep g n s
    { s with info := s.info.setShape (.inst i) shape }
  | gate (b : BlockId) (op : BinOp) (args : List Value) (ty : Ty) : MaskStep g n s
    { s with func := (s.func.append b { op := .apply (.binary op) args, ty, block := b }).2 }
  | phi (b : BlockId) : MaskStep g n s { s with func := (s.func.appendPhi b .bool []).2 }
  | entry {phi : InstId} {pred : BlockId} (v : Value) (hphi : n ≤ phi)
    (hpred : pred ∈ g.preds (s.func.inst phi).block) : MaskStep g n s
    { s with func := s.func.setIncoming phi pred v }

/-- What making masks has led to, from a stage `s` with at least `n` instructions. -/
structure MaskSteps (g : Cfg) (n : Nat) (s t : Stage) : Prop where
  steps : Relation.ReflTransGen (MaskStep g n) s t
  le : n ≤ t.func.insts.size

variable {g : Cfg} {n : Nat} {s t u : Stage} {b p q : BlockId}

/-! ## What a step preserves -/

theorem MaskStep.size_le (h : MaskStep g n s t) : s.func.insts.size ≤ t.func.insts.size := by
  cases h with
  | blockMask b v => exact Nat.le_refl _
  | edgeMask p q v => exact Nat.le_refl _
  | shape i shape hi => exact Nat.le_refl _
  | gate b op args ty =>
    show _ ≤ (s.func.insertAt _ _ _).2.insts.size
    rw [Func.size_insts_insertAt]
    exact Nat.le_succ _
  | phi b =>
    show _ ≤ (s.func.insertAt _ _ _).2.insts.size
    rw [Func.size_insts_insertAt]
    exact Nat.le_succ _
  | entry v hphi hpred => exact Nat.le_of_eq (Func.size_insts_modifyIncoming _ _ _).symm

/-- An instruction keeps its block, and a phi stays a phi. -/
theorem MaskStep.block (h : MaskStep g n s t) {i : InstId} (hi : i < s.func.insts.size) :
    (t.func.inst i).block = (s.func.inst i).block := by
  cases h with
  | blockMask b v => rfl
  | edgeMask p q v => rfl
  | shape i shape hi => rfl
  | gate b op args ty =>
    show ((s.func.insertAt _ _ _).2.inst i).block = _
    rw [Func.inst_insertAt, if_neg (Nat.ne_of_lt hi)]
  | phi b =>
    show ((s.func.insertAt _ _ _).2.inst i).block = _
    rw [Func.inst_insertAt, if_neg (Nat.ne_of_lt hi)]
  | entry v hphi hpred => 
    show ((s.func.modifyIncoming _ _).inst i).block = _
    rw [Func.inst_modifyIncoming]
    split
    · exact Func.block_mapIncoming _ _
    · rfl

/-- The instructions before `n` are left alone. -/
theorem MaskStep.inst (h : MaskStep g n s t) (hn : n ≤ s.func.insts.size) {i : InstId}
    (hi : i < n) : t.func.inst i = s.func.inst i := by
  have hne : i ≠ s.func.insts.size := Nat.ne_of_lt (Nat.lt_of_lt_of_le hi hn)
  cases h with
  | blockMask b v => rfl
  | edgeMask p q v => rfl
  | shape j shape hj => rfl
  | gate b op args ty =>
    show (s.func.insertAt _ _ _).2.inst i = _
    rw [Func.inst_insertAt, if_neg hne]
  | phi b =>
    show (s.func.insertAt _ _ _).2.inst i = _
    rw [Func.inst_insertAt, if_neg hne]
  | @entry phi pred v hphi hpred =>
    show (s.func.modifyIncoming _ _).inst i = _
    rw [Func.inst_modifyIncoming, if_neg fun (e : phi = i) => Nat.not_lt_of_le hphi (e ▸ hi)]

/-- No call is made. -/
theorem MaskStep.callee?_eq_none (h : MaskStep g n s t) {i : InstId}
    (hi : (s.func.inst i).callee? = none) : (t.func.inst i).callee? = none := by
  cases h with
  | blockMask b v => exact hi
  | edgeMask p q v => exact hi
  | shape j shape hj => exact hi
  | gate b op args ty =>
    show ((s.func.insertAt _ _ _).2.inst i).callee? = none
    rw [Func.inst_insertAt]
    split
    · rfl
    · exact hi
  | phi b =>
    show ((s.func.insertAt _ _ _).2.inst i).callee? = none
    rw [Func.inst_insertAt]
    split
    · rfl
    · exact hi
  | entry v hphi hpred =>
    show ((s.func.modifyIncoming _ _).inst i).callee? = none
    rw [Func.inst_modifyIncoming]
    split
    · rw [Func.callee?_mapIncoming]
      exact hi
    · exact hi

theorem MaskStep.term (h : MaskStep g n s t) (b : BlockId) : t.func.term b = s.func.term b := by
  cases h with
  | gate c op args ty => exact Func.term_insertAt _ _ _ _ _
  | phi c => exact Func.term_insertAt _ _ _ _ _
  | _ => rfl

theorem MaskStep.block?_isSome (h : MaskStep g n s t) (hb : (s.masks.block? b).isSome = true) :
    (t.masks.block? b).isSome = true := by
  cases h with
  | blockMask c v =>
    show ((s.masks.setBlock c v).block? b).isSome = true
    rw [Masks.block?_setBlock]
    split
    · rfl
    · exact hb
  | _ => exact hb

theorem MaskStep.edge?_isSome (h : MaskStep g n s t) (hp : (s.masks.edge? p q).isSome = true) :
    (t.masks.edge? p q).isSome = true := by
  cases h with
  | edgeMask x y v =>
    show ((s.masks.setEdge x y v).edge? p q).isSome = true
    rw [Masks.edge?_setEdge]
    split
    · rfl
    · exact hp
  | _ => exact hp

namespace MaskSteps

theorem refl (h : n ≤ s.func.insts.size) : MaskSteps g n s s := ⟨.refl, h⟩

theorem trans (h : MaskSteps g n s t) (h' : MaskSteps g n t u) : MaskSteps g n s u :=
  ⟨h.steps.trans h'.steps, h'.le⟩

theorem step (h : MaskSteps g n s t) (h' : MaskStep g n t u) : MaskSteps g n s u :=
  ⟨h.steps.tail h', Nat.le_trans h.le h'.size_le⟩

/-- What each step preserves is preserved. -/
theorem invariant {J : Stage → Prop} (h : MaskSteps g n s t) (hs : J s)
    (step : ∀ {t u}, MaskStep g n t u → J t → J u) : J t := by
  obtain ⟨h, -⟩ := h
  induction h with
  | refl => exact hs
  | tail _ h ih => exact step h ih

theorem block (h : MaskSteps g n s t) {i : InstId} (hi : i < s.func.insts.size) :
    i < t.func.insts.size ∧ (t.func.inst i).block = (s.func.inst i).block :=
  h.invariant (J := fun u => i < u.func.insts.size ∧ (u.func.inst i).block = (s.func.inst i).block)
    ⟨hi, rfl⟩ fun h hu => ⟨Nat.lt_of_lt_of_le hu.1 h.size_le, (h.block hu.1).trans hu.2⟩

theorem block?_isSome (h : MaskSteps g n s t) (hb : (s.masks.block? b).isSome = true) :
    (t.masks.block? b).isSome = true :=
  h.invariant (J := fun u => (u.masks.block? b).isSome = true) hb fun h hu => h.block?_isSome hu

theorem edge?_isSome (h : MaskSteps g n s t) (hp : (s.masks.edge? p q).isSome = true) :
    (t.masks.edge? p q).isSome = true :=
  h.invariant (J := fun u => (u.masks.edge? p q).isSome = true) hp fun h hu => h.edge?_isSome hu

end MaskSteps

/-! ## Building takes only these steps -/

/-- What was built at the end of a block is new, or one of the operands, or a constant. -/
structure GateSteps (g : Cfg) (n : Nat) (s t : Stage) (b : BlockId) (operands : List Value)
    (r : Value × Builder) : Prop where
  steps : MaskSteps g n s { t with func := r.2.func }
  point : r.2.point = .blockEnd b
  new : ∀ i, r.1 = .inst i → r.1 ∈ operands ∨ n ≤ i

theorem gateSteps_not (h : MaskSteps g n s t) (b : BlockId) (v : Value) :
    GateSteps g n s t b [] (Build.not v ⟨t.func, .blockEnd b⟩) := by
  unfold Build.not
  cases v.bool? with
  | some x => exact ⟨h, rfl, fun i e => by cases e⟩
  | none =>
    refine ⟨h.step (.gate b .xor [v, .ofBool true] (t.func.typeOf v)), rfl, fun i e => ?_⟩
    cases e
    exact .inr h.le

theorem gateSteps_and (h : MaskSteps g n s t) (b : BlockId) (u v : Value) :
    GateSteps g n s t b [u, v] (Build.and u v ⟨t.func, .blockEnd b⟩) := by
  unfold Build.and
  split
  · exact ⟨h, rfl, fun i _ => .inl (List.mem_cons_of_mem _ List.mem_cons_self)⟩
  · split
    · exact ⟨h, rfl, fun i _ => .inl List.mem_cons_self⟩
    · refine ⟨h.step (.gate b .and [u, v] (t.func.typeOf u)), rfl, fun i e => ?_⟩
      cases e
      exact .inr h.le

theorem gateSteps_takenBy (h : MaskSteps g n s t) (b : BlockId) (cond : Value) (positive : Prop)
    [Decidable positive] : GateSteps g n s t b [cond] (takenBy cond positive ⟨t.func, .blockEnd b⟩) := by
  unfold takenBy
  split
  · exact ⟨h, rfl, fun i _ => .inl List.mem_cons_self⟩
  · have hnot := gateSteps_not h b cond
    exact ⟨hnot.steps, hnot.point, fun i e => .inr ((hnot.new i e).resolve_left List.not_mem_nil)⟩

/-- What is built for an edge is new unless it is one of the operands. -/
theorem steps_narrowed (h : MaskSteps g n s t) (b : BlockId) (cond mask : Value) (positive : Prop)
    [Decidable positive] :
    MaskSteps g n s { t with func := (narrowed cond mask positive ⟨t.func, .blockEnd b⟩).2.func } ∧
      ∀ v ∈ [(narrowed cond mask positive ⟨t.func, .blockEnd b⟩).1.1,
        (narrowed cond mask positive ⟨t.func, .blockEnd b⟩).1.2],
        ∀ i, v = .inst i → v ≠ cond → v ≠ mask → n ≤ i := by
  rw [narrowed_apply]
  have htaken := gateSteps_takenBy h b cond positive
  rcases hr : takenBy cond positive ⟨t.func, .blockEnd b⟩ with ⟨taken, f1, point1⟩
  rw [hr] at htaken
  obtain ⟨hsteps, hpoint, hnew⟩ := htaken
  cases hpoint
  have hand := gateSteps_and hsteps b mask taken
  have htaken : ∀ i, taken = .inst i → taken ≠ cond → n ≤ i := fun i e hne =>
    (hnew i e).resolve_left fun hmem => hne (List.mem_singleton.mp hmem)
  refine ⟨hand.steps, fun v hv i e hne hne' => ?_⟩
  rcases List.mem_pair.mp hv with rfl | rfl
  · exact htaken i e hne
  · rcases hand.new i e with hmem | hi
    · rcases List.mem_pair.mp hmem with hmask | htake
      · exact absurd hmask hne'
      · exact htaken i (htake ▸ e) (htake ▸ hne)
    · exact hi

/-! ## Masks of edges and blocks -/

/-- A computation takes only steps of making masks, and then `Q` holds. -/
def TakesMaskSteps {α : Type} (g : Cfg) (n : Nat) (m : StateM Stage α) (Q : α → Stage → Prop) :
    Prop :=
  ∀ s, Triple (MaskSteps g n s) m fun a t => MaskSteps g n s t ∧ Q a t

theorem takesMaskSteps_edgeMaskBy {blockMask : BlockId → StateM Stage Value}
    (hb : ∀ b, TakesMaskSteps g n (blockMask b) fun _ _ => True) (p q : BlockId) :
    TakesMaskSteps g n (edgeMaskBy blockMask p q) fun _ t => (t.masks.edge? p q).isSome = true := by
  intro s
  unfold edgeMaskBy
  refine Triple.bind Triple.get fun t => ?_
  split
  · rename_i mask hmask
    refine Triple.pure ?_
    rintro u ⟨rfl, hu⟩
    exact ⟨hu, Option.isSome_iff_exists.mpr ⟨mask, hmask⟩⟩
  refine Triple.bind ((hb p s).mono (fun u hu => hu.2) fun _ u hu => hu.1) fun predMask => ?_
  refine Triple.bind Triple.get fun t => ?_
  have hend : ∀ mask, Triple (MaskSteps g n s) (do
      setEdgeMask p q mask
      return mask) fun _ t => MaskSteps g n s t ∧ (t.masks.edge? p q).isSome = true := by
    refine fun mask => Triple.bind (triple_setEdgeMask (Q := fun _ t => MaskSteps g n s t ∧
      (t.masks.edge? p q).isSome = true) ?_) fun _ => Triple.pure fun u hu => hu
    intro u hu
    refine ⟨hu.step (.edgeMask p q mask), ?_⟩
    show ((u.masks.setEdge p q mask).edge? p q).isSome = true
    rw [Masks.edge?_setEdge, if_pos rfl]
    rfl
  split
  · rename_i cond onTrue onFalse hterm
    refine Triple.bind (R := fun r u => MaskSteps g n s u ∧ ∀ v ∈ [r.1, r.2],
      ∀ i, v = .inst i → v ≠ cond → v ≠ predMask → n ≤ i) ?_ fun r => ?_
    · rintro u r u' ⟨rfl, hu⟩ e
      have e : build (.blockEnd p) (narrowed cond predMask (onTrue = q)) t = (r, u') := e
      cases e
      exact steps_narrowed hu p cond predMask (onTrue = q)
    · obtain ⟨taken, mask⟩ := r
      dsimp only
      refine Triple.bind (R := fun _ => MaskSteps g n s) ?_ fun _ => hend mask
      refine Triple.assume fun hnew => triple_forIn_setShape fun v hv hp u hu => ?_
      rw [Bool.and_eq_true, Bool.and_eq_true, bne_iff_ne, bne_iff_ne] at hp
      obtain ⟨⟨hsome, hne⟩, hne'⟩ := hp
      obtain ⟨i, rfl⟩ := v.eq_inst_of_isSome hsome
      exact hu.step (.shape i _ (hnew _ hv i rfl hne hne'))
  · exact Triple.bind (Triple.pure fun u hu => hu.2) hend

/-- The mask of a block is recorded whatever the fuel, but for the block it runs out at. -/
theorem takesMaskSteps_blockMaskWithin (fuel : Nat) (b : BlockId) :
    TakesMaskSteps g n (blockMaskWithin g fuel b) fun _ t =>
      fuel ≠ 0 → (t.masks.block? b).isSome = true := by
  induction fuel generalizing b with
  | zero => exact fun s => Triple.pure fun t ht => ⟨ht, fun h => absurd rfl h⟩
  | succ fuel ih =>
    intro s
    let Known (t : Stage) : Prop := MaskSteps g n s t ∧ (t.masks.block? b).isSome = true
    have hstep : ∀ {t u}, Known t → MaskStep g n t u → Known u :=
      fun h hs => ⟨h.1.step hs, hs.block?_isSome h.2⟩
    have hset : ∀ mask t, MaskSteps g n s t →
        Known { t with info := t.info.setPredicate b mask, masks := t.masks.setBlock b mask } := by
      intro mask t ht
      refine ⟨ht.step (.blockMask b mask), ?_⟩
      show ((t.masks.setBlock b mask).block? b).isSome = true
      rw [Masks.block?_setBlock, if_pos rfl]
      rfl
    have hend : ∀ mask, Triple (MaskSteps g n s) (do
        setBlockMask b mask
        return mask) fun _ t => Known t := fun mask =>
      Triple.bind (triple_setBlockMask (Q := fun _ => Known) (hset mask)) fun _ =>
        Triple.pure fun u hu => hu
    refine Triple.mono (R := fun _ t => Known t) ?_ (fun _ ht => ht) fun _ t ht => ⟨ht.1, fun _ => ht.2⟩
    unfold blockMaskWithin
    refine Triple.bind Triple.get fun t => ?_
    split
    · rename_i mask hmask
      refine Triple.pure ?_
      rintro u ⟨rfl, hu⟩
      exact ⟨hu, Option.isSome_iff_exists.mpr ⟨mask, hmask⟩⟩
    have hedge := takesMaskSteps_edgeMaskBy (n := n) (fun b => (fun s => (ih b s).mono
      (fun _ hu => hu) fun _ _ hu => ⟨hu.1, trivial⟩ : TakesMaskSteps g n _ fun _ _ => True))
    split
    · exact (hend (.ofBool true)).mono (fun u hu => hu.2) fun _ _ hu => hu
    split
    · exact (hend (.ofBool true)).mono (fun u hu => hu.2) fun _ _ hu => hu
    · rename_i pred _
      exact Triple.bind ((hedge pred b s).mono (fun u hu => hu.2) fun m u hu => hu.1) hend
    · rename_i hnil hone
      -- the phi stays in the block while it gets its entries
      let PhiThere (phi : InstId) (t : Stage) : Prop := n ≤ phi ∧ phi < t.func.insts.size ∧
        (t.func.inst phi).block = b ∧ Known t
      refine Triple.bind (R := fun phi u => n ≤ phi ∧ phi < u.func.insts.size ∧
        (u.func.inst phi).block = b ∧ MaskSteps g n s u) (triple_appendPhi ?_) fun phi => ?_
      · rintro u ⟨-, hu⟩
        have hu' := hu.step (.phi b)
        refine ⟨hu.le, ?_, ?_, hu'⟩
        · show u.func.insts.size < (u.func.insertAt _ _ _).2.insts.size
          rw [Func.size_insts_insertAt]
          exact Nat.lt_succ_self _
        · show ((u.func.insertAt _ _ _).2.inst _).block = b
          rw [Func.inst_insertAt, if_pos rfl]
      refine Triple.bind (R := fun _ u => n ≤ phi ∧ phi < u.func.insts.size ∧
        (u.func.inst phi).block = b ∧ MaskSteps g n s u) (triple_setShape ?_) fun _ => ?_
      · rintro u ⟨hn, hlt, hblock, hu⟩
        exact ⟨hn, hlt, hblock, hu.step (.shape phi _ hn)⟩
      refine Triple.bind (R := fun _ => PhiThere phi) (triple_setBlockMask ?_) fun _ => ?_
      · rintro u ⟨hn, hlt, hblock, hu⟩
        exact ⟨hn, hlt, hblock, hset _ u hu⟩
      refine Triple.bind (R := fun _ => PhiThere phi) ?_ fun _ => Triple.pure fun u hu => hu.2.2.2
      refine Triple.forIn (J := fun _ => PhiThere phi) _ ?_
      rintro pred tail hpred
      refine Triple.bind (R := fun _ => PhiThere phi) ?_ fun m => ?_
      · rintro u m u' ⟨hn, hlt, hblock, hu, hb⟩ e
        have hsteps := (hedge pred b u u m u' (.refl hu.le) e).1
        obtain ⟨hlt', hblock'⟩ := hsteps.block hlt
        exact ⟨hn, hlt', hblock'.trans hblock, hu.trans hsteps, hsteps.block?_isSome hb⟩
      · refine Triple.bind (triple_modifyFunc (Q := fun _ => PhiThere phi) ?_)
          fun _ => Triple.pure fun u hu => ⟨rfl, hu⟩
        rintro u ⟨hn, hlt, hblock, hu⟩
        have hs : MaskStep g n u { u with func := u.func.setIncoming phi pred m } :=
          .entry m hn (hblock.symm ▸ hpred)
        exact ⟨hn, Nat.lt_of_lt_of_le hlt hs.size_le, (hs.block hlt).trans hblock, hstep hu hs⟩

theorem takesMaskSteps_blockMask (b : BlockId) :
    TakesMaskSteps g n (blockMask g b) fun _ t => (t.masks.block? b).isSome = true :=
  fun s => (takesMaskSteps_blockMaskWithin _ b s).mono (fun _ hu => hu)
    fun _ _ hu => ⟨hu.1, hu.2 (maskDepth_ne_zero g)⟩

theorem takesMaskSteps_edgeMask (p q : BlockId) :
    TakesMaskSteps g n (edgeMask g p q) fun _ t => (t.masks.edge? p q).isSome = true :=
  takesMaskSteps_edgeMaskBy (fun b s => (takesMaskSteps_blockMask b s).mono (fun _ hu => hu)
    fun _ _ hu => ⟨hu.1, trivial⟩) p q

/-! ## Making all masks -/

/-- The region stays as it is while masks are made. -/
theorem MaskStep.inRegion (h : MaskStep g n s t) (b : BlockId) :
    t.info.inRegion b = s.info.inRegion b := by
  cases h <;> rfl

/-- Some blocks, as far as they are in the region, have masks, and so have all edges from them. -/
def AllMasked (g : Cfg) (bs : List BlockId) (t : Stage) : Prop :=
  ∀ b ∈ bs, t.info.inRegion b = true → (t.masks.block? b).isSome = true ∧
    ∀ c ∈ g.succs b, (t.masks.edge? b c).isSome = true

theorem MaskSteps.inRegion (h : MaskSteps g n s t) (b : BlockId) :
    t.info.inRegion b = s.info.inRegion b :=
  h.invariant (J := fun u => u.info.inRegion b = s.info.inRegion b) rfl
    fun h hu => (h.inRegion b).trans hu

theorem AllMasked.steps {bs : List BlockId} (hs : AllMasked g bs s) (h : MaskSteps g n s t) :
    AllMasked g bs t := by
  refine h.invariant (J := AllMasked g bs) hs fun {t u} h ht b hb hr => ?_
  rw [h.inRegion] at hr
  obtain ⟨hblock, hedge⟩ := ht b hb hr
  exact ⟨h.block?_isSome hblock, fun c hc => h.edge?_isSome (hedge c hc)⟩

/-- All edges from a block get masks. -/
theorem triple_edgeMasks_steps {s : Stage} (b : BlockId) (succs : List BlockId) :
    Triple (MaskSteps g n s) (succs.forM fun c => do
      let _ ← edgeMask g b c) fun _ t =>
      MaskSteps g n s t ∧ ∀ c ∈ succs, (t.masks.edge? b c).isSome = true := by
  refine (Triple.forM (J := fun rest t => MaskSteps g n s t ∧ ∃ done, succs = done ++ rest ∧
    ∀ c ∈ done, (t.masks.edge? b c).isSome = true) succs ?_).mono
      (fun t ht => ⟨ht, [], rfl, fun c hc => absurd hc List.not_mem_nil⟩) ?_
  · rintro c rest -
    refine Triple.bind (R := fun _ t => MaskSteps g n s t ∧ ∃ done, succs = done ++ rest ∧
      ∀ c ∈ done, (t.masks.edge? b c).isSome = true) ?_ fun _ => Triple.pure fun t ht => ht
    rintro t m u ⟨ht, done, e, hdone⟩ em
    obtain ⟨hu, hc⟩ := takesMaskSteps_edgeMask b c t t m u (.refl ht.le) em
    refine ⟨ht.trans hu, done ++ [c], by rw [e, List.append_assoc]; rfl, fun x hx => ?_⟩
    rcases List.mem_append.mp hx with hx | hx
    · exact hu.edge?_isSome (hdone x hx)
    · rw [List.mem_singleton.mp hx]
      exact hc
  · rintro _ t ⟨ht, done, e, hdone⟩
    rw [List.append_nil] at e
    exact ⟨ht, e ▸ hdone⟩

/-- Making all masks takes only steps of making masks, and no mask is missing afterwards. -/
theorem takesMaskSteps_expandMasks :
    TakesMaskSteps g n (expandMasks g) fun _ => AllMasked g g.rpo := by
  intro s
  let Done (rest : List BlockId) (t : Stage) : Prop :=
    MaskSteps g n s t ∧ ∃ done, g.rpo = done ++ rest ∧ AllMasked g done t
  unfold expandMasks
  refine (Triple.forM (J := Done) g.rpo ?_).mono
    (fun t ht => ⟨ht, [], rfl, fun b hb => absurd hb List.not_mem_nil⟩) ?_
  · rintro b rest -
    refine Triple.bind Triple.get fun t => ?_
    split
    · refine Triple.bind (R := fun _ u => Done (b :: rest) u ∧ (u.masks.block? b).isSome = true) ?_
        fun _ => ?_
      · rintro u m u' ⟨rfl, ht, done, e, hdone⟩ em
        obtain ⟨hu, hb⟩ := takesMaskSteps_blockMask b t t m u' (.refl ht.le) em
        exact ⟨⟨ht.trans hu, done, e, hdone.steps hu⟩, hb⟩
      · rintro u m u' ⟨⟨ht, done, e, hdone⟩, hb⟩ em
        obtain ⟨hu, hc⟩ := triple_edgeMasks_steps b (g.succs b) u m u' (.refl ht.le) em
        refine ⟨ht.trans hu, done ++ [b], by rw [e, List.append_assoc]; rfl, fun x hx hr => ?_⟩
        rcases List.mem_append.mp hx with hx | hx
        · exact hdone.steps hu x hx hr
        · rw [List.mem_singleton.mp hx]
          exact ⟨hu.block?_isSome hb, hc⟩
    · rename_i hout
      refine Triple.pure ?_
      rintro u ⟨rfl, ht, done, e, hdone⟩
      refine ⟨ht, done ++ [b], by rw [e, List.append_assoc]; rfl, fun x hx hr => ?_⟩
      rcases List.mem_append.mp hx with hx | hx
      · exact hdone x hx hr
      · rw [List.mem_singleton.mp hx] at hr
        exact absurd hr hout
  · rintro _ t ⟨ht, done, e, hdone⟩
    rw [List.append_nil] at e
    exact ⟨ht, e ▸ hdone⟩

end Stage

end Lockstep
