import Lockstep.Proofs.Func.Placed
import Lockstep.Proofs.Vector.Cascade

/-!
# Calls that stand in their blocks

Making a call lane by lane asks for its place in its block. A call that the block it names lists
(`Func.StandingCall`) has one, and keeps one when another call is made lane by lane, although it may be
moved to the end of the cascade. So making several calls lane by lane reports no defect
(`tripleAll_scalarizeCall`).
-/

namespace Lockstep

namespace Func

/-- Whether an instruction is a call that the block it names lists. -/
structure StandingCall (f : Func) (i : InstId) : Prop where
  lt : i < f.insts.size
  mem : i ∈ f.body (f.inst i).block
  callee : (f.inst i).callee?.isSome = true

variable {f g : Func} {i : InstId}

theorem StandingCall.congr (h : f.StandingCall i) (hi : g.insts = f.insts)
    (hb : ∀ b, g.body b = f.body b) : g.StandingCall i := by
  have hinst : g.inst i = f.inst i := by
    unfold inst
    rw [hi]
  refine ⟨hi ▸ h.lt, ?_, hinst ▸ h.callee⟩
  rw [hinst, hb]
  exact h.mem

theorem StandingCall.setTerm (h : f.StandingCall i) (b : BlockId) (t : Terminator) :
    (f.setTerm b t).StandingCall i := h.congr rfl fun c => f.body_setTerm b c t

theorem StandingCall.insertAt (h : f.StandingCall i) (b : BlockId) (pos : Nat) (d : Instr) :
    (f.insertAt b pos d).2.StandingCall i := by
  have hinst : (f.insertAt b pos d).2.inst i = f.inst i := by
    rw [inst_insertAt, if_neg (Nat.ne_of_lt h.lt)]
  refine ⟨?_, ?_, hinst ▸ h.callee⟩
  · rw [size_insts_insertAt]
    exact Nat.lt_succ_of_lt h.lt
  · rw [hinst]
    exact f.mem_body_insertAt_of_mem h.mem

theorem StandingCall.modifyIncoming (h : f.StandingCall i) (phi : InstId) (g) :
    (f.modifyIncoming phi g).StandingCall i := by
  refine ⟨?_, ?_, ?_⟩
  · rw [size_insts_modifyIncoming]
    exact h.lt
  · rw [block_modifyIncoming, body_modifyIncoming]
    exact h.mem
  · rw [inst_modifyIncoming]
    split
    · rw [callee?_mapIncoming]
      exact h.callee
    · exact h.callee

theorem StandingCall.replacePhiPred (h : f.StandingCall i) (b old new : BlockId) :
    (f.replacePhiPred b old new).StandingCall i :=
  List.foldlRecOn (motive := fun f : Func => f.StandingCall i) _ _ h fun _ h _ _ =>
    h.modifyIncoming _ _

theorem inst_foldl_modifyInst {is : List InstId} {g : Instr → Instr} (hg : ∀ d, g (g d) = g d)
    (hi : i < f.insts.size) :
    (is.foldl (fun f j => f.modifyInst j g) f).inst i =
      if i ∈ is then g (f.inst i) else f.inst i := by
  induction is generalizing f with
  | nil => exact (if_neg List.not_mem_nil).symm
  | cons j is ih =>
    have hsize : i < (f.modifyInst j g).insts.size := by rwa [size_insts_modifyInst]
    rw [List.foldl_cons, ih hsize, inst_modifyInst]
    by_cases hj : j = i
    · subst hj
      simp only [List.mem_cons_self, if_true, hi, and_self, hg, ite_self]
    · have hmem : i ∈ j :: is ↔ i ∈ is := List.mem_cons.trans (or_iff_right (Ne.symm hj))
      simp only [hmem, hj, false_and, if_false]

theorem size_insts_foldl_modifyInst (is : List InstId) (g : Instr → Instr) :
    (is.foldl (fun f j => f.modifyInst j g) f).insts.size = f.insts.size :=
  List.foldlRecOn (motive := fun h : Func => h.insts.size = f.insts.size) _ _ rfl fun _ h _ _ =>
    (size_insts_modifyInst ..).trans h

theorem size_blocks_foldl_modifyInst (is : List InstId) (g : Instr → Instr) :
    (is.foldl (fun f j => f.modifyInst j g) f).blocks.size = f.blocks.size :=
  List.foldlRecOn (motive := fun h : Func => h.blocks.size = f.blocks.size) _ _ rfl fun _ h _ _ => h

end Func

namespace Cascade

variable {f : Func} {c : Cascade} {i call : InstId}

/-! ## The blocks of a cascade -/

/-- Making the blocks of a cascade leaves all instructions where they are. -/
theorem same_create (f : Func) (width : Nat) :
    (create f width).2.insts = f.insts ∧ ∀ b, (create f width).2.body b = f.body b := by
  let Same (g : Func) : Prop := g.insts = f.insts ∧ ∀ b, g.body b = f.body b
  have hadd : ∀ g name, Same g → Same (g.addBlock name).2 := fun g name hg =>
    ⟨hg.1, fun b => (g.body_addBlock name b).trans (hg.2 b)⟩
  have hlanes := List.foldlRecOn (motive := fun r : List (BlockId × BlockId) × Func => Same r.2)
    (List.range width) (fun r lane => (r.1 ++ [(addLane r.2 lane).1], (addLane r.2 lane).2))
    (b := ([], f)) ⟨rfl, fun _ => rfl⟩ fun r hr lane _ => hadd _ _ (hadd _ _ hr)
  refine List.foldlRecOn (motive := Same) _ _ (hadd _ _ hlanes) ?_
  exact fun g hg x _ => ⟨hg.1, fun b => (g.body_setTerm _ _ _).trans (hg.2 b)⟩

/-- All but one element of a list come before it or after it. -/
theorem mem_take_or_drop {α : Type} {l : List α} {pos : Nat} {x y : α} (hx : x ∈ l)
    (hy : l[pos]? = some y) (hne : x ≠ y) : x ∈ l.take pos ∨ x ∈ l.drop (pos + 1) := by
  obtain ⟨n, hn, rfl⟩ := List.mem_iff_getElem.mp hx
  rcases Nat.lt_trichotomy n pos with h | rfl | h
  · exact .inl (List.mem_take_iff_getElem.mpr ⟨n, by omega, rfl⟩)
  · rw [List.getElem?_eq_getElem hn] at hy
    cases hy
    exact absurd rfl hne
  · refine .inr (List.mem_drop_iff_getElem.mpr ⟨n - (pos + 1), by omega, ?_⟩)
    congr 1
    omega

/-! ## Splitting a block -/

/-- What follows a position of a block moved to the end of a cascade. -/
def move (c : Cascade) (f : Func) (b : BlockId) (pos : Nat) : Func :=
  (((f.body b).drop (pos + 1)).foldl (fun f i => f.modifyInst i fun d => { d with block := c.finish })
    (f.setBody b ((f.body b).take pos))).setBody c.finish ((f.body b).drop (pos + 1))

theorem split_eq (c : Cascade) (f : Func) (b : BlockId) (pos : Nat) : c.split f b pos =
    ((f.term b).targets.foldl (fun g succ => g.replacePhiPred succ b c.finish)
      ((c.move f b pos).setTerm b (.br (c.test 0)))).setTerm c.finish (f.term b) := rfl

section Move

variable {b : BlockId} (hb : b < f.blocks.size) (hc : c.finish < f.blocks.size)

include hb hc in
theorem body_move (pos : Nat) (x : BlockId) : (c.move f b pos).body x =
    if x = c.finish then (f.body b).drop (pos + 1)
    else if x = b then (f.body b).take pos else f.body x := by
  unfold move
  rw [Func.body_setBody _ _ _ _ (by rwa [Func.size_blocks_foldl_modifyInst, Func.size_blocks_setBody]),
    body_foldl_modifyInst, Func.body_setBody _ _ _ _ hb]
  simp only [eq_comm]

theorem inst_move (pos : Nat) {i : InstId} (hi : i < f.insts.size) : (c.move f b pos).inst i =
    if i ∈ (f.body b).drop (pos + 1) then { f.inst i with block := c.finish } else f.inst i :=
  Func.inst_foldl_modifyInst (fun _ => rfl) hi

theorem size_insts_move (pos : Nat) : (c.move f b pos).insts.size = f.insts.size :=
  Func.size_insts_foldl_modifyInst _ _

theorem size_blocks_move (pos : Nat) : (c.move f b pos).blocks.size = f.blocks.size := by
  unfold move
  rw [Func.size_blocks_setBody, Func.size_blocks_foldl_modifyInst, Func.size_blocks_setBody]

theorem params_move (pos : Nat) : (c.move f b pos).params = f.params :=
  List.foldlRecOn (motive := fun g : Func => g.params = f.params) _ _ rfl fun _ hg _ _ => hg

theorem term_move (pos : Nat) (x : BlockId) : (c.move f b pos).term x = f.term x := by
  unfold move
  rw [Func.term_setBody]
  exact List.foldlRecOn (motive := fun g : Func => g.term x = f.term x) _ _
    (Func.term_setBody ..) fun g hg i _ => (g.term_modifyInst i _ x).trans hg

end Move

/-- Splitting a block at a call moves what follows to the end of the cascade; every other call stands
in the block that it names. -/
theorem standingCall_split {pos : Nat} {b : BlockId} (h : f.StandingCall i)
    (hfinish : c.finish < f.blocks.size) (hempty : f.body c.finish = [])
    (hcall : (f.body b)[pos]? = some call) (hne : i ≠ call) :
    (c.split f b pos).StandingCall i := by
  have hb : b < f.blocks.size := f.lt_of_mem_body (List.mem_of_getElem? hcall)
  have hmoved : (c.move f b pos).StandingCall i := by
    refine ⟨?_, ?_, ?_⟩
    · rw [size_insts_move]
      exact h.lt
    · rw [inst_move pos h.lt, body_move hb hfinish]
      by_cases htail : i ∈ (f.body b).drop (pos + 1)
      · rw [if_pos htail, if_pos rfl]
        exact htail
      · have hmem := h.mem
        rw [if_neg htail]
        split
        · rename_i e
          rw [e, hempty] at hmem
          cases hmem
        split
        · rename_i e
          rw [e] at hmem
          exact (mem_take_or_drop hmem hcall hne).resolve_right htail
        · exact hmem
    · rw [inst_move pos h.lt]
      split <;> exact h.callee
  have hrenamed := List.foldlRecOn (motive := fun g : Func => g.StandingCall i) (f.term b).targets
    (fun g succ => g.replacePhiPred succ b c.finish) (hmoved.setTerm b (.br (c.test 0)))
    fun g hg succ _ => hg.replacePhiPred succ b c.finish
  rw [split_eq]
  exact hrenamed.setTerm c.finish (f.term b)

/-! ## Filling in the lanes -/

section Build

variable {K : Func → Prop} (hinsert : ∀ f b pos d, K f → K (Func.insertAt f b pos d).2)
  (hterm : ∀ f b t, K f → K (Func.setTerm f b t))

include hinsert in
theorem keeps_apply {code : Opcode} {args : List Value} {ty : Ty} :
    Triple (fun b => K b.func) (Build.apply code args ty) fun _ b => K b.func := by
  rintro b v b' hb e
  cases e
  exact hinsert _ _ _ _ hb

include hinsert hterm in
/-- Filling in a lane inserts operations and sets terminators. -/
theorem keeps_buildLane {markers : Markers} {isUniform : Value → Bool} {d : Instr} {callee : FuncId}
    {mask : Value} {next cond masked : BlockId} {lane : Nat} :
    Triple (fun b => K b.func) (buildLane markers isUniform d callee mask next lane cond masked)
      fun _ b => K b.func := by
  unfold buildLane
  have hswitch : ∀ x, Triple (fun b => K b.func) (Build.switchTo x) fun _ b => K b.func :=
    fun x => Triple.modify fun b hb => hb
  refine Triple.bind (hswitch cond) fun _ => ?_
  refine Triple.bind (keeps_apply hinsert) fun active => ?_
  refine Triple.bind (R := fun _ b => K b.func) (Triple.modify fun b hb => hterm _ _ _ hb) fun _ => ?_
  refine Triple.bind (hswitch masked) fun _ => ?_
  refine Triple.bind (R := fun _ b => K b.func) ?_ fun args =>
    Triple.bind (keeps_apply hinsert) fun call => Triple.pure fun b hb => hb
  refine Triple.mapM (J := fun _ _ (b : Builder) => K b.func) _ ?_ []
  rintro v tail vs -
  split
  · exact Triple.pure fun b hb => hb
  · refine Triple.bind (R := fun _ b => K b.func) ?_ fun ty => keeps_apply hinsert
    exact Triple.bind Triple.get fun _ => Triple.pure fun b hb => hb.2

end Build

end Cascade

namespace Stage

variable {t : Stage} {markers : Markers} {call : InstId} {rest : List InstId}

/-- Filling in all lanes inserts operations and sets terminators. -/
theorem keeps_buildCascade {K : Func → Prop}
    (hinsert : ∀ f b pos d, K f → K (Func.insertAt f b pos d).2)
    (hterm : ∀ f b t, K f → K (Func.setTerm f b t)) {c : Cascade} {d : Instr} {callee : FuncId}
    {mask : Value} :
    Triple (fun t => K t.func ∧ t.info.region = none) (buildCascade markers c d callee mask)
      fun _ t => K t.func ∧ t.info.region = none := by
  unfold buildCascade
  refine Triple.bind Triple.get fun t' => ?_
  refine Triple.bind (R := fun _ t => K t.func ∧ t.info.region = none) ?_ fun made =>
    Triple.pure fun u hu => hu
  refine (Triple.mapM (J := fun _ _ t => K t.func ∧ t.info.region = none) c.lanes.zipIdx ?_ []).mono
    (fun u hu => hu.2) fun _ u hu => hu
  rintro ⟨⟨cond, masked⟩, lane⟩ tail done - u r u' ⟨hu, hr⟩ e
  cases e
  exact ⟨Cascade.keeps_buildLane hinsert hterm ⟨u.func, .blockEnd cond⟩ _ _ hu rfl, hr⟩

/-- Recording a cascade makes no region. -/
theorem keeps_recordCascade {K : Func → Prop} {c : Cascade} {b : BlockId} {made : List Value} :
    Triple (fun t => K t.func ∧ t.info.region = none) (recordCascade c b made)
      fun _ t => K t.func ∧ t.info.region = none := by
  refine triple_recordCascade_of (J := fun _ _ t => K t.func ∧ t.info.region = none)
    (fun _ _ _ _ hu => hu) (fun new _ u hu => ⟨hu.1, ?_⟩) fun _ _ _ hu => hu
  show (u.info.addBlock new).region = none
  rw [VectorInfo.addBlock, hu.2]
  rfl

/-! ## Making calls lane by lane -/

/-- What holds while calls are made lane by lane: those that are left stand in their blocks. -/
structure CallsLeft (calls : List InstId) (t : Stage) : Prop where
  nodup : calls.Nodup
  stand : ∀ i ∈ calls, t.func.StandingCall i
  region : t.info.region = none

theorem CallsLeft.tail (h : CallsLeft (call :: rest) t) : CallsLeft rest t where
  nodup := (List.nodup_cons.mp h.nodup).2
  stand i hi := h.stand i (List.mem_cons_of_mem _ hi)
  region := h.region

/-- A call that stands in its block is found there, and the others keep standing in theirs. -/
theorem tripleAll_scalarizeCall :
    TripleAll (CallsLeft (call :: rest)) (scalarizeCall markers call) (fun _ => CallsLeft rest)
      fun e _ => e.Expected := by
  unfold scalarizeCall
  refine TripleAll.bind TripleAll.get fun t => ?_
  dsimp only
  split
  · split
    · split
      · exact TripleAll.pure fun u hu => hu.2.tail
      · split
        · rename_i pos hpos
          obtain ⟨hinsts, hbodies⟩ := Cascade.same_create t.func t.info.width
          obtain ⟨-, hfresh⟩ := Cascade.rewired_create t.func t.info.width
          generalize hc : (Cascade.create t.func t.info.width).1 = c at hfresh ⊢
          have hfinish := hfresh _ c.finish_mem_blocks
          let K (f : Func) : Prop := rest.Nodup ∧ ∀ i ∈ rest, f.StandingCall i
          refine TripleAll.bind (R := fun _ u => K u.func ∧ u.info.region = none)
            (TripleAll.set ?_) fun _ => ?_
          · rintro u ⟨rfl, hu⟩
            obtain ⟨hnew, hnodup⟩ := List.nodup_cons.mp hu.nodup
            refine ⟨⟨hnodup, fun i hi => ?_⟩, hu.region⟩
            have hempty : (Cascade.create t.func t.info.width).2.body c.finish = [] := by
              rw [hbodies, Func.body, Func.block_of_size_le _ hfinish.1]
              rfl
            have hcall : ((Cascade.create t.func t.info.width).2.body
                (t.func.inst call).block)[pos]? = some call := by
              rw [hbodies]
              obtain ⟨hlt, he, -⟩ := List.idxOf?_eq_some_iff.mp hpos
              rw [List.getElem?_eq_getElem hlt, he]
            exact Cascade.standingCall_split ((hu.tail.stand i hi).congr hinsts hbodies) hfinish.2
              hempty hcall fun e => hnew (e ▸ hi)
          · have hinsert : ∀ f b pos d, K f → K (Func.insertAt f b pos d).2 := fun f b pos d hf =>
              ⟨hf.1, fun i hi => (hf.2 i hi).insertAt b pos d⟩
            have hterm : ∀ f b t, K f → K (Func.setTerm f b t) := fun f b t hf =>
              ⟨hf.1, fun i hi => (hf.2 i hi).setTerm b t⟩
            refine TripleAll.bind (TripleAll.lift (keeps_buildCascade hinsert hterm)) fun made => ?_
            refine TripleAll.bind (TripleAll.lift keeps_recordCascade) fun _ => TripleAll.pure ?_
            exact fun u hu => ⟨hu.1.1, hu.1.2, hu.2⟩
        · rename_i hpos
          refine TripleAll.throw ?_
          rintro u ⟨rfl, hu⟩
          have hmem := (hu.stand call List.mem_cons_self).mem
          cases he : t.func.positionOf? call with
          | none => exact absurd hmem (List.idxOf?_eq_none_iff.mp he)
          | some pos => exact (hpos pos he).elim
    · exact TripleAll.pure fun u hu => hu.2.tail
  · rename_i hcallee
    refine TripleAll.throw ?_
    rintro u ⟨rfl, hu⟩
    obtain ⟨callee, he⟩ := Option.isSome_iff_exists.mp (hu.stand call List.mem_cons_self).callee
    exact (hcallee callee he).elim

end Stage

end Lockstep
