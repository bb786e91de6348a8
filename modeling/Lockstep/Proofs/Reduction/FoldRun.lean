import Lockstep.Proofs.Reduction.FoldSsa
import Lockstep.Proofs.Reduction.Folded

/-!
# Running a folded reduction

A function and what folding one of its reductions has made of it run side by side. The root holds the
same accumulator in both; in the loop the chain has been restarted, so that its elements hold what
accumulates to those of the first run (`Folded`), and the folded value is what the first run has at the
latch (`Follows.exists_fold`). This is kept by every instruction together with the fold behind it
(`Follows.exists_instr`), by the phis (`Abreast.exists_phis`), by a block (`Abreast.exists_block`) and
by a run (`FoldsOnce.exists_run`).
-/

namespace Lockstep

open Run

namespace Reduction

variable {s : Setup} {f g : Func} {l : Loop} {r : Reduction} {n : Const} {back : BlockId}
  {latch : InstId}

namespace FoldsOnce

variable (h : r.FoldsOnce f g l n back latch)

include h

theorem renames : Renaming f g id where
  params := h.params
  lt i hi := by
    show i < g.insts.size
    rw [h.size_insts]
    exact Nat.lt_succ_of_lt hi
  injective _ _ _ _ e := e
  ty := h.ty

theorem term_eq (hf : f.Coherent) (b : BlockId) :
    g.term b = (f.term b).map id (r.standIn l n latch f.insts.size b).value := by
  by_cases hb : b ∈ f.layout
  · exact h.term b hb
  · rw [hf.layout, Nat.not_lt] at hb
    rw [Cfg.term_of_size_le hb, Cfg.term_of_size_le (h.size_blocks ▸ hb)]
    rfl

/-- In the loop the neutral element stands for the root. -/
theorem restarts (hf : f.Coherent) :
    r.Restarts f g l (Substitution.single (.inst r.phi) (.const n)).value where
  renames := h.renames
  eq_self v hv := by rw [Substitution.value_single, if_neg hv]
  eq_phi j e := by
    rw [Substitution.value_single, if_pos rfl] at e
    cases e
  phis b _ := h.phis b
  inst b hb i hi hne := by rw [h.inst b i hi hne, standIn_of_mem hb]
  term b hb := by rw [h.term_eq hf b, standIn_of_mem hb]

/-- What a phi takes from a block. -/
theorem incomingValue? {phi : InstId} {b : BlockId}
    (hphi : phi ∈ f.phis b) (hroot : phi ≠ r.phi) (q : BlockId) : g.incomingValue? phi q =
      (f.incomingValue? phi q).map (r.standIn l n latch f.insts.size b).value := by
  unfold Func.incomingValue?
  rw [h.inst b phi (Func.mem_body_of_mem_phis hphi) hroot, Func.incoming_map]
  exact Func.lookup_map_values _ q _

end FoldsOnce

/-! ## Two runs -/

/-- Two machines, the second one after some elements in `S` have been executed from the neutral
element on: the root is `p` in both. -/
structure Follows (f g : Func) (r : Reduction) (n : Const) (p : Scalar) (S : InstId → Prop)
    (m m' : Machine) : Prop
    extends Folded f g (Substitution.single (.inst r.phi) (.const n)).value r p S m m' where
  root : m.value 1 (.inst r.phi) = [p]
  root' : m'.value 1 (.inst r.phi) = [p]

/-- If the root itself is the value of the latch, a value accumulated to itself stays what it is. -/
def SelfStable (r : Reduction) (f : Func) : Prop :=
  r.latchValue = .inst r.phi → ∀ x, x.HasTy (f.inst r.phi).ty →
    r.kind.binOp.eval x x (f.inst r.phi).ty = .ok x

/-- The folded value is the one of the latch. -/
def Stands (f : Func) (latch : InstId) (m m' : Machine) : Prop :=
  m'.value 1 (.inst f.insts.size) = m.value 1 (.inst latch)

variable {p : Scalar} {S S' : InstId → Prop} {D : BlockId → Prop} {m m' m0 m1 m2 start : Machine}
  {i : InstId} {b : BlockId} {pred : Option BlockId}

theorem Follows.mono (h : Follows f g r n p S m m') (hs : ∀ e ∈ r.elements, S' e → S e) :
    Follows f g r n p S' m m' :=
  { h.toFolded.mono hs with root := h.root, root' := h.root' }

section

variable (F : r.Foldable f l n back latch) (h : r.FoldsOnce f g l n back latch)

include F

/-- An observer outside the loop uses no elements but the root and the value of the latch. -/
theorem Foldable.of_usedBy {u : User} (hu : u ∈ f.users) (hout : f.userBlock u ∉ l.blocks) {v : Value}
    (hv : v ∈ f.usedBy u) : ∀ e ∈ r.elements, v = .inst e → e = r.phi ∨ e = latch := by
  rintro e he rfl
  refine (F.chain.observed u hu hout e he hv).imp id fun hlatch => ?_
  rw [F.latch_value] at hlatch
  exact (Value.inst.inj hlatch).symm

/-- Elements are computed in the loop. -/
theorem Foldable.not_mem_elements (hb : b ∉ l.blocks) (hi : i ∈ f.body b) : i ∉ r.elements := by
  intro he
  obtain ⟨c, hc, hic⟩ := F.chain.mem i he
  exact hb (F.ssa.eq_of_mem_body hi hic ▸ hc)

/-- Outside the loop the folded value stands for the one of the latch. -/
theorem Follows.value_outside (hm : Follows f g r n p S m m') (hs : Stands f latch m m') {v : Value}
    (hv : f.Defines v) {u : User} (hu : u ∈ f.users) (hout : f.userBlock u ∉ l.blocks)
    (huse : v ∈ f.usedBy u) :
    m'.value 1 ((Substitution.single (.inst latch) (.inst f.insts.size)).value v) = m.value 1 v := by
  rw [Substitution.value_single]
  split
  · rename_i e
    rw [e]
    exact hs
  · rename_i hne
    by_cases hroot : v = .inst r.phi
    · rw [hroot, hm.root, hm.root']
    · refine hm.value hv (fun e he hve => ?_) 1
      rcases F.of_usedBy hu hout huse e he hve with rfl | rfl
      · exact hroot hve
      · exact hne hve

include h

/-! ## Operations -/

section

variable (hw : s.width = 1) (hself : r.SelfStable f) (hp : p.HasTy (f.inst r.phi).ty)

include hw hself hp

/-- The fold gives what the first run has at the latch. -/
theorem Follows.exists_fold (hm : Follows f g r n p S m m') (hS : latch ≠ r.phi → S latch) :
    ∃ m1', instr s g f.insts.size m' = (.ok (), m1') ∧ Follows f g r n p S m m1' ∧
      Stands f latch m m1' ∧ givesTyped s g f.insts.size m' = true := by
  have hg := h.restarts F.ssa.toCoherent
  obtain ⟨b, -, hfold⟩ := h.fold
  have hop : (g.inst f.insts.size).op =
      .apply (.binary r.kind.binOp) [.inst r.phi, .inst latch] := by rw [hfold]
  obtain ⟨z, hz, hlatch⟩ : ∃ z, r.kind.binOp.eval p ((m'.value 1 (.inst latch)).lane 0)
      (f.inst r.phi).ty = .ok z ∧ m.value 1 (.inst latch) = [z] := by
    by_cases hl : latch = r.phi
    · rw [hl, hm.root']
      exact ⟨p, hself (hl ▸ F.latch_value) p hp, hm.root⟩
    · obtain ⟨x, x', hx, hx', -, hval⟩ := (hm.folds latch F.latch_mem (hS hl)).values
      rw [hg.eq_self _ fun e => hl (Value.inst.inj e)] at hx'
      rw [hx']
      exact ⟨x, hval, hx⟩
  have e' : instr s g f.insts.size m' = (.ok (), m'.setValue f.insts.size [z]) := by
    refine (instr_binary_eq_ok hw hop).mpr ⟨z, ?_, rfl⟩
    rw [hm.root', h.ty_fold]
    exact hz
  have hne : ∀ e < f.insts.size, e ≠ f.insts.size := fun _ => Nat.ne_of_lt
  refine ⟨_, e', ?_, ?_, givesTyped_of_forall e' fun heff => ?_⟩
  · constructor
    · refine ⟨hm.agrees.setValue_right (fun j hj => hne j hj.1) [z], hm.path, fun e he hS => ?_⟩
      obtain ⟨c, -, hec⟩ := F.chain.mem e he
      exact (hm.folds e he hS).ofEq rfl
        (Machine.value_setValue_of_ne _ (hg.ne (hne e (F.ssa.body_lt c e hec))))
    · exact hm.root
    · rw [Machine.value_setValue_of_ne _ fun e => hne _ F.root_lt (Value.inst.inj e)]
      exact hm.root'
  · rw [Stands, hlatch]
    refine Machine.value_setValue_self _ ?_
    rw [hm.agrees.size', h.size_insts]
    exact Nat.lt_succ_self _
  · rw [hop] at heff
    cases heff

/-- An instruction runs in both runs, and the fold behind it. -/
theorem Follows.exists_instr {before after : List InstId} (R : SingleLane s f start)
    (ha : Arrives s f start pred b m0)
    (hphis : phis s f pred b { m0 with path := b :: m0.path } = (.ok (), m1))
    (hpath : f.Path (fun d => d ∉ l.blocks ∨ D d) f.entry b)
    (hsplit : f.nonPhis b = before ++ i :: after) (hbefore : before.forM (instr s f) m1 = (.ok (), m))
    (hm : Follows f g r n p (fun j => (f.DefinedIn D j ∨ j ∈ f.phis b) ∨ j ∈ before) m m')
    (hs : Stands f latch m m') (e : instr s f i m = (.ok (), m2)) : ∃ m2',
      (withFold latch f.insts.size i).forM (instr s g) m' = (.ok (), m2') ∧
      Follows f g r n p (fun j => (f.DefinedIn D j ∨ j ∈ f.phis b) ∨ j ∈ before ++ [i]) m2 m2' ∧
      Stands f latch m2 m2' ∧
      holdsOfInstrs (givesTyped s g) s g (withFold latch f.insts.size i) m' = true := by
  have hf := F.ssa
  have hg := h.restarts hf.toCoherent
  have hi : i ∈ f.nonPhis b := by rw [hsplit]; simp
  have hbody := Func.mem_body_of_mem_nonPhis hi
  have hlt := hf.body_lt b i hbody
  have hroot : i ≠ r.phi := by
    rintro rfl
    cases (hf.phis_first b _ hi).symm.trans (Func.isPhi_of_mem_phis F.chain.phi_mem)
  have hinst := h.inst b i hbody hroot
  obtain ⟨m2', e', hm2⟩ : ∃ m2', instr s g i m' = (.ok (), m2') ∧ Folded f g
      (Substitution.single (.inst r.phi) (.const n)).value r p
      (fun j => (f.DefinedIn D j ∨ j ∈ f.phis b) ∨ j ∈ before ++ [i]) m2 m2' := by
    by_cases hb : b ∈ l.blocks
    · exact hm.toFolded.exists_instr hf hw hg F.typesAgree F.chain F.isFloat F.neutral hp R ha hphis hb
        hpath hsplit hbefore e
    · have huse := fun v (hv : v ∈ (f.inst i).uses) => F.chain.of_mem_uses hf hpath hsplit hv
      rw [standIn_of_not_mem hb] at hinst
      obtain ⟨m2', e', hm2⟩ := hm.toFolded.exists_instr_of_values hf hw hg hi
        (F.not_mem_elements hb hbody) hinst
        (fun v hv => by
          rw [hw]
          refine hm.value_outside F hs (huse v hv).1 (u := .inst i) (hf.mem_users hbody) ?_ hv
          rwa [Func.userBlock, hf.placed b i hbody])
        (fun v hv => by
          have htype := h.typeOf_standIn F (c := b) (hf.inputs i v hv)
          rwa [standIn_of_not_mem hb] at htype) e
      exact ⟨m2', e', hm2.mono fun j _ hj => by simpa [or_assoc] using hj⟩
  have hval : Value.inst r.phi ≠ .inst i := fun h => hroot (Value.inst.inj h).symm
  have hfollows : Follows f g r n p
      (fun j => (f.DefinedIn D j ∨ j ∈ f.phis b) ∨ j ∈ before ++ [i]) m2 m2' :=
    { hm2 with
      root := (value_instr_of_ne e hval 1).trans hm.root
      root' := (value_instr_of_ne e' hval 1).trans hm.root' }
  have hgives : givesTyped s g i m' = true := by
    refine givesTyped_of_forall e' fun heff => ?_
    have heff : (f.inst i).op.hasSideEffects = true := by
      rw [hinst] at heff
      rw [← heff]
      show _ = ((f.inst i).op.map _ _).hasSideEffects
      cases (f.inst i).op <;> rfl
    have hnot : i ∉ r.elements := by
      intro hmem
      obtain ⟨-, args, hop, -⟩ := F.chain.update i hmem (hf.phis_first b i hi)
      rw [hop] at heff
      cases heff
    rw [hm2.agrees.value_id (v := .inst i) ⟨hlt, hnot⟩, h.ty i hlt]
    exact R.outside i m m2 ⟨pred, b, m0, m1, before, after, ha, hphis, hsplit, hbefore⟩ heff e
  by_cases hlatch : i = latch
  · -- the fold comes next
    obtain ⟨m3', e3, hm3, hs3, hgives3⟩ := hfollows.exists_fold F h hw hself hp fun _ =>
      .inr (by simp [hlatch])
    rw [withFold, if_pos hlatch]
    refine ⟨m3', (bind_run_eq e').trans (bind_run_eq e3), hm3, hs3, ?_⟩
    simp [holdsOfInstrs, hgives, e', hgives3, e3]
  · rw [withFold, if_neg hlatch]
    refine ⟨m2', bind_run_eq e', hfollows, ?_, by simp [holdsOfInstrs, hgives, e']⟩
    rw [Stands, value_instr_of_ne e fun h => hlatch (Value.inst.inj h).symm,
      value_instr_of_ne e' fun h => Nat.ne_of_gt hlt (Value.inst.inj h)]
    exact hs

/-- The operations of a block run in both runs. -/
theorem Follows.exists_instrs {before after : List InstId} (R : SingleLane s f start)
    (ha : Arrives s f start pred b m0)
    (hphis : phis s f pred b { m0 with path := b :: m0.path } = (.ok (), m1))
    (hpath : f.Path (fun d => d ∉ l.blocks ∨ D d) f.entry b)
    (hsplit : f.nonPhis b = before ++ after) (hbefore : before.forM (instr s f) m1 = (.ok (), m))
    (hm : Follows f g r n p (fun j => (f.DefinedIn D j ∨ j ∈ f.phis b) ∨ j ∈ before) m m')
    (hs : Stands f latch m m') (e : after.forM (instr s f) m = (.ok (), m2)) : ∃ m2',
      (after.flatMap (withFold latch f.insts.size)).forM (instr s g) m' = (.ok (), m2') ∧
      Follows f g r n p (f.DefinedIn fun d => D d ∨ d = b) m2 m2' ∧ Stands f latch m2 m2' ∧
      holdsOfInstrs (givesTyped s g) s g (after.flatMap (withFold latch f.insts.size)) m' = true := by
  induction after generalizing before m m' with
  | nil =>
    cases e
    rw [List.append_nil] at hsplit
    refine ⟨m', rfl, hm.mono fun j _ hj => ?_, hs, rfl⟩
    obtain ⟨d, hd | rfl, hj⟩ := hj
    · exact .inl (.inl ⟨d, hd, hj⟩)
    · rw [← f.phis_append_nonPhis, List.mem_append, hsplit] at hj
      exact hj.imp .inr id
  | cons i after ih =>
    obtain ⟨_, ma, hi, e⟩ := exists_of_bind_run_eq_ok e
    obtain ⟨ma', hi', hma, hsa, hgives⟩ :=
      hm.exists_instr F h hw hself hp R ha hphis hpath hsplit hbefore hs hi
    obtain ⟨m2', e', hm2, hs2, hgives2⟩ := ih (by simp [hsplit])
      (forM_append_eq_ok.mpr ⟨m, hbefore, bind_run_eq hi⟩) hma hsa e
    rw [List.flatMap_cons]
    exact ⟨m2', forM_append_eq_ok.mpr ⟨ma', hi', e'⟩, hm2, hs2,
      holdsOfInstrs_append hgives hi' hgives2⟩

end

/-! ## Phis -/

omit h in
theorem Foldable.ne_root (hb : b ≠ l.header) (hi : i ∈ f.body b) : i ≠ r.phi := by
  rintro rfl
  exact hb (F.ssa.eq_of_mem_body hi (Func.mem_body_of_mem_phis F.chain.phi_mem))

/-- Only the phi for the latch and the fold change what is at the latch. -/
theorem Stands.phis {m1' : Machine} (hs : Stands f latch m m') (hlatch : latch ∉ f.phis b)
    (e : phis s f pred b { m with path := b :: m.path } = (.ok (), m1))
    (e' : phis s g pred b { m' with path := b :: m'.path } = (.ok (), m1')) :
    Stands f latch m1 m1' := by
  unfold Stands
  rw [value_phis_of_ne e fun i hi he => ?_, Machine.value_visit, value_phis_of_ne e' fun i hi he => ?_,
    Machine.value_visit]
  · exact hs
  · rw [h.phis] at hi
    exact Nat.ne_of_gt (F.ssa.body_lt b i (Func.mem_body_of_mem_phis hi)) (Value.inst.inj he)
  · cases he
    exact hlatch hi

/-- The phis of a block behind the header run in both runs. -/
theorem Follows.exists_phis_inside {q : BlockId} (hw : s.width = 1)
    (hm : Follows f g r n p (f.DefinedIn D) m m') (hb : b ∈ l.blocks) (hne : b ≠ l.header)
    (hq : q ∉ l.blocks ∨ D q) (hpath : f.Path (fun d => d ∉ l.blocks ∨ D d) f.entry q)
    (hqb : b ∈ (f.term q).targets)
    (e : phis s f (some q) b { m with path := b :: m.path } = (.ok (), m1)) : ∃ m1',
      phis s g (some q) b { m' with path := b :: m'.path } = (.ok (), m1') ∧
      Follows f g r n p (fun j => f.DefinedIn D j ∨ j ∈ f.phis b) m1 m1' := by
  have hS : ∀ phi ∈ f.phis b, ∀ e ∈ r.elements, f.incomingValue? phi q = some (.inst e) →
      f.DefinedIn D e := by
    intro phi hphi e he hv
    have havail := F.ssa.available_incoming (Cfg.reachable_of_path hpath) hqb hphi hv
    exact F.chain.definedIn F.ssa he (havail.within_end hpath hq)
  obtain ⟨m1', e', hm1⟩ := hm.toFolded.exists_phis F.ssa hw (h.restarts F.ssa.toCoherent) F.typesAgree
    F.chain hb hne hS e
  have hval : ∀ i ∈ f.phis b, Value.inst r.phi ≠ .inst i := fun i hi he =>
    F.ne_root hne (Func.mem_body_of_mem_phis hi) (Value.inst.inj he).symm
  refine ⟨m1', e', { hm1 with root := ?_, root' := ?_ }⟩
  · rw [value_phis_of_ne e hval, Machine.value_visit]
    exact hm.root
  · rw [value_phis_of_ne e' (h.phis b ▸ hval), Machine.value_visit]
    exact hm.root'

/-- The phis of a block outside the loop run in both runs. -/
theorem Follows.exists_phis_outside (hw : s.width = 1)
    (hm : Follows f g r n p S m m') (hs : Stands f latch m m') (hb : b ∉ l.blocks)
    (e : phis s f pred b { m with path := b :: m.path } = (.ok (), m1)) : ∃ m1',
      phis s g pred b { m' with path := b :: m'.path } = (.ok (), m1') ∧
      Follows f g r n p (fun j => S j ∨ j ∈ f.phis b) m1 m1' := by
  have hg := h.restarts F.ssa.toCoherent
  have hne : b ≠ l.header := fun e => hb (e ▸ F.headed.header_mem)
  have hnot : ∀ i ∈ f.phis b, i ∉ r.elements := fun i hi =>
    F.not_mem_elements hb (Func.mem_body_of_mem_phis hi)
  obtain ⟨m1', e', hagrees, hpath⟩ := hm.toFolded.exists_phis_of_values hg (h.phis b)
    (fun phi hphi v hv => by
      obtain ⟨q, rfl, hv⟩ := Option.bind_eq_some_iff.mp hv
      have hbody := Func.mem_body_of_mem_phis hphi
      have hinput := mem_inputs_of_incomingValue? hv
      refine ⟨_, (h.incomingValue? hphi (F.ne_root hne hbody) q).trans (congrArg _ hv), fun _ => ?_⟩
      rw [standIn_of_not_mem hb, hw]
      refine hm.value_outside F hs (F.ssa.inputs phi v hinput) (u := .inst phi) (F.ssa.mem_users hbody)
        ?_ (List.mem_append_left _ hinput)
      rwa [Func.userBlock, F.ssa.placed b phi hbody]) e
  have hval : ∀ e ∈ r.elements, ∀ i ∈ f.phis b, Value.inst e ≠ .inst i := fun e he i hi h =>
    hnot i hi (Value.inst.inj h ▸ he)
  refine ⟨m1', e', ⟨hagrees, hpath, fun e0 he hS => ?_⟩, ?_, ?_⟩
  · refine (hm.folds e0 he (hS.resolve_right fun hi => hnot e0 hi he)).ofEq ?_ ?_
    · rw [value_phis_of_ne e (hval e0 he), Machine.value_visit]
    · rw [value_phis_of_ne e' (fun i hi => hg.ne fun h0 => hnot i (h.phis b ▸ hi) (h0 ▸ he)),
        Machine.value_visit]
  · rw [value_phis_of_ne e (hval _ F.chain.phi_element), Machine.value_visit]
    exact hm.root
  · rw [value_phis_of_ne e' (h.phis b ▸ hval _ F.chain.phi_element), Machine.value_visit]
    exact hm.root'

/-- What the phis of the header take has the same value in both runs. -/
theorem Follows.value_header {q : BlockId} (hm : Follows f g r n p S m m') (hs : Stands f latch m m')
    {phi : InstId} (hphi : phi ∈ f.phis l.header) {v : Value} (hv : f.incomingValue? phi q = some v) :
    ∃ v', g.incomingValue? phi q = some v' ∧ m'.value 1 v' = m.value 1 v := by
  have hbody := Func.mem_body_of_mem_phis hphi
  have hinput := mem_inputs_of_incomingValue? hv
  have hdef := F.ssa.inputs phi v hinput
  by_cases hroot : phi = r.phi
  · subst hroot
    have hroot : g.incomingValue? r.phi q =
        if q = back then some (.inst f.insts.size) else some v := by
      unfold Func.incomingValue?
      rw [h.root, Func.incoming_mapIncoming (Func.isPhi_of_mem_phis hphi), Func.lookup_setEntry, ← hv]
      rfl
    obtain ⟨x, hx, y, hy, w, hcases⟩ := Search.latchValue?_cases F.chain.latch_value
    by_cases hq : q ∈ l.blocks
    · have hlatch := F.chain.incoming hq hv
      rw [F.latch_value] at hlatch
      subst hlatch
      -- both are the only entry from inside
      have honly : ∀ z ∈ l.blocks, (f.incomingValue? r.phi z).isSome → z = x := by
        intro z hz hsome
        by_contra hne
        have hzx : (z == x) = false := beq_eq_false_iff_ne.mpr hne
        have hzy : (z == y) = false := beq_eq_false_iff_ne.mpr fun e => hy (e ▸ hz)
        unfold Func.incomingValue? at hsome
        rcases hcases with e | e <;> simp [e, List.lookup_cons, hzx, hzy] at hsome
      have hback : q = back := (honly q hq (by rw [hv]; rfl)).trans
        (honly back F.pred_mem (by rw [F.incoming]; rfl)).symm
      rw [if_pos hback] at hroot
      exact ⟨_, hroot, hs⟩
    · rw [if_neg fun (e : q = back) => hq (e ▸ F.pred_mem)] at hroot
      refine ⟨v, hroot, hm.value hdef (fun e he hve => ?_) 1⟩
      obtain ⟨c, hc, hec⟩ := F.chain.mem e he
      exact F.chain.block_not_mem F.ssa F.headed hq (hve ▸ hv) (F.ssa.placed c e hec ▸ hc)
  · -- no other phi of the header is an element
    have huse : ∀ e ∈ r.elements, v ≠ .inst e := by
      rintro e he rfl
      have hmem := F.chain.user _ F.headed.header_mem phi hbody e he (List.mem_append_left _ hinput)
      exact (F.chain.phi phi hmem hroot (Func.isPhi_of_mem_phis hphi)).1 hbody
    refine ⟨_, (h.incomingValue? hphi hroot q).trans (congrArg _ hv), ?_⟩
    rw [standIn_of_mem F.headed.header_mem,
      (h.restarts F.ssa.toCoherent).eq_self v (huse _ F.chain.phi_element)]
    exact hm.value hdef huse 1

/-- At the header the chain starts again, from what the root takes. -/
theorem Follows.exists_phis_header {q : BlockId} (R : SingleLane s f start)
    (ha : Arrives s f start (some q) l.header m)
    (hm : Follows f g r n p S m m') (hs : Stands f latch m m')
    (e : phis s f (some q) l.header { m with path := l.header :: m.path } = (.ok (), m1)) :
    ∃ m1' p', phis s g (some q) l.header { m' with path := l.header :: m'.path } = (.ok (), m1') ∧
      p'.HasTy (f.inst r.phi).ty ∧
      Follows f g r n p' (fun j => f.DefinedIn (fun _ => False) j ∨ j ∈ f.phis l.header) m1 m1' := by
  obtain ⟨htyped, hfull, hsize⟩ := R.arrives F.typesAgree ha
  have hin : ∀ phi ∈ f.phis l.header, ∀ v, (some q).bind (f.incomingValue? phi) = some v →
      ∃ v', (some q).bind (g.incomingValue? phi) = some v' ∧
        (phi ∉ r.elements → m'.value s.width v' = m.value s.width v) := by
    intro phi hphi v (hv : f.incomingValue? phi q = some v)
    obtain ⟨v', hv', hval⟩ := hm.value_header F h hs hphi hv
    exact ⟨v', hv', fun _ => R.width ▸ hval⟩
  obtain ⟨m1', e', hagrees, hpath⟩ := hm.toFolded.exists_phis_of_values
    (h.restarts F.ssa.toCoherent) (h.phis _) hin e
  have hfull1 : m1.Full 1 := by
    have hw := R.width
    rw [← hw] at hfull ⊢
    have hvisit : Machine.Full s.width { m with path := l.header :: m.path } := hfull.ofEq rfl rfl
    exact full_phis hvisit e
  have htyped1 : m1.Typed f := by
    have hvisit : ({ m with path := l.header :: m.path } : Machine).Typed f := htyped.ofEq rfl rfl
    exact typed_phis F.typesAgree hvisit e
  obtain ⟨p', hp'⟩ := List.length_eq_one_iff.mp (hfull1.value (.inst r.phi))
  have hty : p'.HasTy (f.inst r.phi).ty := by
    have h := htyped1.value (v := .inst r.phi) trivial 1 0
    rw [hp'] at h
    exact h
  have hroot' : m1'.value 1 (.inst r.phi) = [p'] := by
    have hnodup : (f.phis l.header).Nodup :=
      (F.ssa.nodup l.header).sublist (List.takeWhile_sublist _)
    obtain ⟨v, hv, hval⟩ := exists_value_of_phis e hnodup F.chain.phi_mem
      (by rw [hm.agrees.size]; exact F.root_lt)
    obtain ⟨v', hv', hval'⟩ := exists_value_of_phis e' (h.phis _ ▸ hnodup) (h.phis _ ▸ F.chain.phi_mem)
      (by rw [hm.agrees.size']; exact h.renames.lt _ F.root_lt)
    have hv : f.incomingValue? r.phi q = some v := hv
    obtain ⟨v'', hv'', heq⟩ := hm.value_header F h hs F.chain.phi_mem hv
    cases hv'.symm.trans hv''
    rw [R.width] at hval hval'
    calc m1'.value 1 (.inst r.phi)
      _ = m'.value 1 v' := hval'.trans (m'.value_visit _ 1 v')
      _ = m.value 1 v := heq
      _ = m1.value 1 (.inst r.phi) := (hval.trans (m.value_visit _ 1 v)).symm
      _ = [p'] := hp'
  refine ⟨m1', p', e', hty, ⟨hagrees, hpath, fun e0 he hS => ?_⟩, hp', hroot'⟩
  obtain ⟨d, hd, -⟩ | hphi0 := hS
  · exact hd.elim
  obtain rfl : e0 = r.phi := by
    by_contra hne
    exact (F.chain.phi e0 he hne (Func.isPhi_of_mem_phis hphi0)).1 (Func.mem_body_of_mem_phis hphi0)
  refine ⟨rfl, p', n.val, hp', ?_, ReductionKind.hasTy_neutral F.isFloat F.neutral,
    ReductionKind.eval_neutral F.isFloat F.neutral hty⟩
  rw [Substitution.value_single, if_pos rfl]
  rfl

end

/-! ## Blocks -/

/-- Control comes to a block in two runs, after the blocks `D` of the iteration; the accumulator is
`p`. -/
structure Abreast (f g : Func) (l : Loop) (r : Reduction) (n : Const) (latch : InstId) (p : Scalar)
    (D : BlockId → Prop) (pred : Option BlockId) (b : BlockId) (m m' : Machine) : Prop
    extends Follows f g r n p (f.DefinedIn D) m m' where
  stands : Stands f latch m m'
  ty : p.HasTy (f.inst r.phi).ty
  way : f.Path (fun d => d ∉ l.blocks ∨ D d) f.entry b
  start : pred = none → b = f.entry
  came : ∀ q, pred = some q → (q ∉ l.blocks ∨ D q) ∧
    f.Path (fun d => d ∉ l.blocks ∨ D d) f.entry q ∧ b ∈ (f.term q).targets

section

variable (F : r.Foldable f l n back latch) (h : r.FoldsOnce f g l n back latch) (hself : r.SelfStable f)

include F h

/-- The phis of a block run in both runs, and start the chain again if it is the header. -/
theorem Abreast.exists_phis (hm : Abreast f g l r n latch p D pred b m m') (R : SingleLane s f start)
    (ha : Arrives s f start pred b m)
    (e : phis s f pred b { m with path := b :: m.path } = (.ok (), m1)) : ∃ m1' p' D',
      phis s g pred b { m' with path := b :: m'.path } = (.ok (), m1') ∧
      p'.HasTy (f.inst r.phi).ty ∧ f.Path (fun d => d ∉ l.blocks ∨ D' d) f.entry b ∧
      Follows f g r n p' (fun j => f.DefinedIn D' j ∨ j ∈ f.phis b) m1 m1' := by
  by_cases hb : b ∈ l.blocks
  · -- the entry is outside the loop
    cases pred with
    | none =>
      obtain ⟨x, hx⟩ := F.headed.again
      have hentry := hm.start rfl
      rw [F.headed.entry_eq (hentry ▸ hb)] at hentry
      exact absurd (F.headed.entry_eq (hm.start rfl ▸ hb) ▸ hx) (F.ssa.entry_pred x)
    | some q =>
      obtain ⟨hq, hpath, hqb⟩ := hm.came q rfl
      by_cases hne : b = l.header
      · subst hne
        obtain ⟨m1', p', e', hty, hm1⟩ := hm.toFollows.exists_phis_header F h R ha hm.stands e
        exact ⟨m1', p', fun _ => False, e', hty, F.headed.path.mono fun _ => .inl, hm1⟩
      · obtain ⟨m1', e', hm1⟩ :=
          hm.toFollows.exists_phis_inside F h R.width hb hne hq hpath hqb e
        exact ⟨m1', p, D, e', hm.ty, hm.way, hm1⟩
  · obtain ⟨m1', e', hm1⟩ := hm.toFollows.exists_phis_outside F h R.width hm.stands hb e
    exact ⟨m1', p, D, e', hm.ty, hm.way, hm1⟩

/-- Control leaves a block the same way in both runs. -/
theorem Follows.wayOut_eq (hw : s.width = 1) (hm : Follows f g r n p S m m') (hs : Stands f latch m m')
    {c : BlockId ⊕ Option Lanes} (e : wayOut s.width (f.term b) b m = .ok c) :
    wayOut s.width (g.term b) b m' = .ok c := by
  have hg := h.restarts F.ssa.toCoherent
  by_cases hb : b ∈ l.blocks
  · exact hm.toFolded.wayOut_eq F.ssa hg F.chain hb e
  · have hlayout : ∀ v ∈ (f.term b).uses, b ∈ f.layout := by
      intro v hv
      rw [F.ssa.layout]
      by_contra hlt
      rw [Cfg.term_of_size_le (Nat.not_lt.mp hlt)] at hv
      cases hv
    have hvalue : ∀ v ∈ (f.term b).uses, m'.value s.width
        ((Substitution.single (.inst latch) (.inst f.insts.size)).value v) = m.value s.width v := by
      intro v hv
      rw [hw]
      exact hm.value_outside F hs (F.ssa.uses b v hv)
        (f.mem_users_terminator.mpr (hlayout v hv)) hb hv
    have hway := wayOut_map_of_value hvalue e id b
    rw [h.term_eq F.ssa.toCoherent, standIn_of_not_mem hb, hway]
    cases c <;> rfl

include hself

/-- A block runs in both runs. -/
theorem Abreast.exists_block (hm : Abreast f g l r n latch p D pred b m m') (R : SingleLane s f start)
    (ha : Arrives s f start pred b m) {c : BlockId ⊕ Option Lanes}
    (e : block s f pred b m = (.ok c, m2)) : ∃ m1' m2' p' D',
      phis s g pred b { m' with path := b :: m'.path } = (.ok (), m1') ∧
      holdsOfInstrs (givesTyped s g) s g (g.nonPhis b) m1' = true ∧
      block s g pred b m' = (.ok c, m2') ∧
      Follows f g r n p' (f.DefinedIn D') m2 m2' ∧
      ∀ x, c = .inl x → Abreast f g l r n latch p' D' (some b) x m2 m2' := by
  obtain ⟨m1, hphis, hops, hway⟩ := block_eq_ok_iff.mp e
  obtain ⟨m1', p', D', hphis', hty, hpath, hm1⟩ := hm.exists_phis F h R ha hphis
  -- the fold stands behind the phis if one of them is the value of the latch
  obtain ⟨ma', hfold, hma, hsa, hgives⟩ : ∃ ma',
      (if latch ∈ f.phis b then [f.insts.size] else []).forM (instr s g) m1' = (.ok (), ma') ∧
      Follows f g r n p' (fun j => f.DefinedIn D' j ∨ j ∈ f.phis b) m1 ma' ∧ Stands f latch m1 ma' ∧
      holdsOfInstrs (givesTyped s g) s g (if latch ∈ f.phis b then [f.insts.size] else []) m1' =
        true := by
    by_cases hlatch : latch ∈ f.phis b
    · obtain ⟨ma', e', hma, hsa, hgives⟩ := hm1.exists_fold F h R.width hself hty fun _ => .inr hlatch
      rw [if_pos hlatch]
      exact ⟨ma', bind_run_eq e', hma, hsa, by simp [holdsOfInstrs, hgives, e']⟩
    · rw [if_neg hlatch]
      exact ⟨m1', rfl, hm1, hm.stands.phis F h hlatch hphis hphis', rfl⟩
  have hmb : Follows f g r n p' (fun j => (f.DefinedIn D' j ∨ j ∈ f.phis b) ∨ j ∈ ([] : List InstId))
      m1 ma' := hma.mono fun j _ hj => by simpa using hj
  obtain ⟨m2', hops', hm2, hs2, hgives2⟩ :=
    hmb.exists_instrs F h R.width hself hty R ha hphis hpath (List.nil_append _).symm rfl hsa hops
  have hops2 : (g.nonPhis b).forM (instr s g) m1' = (.ok (), m2') := by
    rw [h.nonPhis]
    exact forM_append_eq_ok.mpr ⟨ma', hfold, hops'⟩
  have hpath' : f.Path (fun d => d ∉ l.blocks ∨ D' d ∨ d = b) f.entry b :=
    hpath.mono fun d => Or.imp id .inl
  refine ⟨m1', m2', p', fun d => D' d ∨ d = b, hphis', ?_,
    block_eq_ok_iff.mpr ⟨m1', hphis', hops2, hm2.wayOut_eq F h R.width hs2 hway⟩, hm2, ?_⟩
  · rw [h.nonPhis]
    exact holdsOfInstrs_append hgives hfold hgives2
  · rintro x rfl
    have htarget := target_of_wayOut hway
    exact { hm2 with
      stands := hs2
      ty := hty
      way := hpath'.tail (.inr (.inr rfl)) htarget
      start := nofun
      came := by
        rintro _ ⟨⟩
        exact ⟨.inr (.inr rfl), hpath', htarget⟩ }

/-- What is left of a run is run in both runs. -/
theorem Abreast.exists_blocks {steps : Nat} {ret : Option Lanes}
    (hm : Abreast f g l r n latch p D pred b m m') (R : SingleLane s f start)
    (ha : Arrives s f start pred b m) (e : blocks s f steps pred b m = (.ok ret, m2)) : ∃ m2',
      blocks s g steps pred b m' = (.ok ret, m2') ∧ m2'.memory = m2.memory ∧
      m2'.callLog = m2.callLog ∧ m2'.path = m2.path ∧
      holdsOfBlocks (givesTyped s g) s g steps pred b m' = true := by
  induction steps generalizing p D pred b m m' with
  | zero => cases e
  | succ steps ih =>
    obtain ⟨c, m1, e1, e⟩ := exists_of_bind_run_eq_ok e
    obtain ⟨mp', m1', p', D', hphis', hgives, e1', hm1, hnext⟩ := hm.exists_block F h hself R ha e1
    cases c with
    | inr ret' =>
      cases e
      refine ⟨m1', bind_run_eq e1', hm1.agrees.memory, hm1.agrees.callLog, hm1.path, ?_⟩
      simp [holdsOfBlocks, hphis', hgives, e1']
    | inl x =>
      obtain ⟨m2', e', hmem, hcalls, hpath, hgives2⟩ := ih (hnext x rfl) (ha.next e1) e
      refine ⟨m2', (bind_run_eq e1').trans e', hmem, hcalls, hpath, ?_⟩
      simp [holdsOfBlocks, hphis', hgives, e1', hgives2]

/-- A single-lane run of a function is one of the folded function. -/
theorem FoldsOnce.exists_run {args : List Lanes} {memory : Array Scalar} {ret : Option Lanes}
    (hw : s.width = 1) (hargs : ArgsTyped f args)
    (hout : OutsideTyped s f (startMachine s f args memory))
    (e : f.run s args memory = (.ok ret, m)) : ∃ m', g.run s args memory = (.ok ret, m') ∧
      m'.memory = m.memory ∧ m'.callLog = m.callLog ∧ m'.path = m.path ∧
      OutsideTyped s g (startMachine s g args memory) := by
  obtain ⟨params, hp⟩ := Func.exists_arguments e
  obtain rfl := arguments_one hw hp
  have R := singleLane_start hw hargs hout hp
  rw [Func.run_eq hp] at e
  have hp' : arguments s g params = .ok params := by
    rw [← hp]
    unfold arguments
    rw [h.params]
  have hvalue : ∀ (f : Func) (i : InstId),
      (startMachine s f params memory).value 1 (.inst i) = [.undefined] := by
    intro f i
    show ((Array.replicate f.insts.size (Lanes.splat s.width .undefined))[i]?).getD _ = _
    rw [Array.getElem?_replicate, hw]
    split <;> rfl
  have hstart : Abreast f g l r n latch .undefined (fun _ => False) none f.entry
      (startMachine s f params memory) (startMachine s g params memory) :=
    { agrees :=
        { size := Array.size_replicate
          size' := Array.size_replicate
          within := fun _ hi => hi.1
          params := rfl
          memory := rfl
          callLog := rfl
          values := fun i hi => by
            show (Array.replicate _ _)[i]? = (Array.replicate _ _)[i]?
            have hlt : i < g.insts.size := h.renames.lt i hi.1
            rw [Array.getElem?_replicate, Array.getElem?_replicate, if_pos hi.1, if_pos hlt] }
      path := rfl
      way := .refl _
      folds := fun _ _ ⟨_, hd, _⟩ => hd.elim
      root := hvalue f _
      root' := hvalue g _
      stands := (hvalue g _).trans (hvalue f _).symm
      ty := Scalar.hasTy_undefined _
      start := fun _ => rfl
      came := nofun }
  obtain ⟨m', e', hmem, hcalls, hpath, hgives⟩ := hstart.exists_blocks F h hself R .entry e
  refine ⟨m', ?_, hmem, hcalls, hpath, outsideTyped_of_holds hgives⟩
  rw [Func.run_eq hp']
  exact e'

end

end Reduction

end Lockstep
