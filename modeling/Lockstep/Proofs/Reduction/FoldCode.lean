import Lockstep.Proofs.Func.Arranged
import Lockstep.Proofs.Func.Uses
import Lockstep.Proofs.Reduction.Chain
import Lockstep.Reduction.Fold

/-!
# The code of a folded reduction

`FoldsOnce r f g l n pred latch` says how `g` differs from `f` when a reduction has been folded: in the
loop the neutral element stands for the root, outside the folded value stands for the one of the
latch. The folded value is computed behind the value of the latch, in the same block, and the root
takes it from there. Folding a chain gives such a function (`Stage.foldsOnce_foldChain`).
-/

namespace Lockstep

namespace Reduction

/-- What stands for a value that is used in a block: in the loop the neutral element for the root,
outside the folded value for the one of the latch. -/
def standIn (l : Loop) (r : Reduction) (n : Const) (latch fold : InstId) (b : BlockId) : Substitution :=
  if b ∈ l.blocks then .single (.inst r.phi) (.const n) else .single (.inst latch) (.inst fold)

/-- The code of an operation, with the fold behind the one at the latch. -/
def withFold (latch fold i : InstId) : List InstId := if i = latch then [i, fold] else [i]

/-- The function `g` is `f` with the chain of a reduction restarted from `n`, and folded once. -/
structure FoldsOnce (r : Reduction) (f g : Func) (l : Loop) (n : Const) (pred : BlockId)
    (latch : InstId) : Prop where
  params : g.params = f.params
  layout : g.layout = f.layout
  size_blocks : g.blocks.size = f.blocks.size
  size_insts : g.insts.size = f.insts.size + 1
  coherent : g.Coherent
  ty : ∀ i < f.insts.size, (g.inst i).ty = (f.inst i).ty
  nodup : ∀ b, (g.body b).Nodup
  phis_first : ∀ b, ∀ i ∈ g.nonPhis b, g.isPhi i = false
  term : ∀ b ∈ f.layout, g.term b =
    (f.term b).map id (r.standIn l n latch f.insts.size b).value
  inst : ∀ b, ∀ i ∈ f.body b, i ≠ r.phi → g.inst i =
    (f.inst i).map id (r.standIn l n latch f.insts.size b).value
  root : g.inst r.phi = Func.mapIncoming (Func.setEntry · pred (.inst f.insts.size)) (f.inst r.phi)
  fold : ∃ b, latch ∈ f.body b ∧ g.inst f.insts.size =
    { op := .apply (.binary r.kind.binOp) [.inst r.phi, .inst latch], ty := (f.inst r.phi).ty, block := b }
  phis : ∀ b, g.phis b = f.phis b
  nonPhis : ∀ b, g.nonPhis b = (if latch ∈ f.phis b then [f.insts.size] else []) ++
    (f.nonPhis b).flatMap (withFold latch f.insts.size)

variable {l : Loop} {r : Reduction} {n : Const} {latch fold : InstId} {b : BlockId}

theorem standIn_of_mem (h : b ∈ l.blocks) :
    r.standIn l n latch fold b = .single (.inst r.phi) (.const n) := if_pos h

theorem standIn_of_not_mem (h : b ∉ l.blocks) :
    r.standIn l n latch fold b = .single (.inst latch) (.inst fold) := if_neg h

theorem flatMap_withFold_of_not_mem {is : List InstId} (h : latch ∉ is) :
    is.flatMap (withFold latch fold) = is := by
  induction is with
  | nil => rfl
  | cons i is ih =>
    rw [List.mem_cons, not_or] at h
    rw [List.flatMap_cons, ih h.2, withFold, if_neg (Ne.symm h.1)]
    rfl

theorem flatMap_withFold {before after : List InstId} (h : (before ++ latch :: after).Nodup) :
    (before ++ latch :: after).flatMap (withFold latch fold) = before ++ latch :: fold :: after := by
  obtain ⟨hb, ha⟩ := notMem_of_nodup_middle h
  rw [List.flatMap_append, List.flatMap_cons, flatMap_withFold_of_not_mem hb,
    flatMap_withFold_of_not_mem ha, withFold, if_pos rfl]
  rfl

end Reduction

namespace Func

variable {f : Func} {b : BlockId} {latch : InstId}

/-- An instruction that is inserted behind another one, or behind the phis if that one is a phi. -/
theorem phisFirst_insert_behind (hf : f.Coherent) (hn : (f.body b).Nodup)
    (hp : ∀ i ∈ f.nonPhis b, f.isPhi i = false) (hlatch : latch ∈ f.body b) {op : Op}
    (hop : op.isPhi = false) (ty : Ty) :
    let point := if f.isPhi latch then .afterPhis (f.inst latch).block else .after latch
    ((Builder.mk f point).insert op ty).2.func.PhisFirst b (f.phis b)
      ((if latch ∈ f.phis b then [f.insts.size] else []) ++
        (f.nonPhis b).flatMap (Reduction.withFold latch f.insts.size)) := by
  have hblock := hf.placed b latch hlatch
  have hb := f.lt_of_mem_body hlatch
  have hsplit := f.phis_append_nonPhis b
  rw [← hsplit] at hlatch hn
  rcases List.mem_append.mp hlatch with hphi | hop'
  · -- a phi is not among the operations
    have hnot : latch ∉ f.nonPhis b := fun h => List.disjoint_of_nodup_append hn hphi h
    rw [if_pos hphi, if_pos (isPhi_of_mem_phis hphi), Reduction.flatMap_withFold_of_not_mem hnot,
      hblock]
    have h := hf.placed_body.phisFirst_insertAt hp hb (d := { op, ty, block := b })
      (List.nil_append (f.nonPhis b)).symm hop
    rwa [List.append_nil] at h
  · have hnot : latch ∉ f.phis b := fun h => List.disjoint_of_nodup_append hn h hop'
    obtain ⟨before, after, e⟩ := List.append_of_mem hop'
    have hn' : (before ++ latch :: after).Nodup := e ▸ (List.nodup_append.mp hn).2.1
    rw [if_neg hnot, if_neg (Bool.not_eq_true _ ▸ hp latch hop'), e,
      Reduction.flatMap_withFold hn', List.nil_append]
    have hbody : f.body b = (f.phis b ++ before) ++ latch :: after := by
      rw [← hsplit, e, List.append_assoc]
    have hpos : (Builder.mk f (.after latch)).position = (f.phis b ++ (before ++ [latch])).length := by
      have hfirst : latch ∉ f.phis b ++ before := by
        rw [List.mem_append, not_or]
        exact ⟨hnot, (notMem_of_nodup_middle hn').1⟩
      show ((f.positionOf? latch).map (· + 1)).getD 0 = _
      rw [hf.placed_body.positionOf?_eq hbody hfirst]
      simp [Nat.add_assoc]
    have hnonPhis : f.nonPhis b = (before ++ [latch]) ++ after := by rw [e, List.append_assoc]; rfl
    have h := hf.placed_body.phisFirst_insertAt hp hb
      (d := { op, ty, block := (f.inst latch).block }) hnonPhis hop
    rw [← hpos, List.append_assoc] at h
    show (f.insertAt (f.inst latch).block _ _).2.PhisFirst _ _ _
    rw [hblock] at h ⊢
    exact h

/-! ## The edits -/

variable {g : Func} {i : InstId} {l : Loop} {root : InstId} {n : Const} {op : BinOp} {fold : Value}

/-- The neutral element for the root in the loop, but in the root itself. -/
def restartIn (f : Func) (l : Loop) (root : InstId) (n : Const) : Func :=
  f.replaceUsesWhere (.inst root) (.const n) fun u => l.contains (f.userBlock u) && u != .inst root

/-- The fold behind the value of the latch. -/
def buildFold (f : Func) (op : BinOp) (root latch : InstId) : Func :=
  ((Builder.mk f (if f.isPhi latch then .afterPhis (f.inst latch).block else .after latch)).insert
    (.apply (.binary op) [.inst root, .inst latch]) (f.inst root).ty).2.func

/-- The folded value for the one of the latch outside the loop. -/
def foldOutside (f : Func) (l : Loop) (latch : InstId) (fold : Value) : Func :=
  f.replaceUsesWhere (.inst latch) fold fun u => !l.contains (f.userBlock u)

theorem Coherent.inst_restartIn (hf : f.Coherent) (hi : i ∈ f.body b) :
    (f.restartIn l root n).inst i = if b ∈ l.blocks ∧ i ≠ root then
      (f.inst i).map id (Substitution.single (.inst root) (.const n)).value else f.inst i := by
  rw [restartIn, inst_replaceUsesWhere (hf.mem_users hi)]
  simp only [userBlock, hf.placed b i hi, Loop.contains, Bool.and_eq_true, List.contains_iff_mem,
    bne_iff_ne, ne_eq, User.inst.injEq]

theorem term_restartIn (hb : b ∈ f.layout) :
    (f.restartIn l root n).term b = if b ∈ l.blocks then
      (f.term b).map id (Substitution.single (.inst root) (.const n)).value else f.term b := by
  rw [restartIn, term_replaceUsesWhere hb]
  simp [userBlock, Loop.contains]

theorem Coherent.inst_foldOutside (hf : f.Coherent) (hi : i ∈ f.body b) :
    (f.foldOutside l latch fold).inst i = if b ∈ l.blocks then f.inst i else
      (f.inst i).map id (Substitution.single (.inst latch) fold).value := by
  rw [foldOutside, inst_replaceUsesWhere (hf.mem_users hi)]
  by_cases hb : b ∈ l.blocks <;> simp [userBlock, hf.placed b i hi, Loop.contains, hb]

theorem term_foldOutside (hb : b ∈ f.layout) :
    (f.foldOutside l latch fold).term b = if b ∈ l.blocks then f.term b else
      (f.term b).map id (Substitution.single (.inst latch) fold).value := by
  rw [foldOutside, term_replaceUsesWhere hb]
  by_cases hin : b ∈ l.blocks <;> simp [userBlock, Loop.contains, hin]

/-- Where the fold is built. -/
theorem currentBlock_behind (h : (f.inst latch).block = b) : (Builder.mk f
    (if f.isPhi latch then .afterPhis (f.inst latch).block else .after latch)).currentBlock = b := by
  split <;> exact h

theorem inst_buildFold (h : (f.inst latch).block = b) (i : InstId) :
    (f.buildFold op root latch).inst i = if i = f.insts.size then
      { op := .apply (.binary op) [.inst root, .inst latch], ty := (f.inst root).ty, block := b }
      else f.inst i := by
  refine (inst_insertAt ..).trans ?_
  rw [currentBlock_behind h]

theorem Coherent.buildFold (hf : f.Coherent) (hroot : root < f.insts.size)
    (hlatch : latch < f.insts.size) : (f.buildFold op root latch).Coherent := by
  refine hf.insertAt fun v hv => ?_
  rcases List.mem_pair.mp hv with rfl | rfl
  · exact hroot
  · exact hlatch

/-- The blocks in which the fold is not built stay as they are. -/
theorem body_buildFold_of_ne {c : BlockId} (h : (f.inst latch).block = b) (hne : b ≠ c) :
    (f.buildFold op root latch).body c = f.body c := by
  refine (body_insertAt_eq ..).trans ?_
  rw [currentBlock_behind h, if_neg fun e => hne e.1]

section

variable (hf : f.Coherent) (hn : ∀ b, (f.body b).Nodup)
  (hp : ∀ b, ∀ i ∈ f.nonPhis b, f.isPhi i = false) (hlatch : latch ∈ f.body b)

include hf hn hp hlatch

theorem phisFirst_buildFold (c : BlockId) :
    (f.buildFold op root latch).PhisFirst c (f.phis c)
      ((if latch ∈ f.phis c then [f.insts.size] else []) ++
        (f.nonPhis c).flatMap (Reduction.withFold latch f.insts.size)) := by
  by_cases hbc : b = c
  · subst hbc
    exact phisFirst_insert_behind hf (hn b) (hp b) hlatch rfl _
  · have hnot : latch ∉ f.body c := fun h => hbc (hf.eq_of_mem_body hlatch h)
    have hold : ∀ i ∈ f.body c, (f.buildFold op root latch).isPhi i = f.isPhi i := fun i hi => by
      rw [isPhi, inst_buildFold rfl, if_neg (Nat.ne_of_lt (hf.body_lt c i hi)), isPhi]
    rw [if_neg fun h => hnot (mem_body_of_mem_phis h),
      Reduction.flatMap_withFold_of_not_mem fun h => hnot (mem_body_of_mem_nonPhis h)]
    refine ⟨?_, fun i hi => ?_, fun i hi => ?_⟩
    · rw [body_buildFold_of_ne (hf.placed b latch hlatch) hbc]
      exact (f.phis_append_nonPhis c).symm
    · rw [hold i (mem_body_of_mem_phis hi)]
      exact isPhi_of_mem_phis hi
    · rw [hold i (mem_body_of_mem_nonPhis hi)]
      exact hp c i hi

/-- The fold stands in the block of the latch value. -/
theorem size_mem_body_buildFold : f.insts.size ∈ (f.buildFold op root latch).body b := by
  rw [(phisFirst_buildFold hf hn hp hlatch b).body]
  refine List.mem_append_right _ (List.mem_append.mpr ?_)
  rw [← phis_append_nonPhis] at hlatch
  refine (List.mem_append.mp hlatch).imp (fun h => ?_) fun h => ?_
  · rw [if_pos h]
    exact List.mem_singleton_self _
  · refine List.mem_flatMap.mpr ⟨latch, h, ?_⟩
    rw [Reduction.withFold, if_pos rfl]
    exact List.mem_pair.mpr (.inr rfl)

end

end Func

namespace Stage

open Func

/-- Folding a chain is three edits, and the entry of the root for the latch. -/
theorem func_foldChain {s : Stage} {l : Loop} (hin : s.info.inRegion = l.contains) (root : InstId)
    (op : BinOp) (n : Const) (pred : BlockId) (latch : InstId) :
    (foldChain root op (.const n) pred latch s).2.func =
      let f := s.func.restartIn l root n
      let fold : Value := .inst f.insts.size
      ((f.buildFold op root latch).foldOutside l latch fold).setIncoming root pred fold := by
  unfold restartIn foldOutside
  rw [← hin]
  rfl

theorem foldsOnce_foldChain {s : Stage} {l : Loop} {r : Reduction} {n : Const} {pred c : BlockId}
    {latch : InstId} (hf : s.func.Ssa) (hin : s.info.inRegion = l.contains)
    (hheader : l.header ∈ l.blocks) (hroot : r.phi ∈ s.func.phis l.header)
    (hlatch : latch ∈ s.func.body c) (hc : c ∈ l.blocks) :
    r.FoldsOnce s.func (foldChain r.phi r.kind.binOp (.const n) pred latch s).2.func l n pred
      latch := by
  rw [func_foldChain hin]
  obtain ⟨f, hs⟩ : ∃ f, f = s.func := ⟨_, rfl⟩
  rw [← hs] at hf hroot hlatch ⊢
  have hroot := mem_body_of_mem_phis hroot
  have hrootLt := hf.body_lt _ _ hroot
  have hlatchLt := hf.body_lt _ _ hlatch
  -- each of the edits keeps the code coherent, and what it does not change
  obtain ⟨f1, e1⟩ : ∃ f1, f1 = f.restartIn l r.phi n := ⟨_, rfl⟩
  have r1 : f.Refits f1 := e1 ▸ f.refits_replaceUsesWhere _ _ _
  have hconst : f.Defines (.const n) := trivial
  have hf1 : f1.Coherent := e1 ▸ hf.toCoherent.replaceUses hconst _
  have hn1 : ∀ b, (f1.body b).Nodup := fun b => r1.body b ▸ hf.nodup b
  have hp1 : ∀ b, ∀ i ∈ f1.nonPhis b, f1.isPhi i = false := fun b i hi => by
    rw [r1.isPhi]
    exact hf.phis_first b i (r1.nonPhis b ▸ hi)
  have hlatch1 : latch ∈ f1.body c := r1.body c ▸ hlatch
  obtain ⟨f2, e2⟩ : ∃ f2, f2 = f1.buildFold r.kind.binOp r.phi latch := ⟨_, rfl⟩
  have hf2 : f2.Coherent := e2 ▸ hf1.buildFold (r1.size_insts ▸ hrootLt) (r1.size_insts ▸ hlatchLt)
  have hfirst : ∀ b, f2.PhisFirst b _ _ := fun b => e2 ▸ phisFirst_buildFold hf1 hn1 hp1 hlatch1 b
  have hinst2 : ∀ i < f.insts.size, f2.inst i = f1.inst i := fun i hi => by
    rw [e2, inst_buildFold rfl, if_neg (r1.size_insts ▸ Nat.ne_of_lt hi)]
  have hbody2 : ∀ b, ∀ i ∈ f.body b, i ∈ f2.body b := fun b i hi =>
    e2 ▸ mem_body_insertAt_of_mem f1 (r1.body b ▸ hi)
  have hfold : f.insts.size ∈ f2.body c := by
    rw [e2, ← r1.size_insts]
    exact size_mem_body_buildFold hf1 hn1 hp1 hlatch1
  obtain ⟨f3, e3⟩ : ∃ f3, f3 = f2.foldOutside l latch (.inst f.insts.size) := ⟨_, rfl⟩
  have r3 : f2.Refits f3 := e3 ▸ f2.refits_replaceUsesWhere _ _ _
  have hsize2 : f2.insts.size = f.insts.size + 1 := by
    rw [e2, ← r1.size_insts]
    exact size_insts_insertAt ..
  have hdef : f2.Defines (.inst f.insts.size) := by
    show f.insts.size < f2.insts.size
    omega
  have hf3 : f3.Coherent := e3 ▸ hf2.replaceUses hdef _
  have r4 := f3.refits_modifyIncoming r.phi (setEntry · pred (.inst f.insts.size))
  show r.FoldsOnce f ((Func.foldOutside _ _ _ (.inst (f.restartIn l r.phi n).insts.size)).setIncoming
    _ _ (.inst (f.restartIn l r.phi n).insts.size)) l n pred latch
  rw [← e1, r1.size_insts, ← e2, ← e3]
  refine
    { params := ?_, layout := ?_, size_blocks := ?_, size_insts := ?_
      coherent := hf3.setIncoming (hdef.mono r3.size_insts.ge)
      ty := fun i hi => ?_, nodup := fun b => ?_, phis_first := fun b i hi => ?_
      term := fun b hb => ?_, inst := fun b i hi hne => ?_, root := ?_, fold := ⟨c, hlatch, ?_⟩
      phis := fun b => ?_, nonPhis := fun b => ?_ }
  · rw [setIncoming, r4.params, r3.params, e2, ← r1.params]
    rfl
  · rw [setIncoming, r4.layout, r3.layout, e2, ← r1.layout]
    rfl
  · rw [setIncoming, r4.size_blocks, r3.size_blocks, e2, ← r1.size_blocks]
    exact size_blocks_insertAt ..
  · rw [setIncoming, r4.size_insts, r3.size_insts, hsize2]
  · rw [setIncoming, r4.ty, r3.ty, hinst2 i hi, r1.ty]
  · rw [setIncoming, r4.body, r3.body, e2]
    exact hf1.placed_body.nodup_insertAt hn1 ..
  · rw [setIncoming, r4.nonPhis, r3.nonPhis, (hfirst b).nonPhis] at hi
    rw [setIncoming, r4.isPhi, r3.isPhi]
    exact (hfirst b).notPhi i hi
  · have hb2 : b ∈ f2.layout := by
      rw [e2]
      exact r1.layout.symm ▸ hb
    have hterm2 : f2.term b = f1.term b := e2 ▸ term_insertAt ..
    rw [setIncoming, term_modifyIncoming, e3, term_foldOutside hb2, hterm2, e1, term_restartIn hb]
    by_cases hbl : b ∈ l.blocks
    · rw [if_pos hbl, if_pos hbl, Reduction.standIn_of_mem hbl]
    · rw [if_neg hbl, if_neg hbl, Reduction.standIn_of_not_mem hbl]
  · rw [setIncoming, inst_modifyIncoming, if_neg (Ne.symm hne), e3, hf2.inst_foldOutside
      (hbody2 b i hi), hinst2 i (hf.body_lt b i hi), e1, hf.toCoherent.inst_restartIn hi]
    by_cases hbl : b ∈ l.blocks
    · rw [if_pos hbl, if_pos ⟨hbl, hne⟩, Reduction.standIn_of_mem hbl]
    · rw [if_neg hbl, if_neg fun h => hbl h.1, Reduction.standIn_of_not_mem hbl]
  · rw [setIncoming, inst_modifyIncoming, if_pos rfl, e3, hf2.inst_foldOutside (hbody2 _ _ hroot),
      if_pos hheader, hinst2 _ hrootLt, e1, hf.toCoherent.inst_restartIn hroot,
      if_neg fun h => h.2 rfl]
  · rw [setIncoming, inst_modifyIncoming, if_neg (Nat.ne_of_lt hrootLt), e3,
      hf2.inst_foldOutside hfold, if_pos hc, e2, inst_buildFold (hf1.placed c latch hlatch1),
      if_pos r1.size_insts.symm, r1.ty]
  · rw [setIncoming, r4.phis, r3.phis, (hfirst b).phis, r1.phis]
  · rw [setIncoming, r4.nonPhis, r3.nonPhis, (hfirst b).nonPhis, r1.phis, r1.nonPhis, r1.size_insts]

end Stage

end Lockstep
