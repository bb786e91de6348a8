import Lockstep.Proofs.Reduction.Decompose
import Lockstep.Proofs.Reduction.FoldRun
import Lockstep.Proofs.Triple

/-!
# Folding the reductions of a loop

The chains of a loop are folded one after the other. Each time the function stays in static single
assignment form, the chains that are left stay chains, one instruction is added, and single-lane runs
return what they did (`Stage.Folding`).
-/

namespace Lockstep

open Run

/-- Every single-lane run of `f` that returns is one of `g`: along the same blocks, with the same
result, memory and calls. -/
def Func.RunsAs (f g : Func) : Prop :=
  ∀ (s : Setup) (args : List Lanes) (memory : Array Scalar) (ret : Option Lanes) (m : Machine),
    s.width = 1 → ArgsTyped f args → OutsideTyped s f (startMachine s f args memory) →
    f.run s args memory = (.ok ret, m) → ∃ m', g.run s args memory = (.ok ret, m') ∧
      m'.memory = m.memory ∧ m'.callLog = m.callLog ∧ m'.path = m.path ∧
      OutsideTyped s g (startMachine s g args memory)

theorem Func.RunsAs.refl (f : Func) : f.RunsAs f :=
  fun _ _ _ _ m _ _ hout e => ⟨m, e, rfl, rfl, rfl, hout⟩

theorem Func.RunsAs.trans {f g k : Func} (h : f.RunsAs g) (hp : g.params = f.params)
    (h' : g.RunsAs k) : f.RunsAs k := by
  intro s args memory ret m hw hargs hout e
  obtain ⟨m1, e1, hmem1, hcalls1, hpath1, hout1⟩ := h s args memory ret m hw hargs hout e
  have hargs1 : ArgsTyped g args := by
    intro j xs hj i
    show (xs.lane i).HasTy (g.params[j]?.getD .void)
    rw [hp]
    exact hargs j xs hj i
  obtain ⟨m2, e2, hmem2, hcalls2, hpath2, hout2⟩ := h' s args memory ret m1 hw hargs1 hout1 e1
  exact ⟨m2, e2, hmem2.trans hmem1, hcalls2.trans hcalls1, hpath2.trans hpath1, hout2⟩

namespace Stage

open Reduction

variable {s t : Stage} {f : Func} {l : Loop} {r : Reduction} {rs : List Reduction} {phis : List InstId}
  {phi : InstId} {k : Nat}

/-- Folding a reduction does nothing, or it folds its chain. -/
theorem tripleOk_foldReduction (r : Reduction) (s : Stage) : TripleOk (· = s) (foldReduction r)
    fun folded t => folded = false ∧ t = s ∨ folded = true ∧ ∃ n pred latch,
      r.kind.neutral? (s.func.inst r.phi).ty = some n ∧ s.regionLatch? r.phi = some (pred, latch) ∧
      t = (foldChain r.phi r.kind.binOp (.const n) pred latch s).2 := by
  unfold foldReduction
  refine TripleOk.get_bind ?_
  rintro s rfl
  split
  · exact TripleOk.pure fun _ h => .inl ⟨rfl, h⟩
  · split
    · exact TripleOk.pure fun _ h => .inl ⟨rfl, h⟩
    · rename_i n hn
      split
      · exact TripleOk.throw
      · rename_i pred latch hlatch
        refine TripleOk.bind (R := fun _ t => t = (foldChain r.phi r.kind.binOp (.const n) pred latch s).2)
          (TripleOk.lift ?_) fun _ => TripleOk.pure fun t ht => .inr ⟨rfl, n, pred, latch, hn, hlatch, ht⟩
        rintro _ _ _ rfl e
        exact (Prod.mk.inj e).2.symm

/-- The state while the reductions of a loop are folded, of which `phis` are left to look at; `k` have
been folded. -/
structure Folding (rs : List Reduction) (f : Func) (l : Loop) (phis : List InstId) (k : Nat)
    (s : Stage) : Prop where
  ssa : s.func.Ssa
  typesAgree : s.func.TypesAgree
  headed : s.func.Headed l
  region : s.info.region = some (.ofLoop l)
  nodup : phis.Nodup
  chain : ∀ r ∈ rs, r.phi ∈ phis → r.IsChain s.func l
  params : s.func.params = f.params
  ty : ∀ r ∈ rs, r.phi ∈ phis → (s.func.inst r.phi).ty = (f.inst r.phi).ty
  size : s.func.insts.size = f.insts.size + k
  attached : ∀ i, s.func.Attached i ↔
    f.Attached i ∨ f.insts.size ≤ i ∧ i < f.insts.size + k
  runs : f.RunsAs s.func

/-- One reduction has been looked at. -/
theorem Folding.tail (h : Folding rs f l (phi :: phis) k s) : Folding rs f l phis k s :=
  { h with
    nodup := (List.nodup_cons.mp h.nodup).2
    chain := fun r hr hphi => h.chain r hr (List.mem_cons_of_mem _ hphi)
    ty := fun r hr hphi => h.ty r hr (List.mem_cons_of_mem _ hphi) }

/-- One reduction has been folded. -/
theorem Folding.foldChain (h : Folding rs f l (phi :: phis) k s) (hr : r ∈ rs) (hphi : r.phi = phi)
    (hfloat : ∀ w, (f.inst phi).ty ≠ .float w) (hself : r.SelfStable f) {n : Const} {pred : BlockId}
    {latch : InstId} (hn : r.kind.neutral? (s.func.inst r.phi).ty = some n)
    (hlatch : s.regionLatch? r.phi = some (pred, latch)) :
    Folding rs f l phis (k + 1) (Stage.foldChain r.phi r.kind.binOp (.const n) pred latch s).2 := by
  subst hphi
  have hc := h.chain r hr List.mem_cons_self
  have hty := h.ty r hr List.mem_cons_self
  have hin : s.info.inRegion = l.contains := by
    unfold VectorInfo.inRegion
    rw [h.region]
    rfl
  obtain ⟨pred', latch', hlatch', hpred, hincoming, hvalue⟩ :=
    exists_regionLatch h.ssa h.headed hc hin
  cases hlatch.symm.trans hlatch'
  have F : r.Foldable s.func l n pred latch :=
    { ssa := h.ssa, typesAgree := h.typesAgree, headed := h.headed, chain := hc
      isFloat := ReductionKind.isFloat_of_ne_float (hty ▸ hfloat) hn, neutral := hn
      latch_value := hvalue, pred_mem := hpred, incoming := hincoming }
  obtain ⟨c, hcl, hbody⟩ := F.exists_latch_block
  have hfold : r.FoldsOnce s.func
      (Stage.foldChain r.phi r.kind.binOp (.const n) pred latch s).2.func l n pred latch :=
    foldsOnce_foldChain h.ssa hin h.headed.header_mem hc.phi_mem hbody hcl
  obtain ⟨hnot, hnodup⟩ := List.nodup_cons.mp h.nodup
  have hself' : r.SelfStable s.func := by
    unfold SelfStable
    rw [hty]
    exact hself
  refine
    { ssa := hfold.ssa F
      typesAgree := hfold.typesAgree F
      headed := h.headed.sameEdges (hfold.sameEdges h.ssa.toCoherent)
      region := h.region
      nodup := hnodup
      chain := fun r' hr' hphi' => hfold.isChain F (h.chain r' hr' (List.mem_cons_of_mem _ hphi'))
        fun e => hnot (e ▸ hphi')
      params := hfold.params.trans h.params
      ty := fun r' hr' hphi' => ?_
      size := by rw [hfold.size_insts, h.size, Nat.add_assoc]
      attached := fun i => ?_
      runs := h.runs.trans h.params fun s' args memory ret m hw hargs hout e =>
        hfold.exists_run F hself' hw hargs hout e }
  · have hphi' := List.mem_cons_of_mem r.phi hphi'
    refine (hfold.ty r'.phi ?_).trans (h.ty r' hr' hphi')
    exact h.ssa.body_lt _ _ (Func.mem_body_of_mem_phis (h.chain r' hr' hphi').phi_mem)
  · have hattached : (Stage.foldChain r.phi r.kind.binOp (.const n) pred latch s).2.func.Attached i ↔ s.func.Attached i ∨ i = s.func.insts.size := by
      constructor
      · rintro ⟨b, hb⟩
        exact (hfold.of_mem_body h.ssa hb).imp (fun hb => ⟨b, hb⟩) And.left
      · rintro (⟨b, hb⟩ | rfl)
        · exact ⟨b, hfold.mem_body h.ssa hb⟩
        · exact ⟨c, hfold.fold_mem_body h.ssa hbody⟩
    rw [hattached, h.attached, h.size, or_assoc]
    have hnext : ∀ i n : Nat, (n ≤ i ∧ i < n + k) ∨ i = n + k ↔ n ≤ i ∧ i < n + (k + 1) := by omega
    exact or_congr_right (hnext i f.insts.size)

/-- One reduction has been looked at, and folded if there was something to fold. -/
theorem Folding.foldReduction (hr : r ∈ rs) (hphi : r.phi = phi)
    (hfloat : ∀ w, (f.inst phi).ty ≠ .float w) (hself : r.SelfStable f) :
    TripleOk (Folding rs f l (phi :: phis) k) (Stage.foldReduction r)
      fun folded => Folding rs f l phis (if folded then k + 1 else k) := by
  intro s folded t h e
  rcases tripleOk_foldReduction r s s folded t rfl e with
    ⟨rfl, rfl⟩ | ⟨rfl, n, pred, latch, hn, hlatch, rfl⟩
  · exact h.tail
  · exact h.foldChain hr hphi hfloat hself hn hlatch

/-- The reductions of a loop have been folded. -/
theorem tripleOk_foldReductions (hfloat : ∀ phi ∈ f.phis l.header, ∀ w, (f.inst phi).ty ≠ .float w)
    (hself : ∀ r ∈ rs, r.phi ∈ f.phis l.header → r.SelfStable f) :
    TripleOk (fun s => s.func = f ∧ Folding rs f l (f.phis l.header) 0 s) (foldReductions rs)
      fun n => Folding rs f l [] n := by
  unfold foldReductions
  refine TripleOk.get_bind ?_
  rintro s ⟨rfl, h⟩
  have hentry : s.info.entry s.func = l.header := by
    unfold VectorInfo.entry
    rw [h.region]
    rfl
  rw [if_neg (by simp [h.region]), hentry]
  refine (TripleOk.foldlM (J := fun phis k => Folding rs s.func l phis k) (s.func.phis l.header)
    (fun phi phis k hphi => ?_) 0).mono (fun t ht => ht ▸ h) fun _ _ => id
  split
  · rename_i r hr
    have hphi' : (r.phi == phi) = true := List.find?_some (p := fun r : Reduction => r.phi == phi) hr
    obtain rfl := beq_iff_eq.mp hphi'
    have hmem := List.mem_of_find?_eq_some hr
    refine TripleOk.bind (Folding.foldReduction hmem rfl (hfloat _ hphi) (hself r hmem hphi))
      fun folded => ?_
    cases folded <;> exact TripleOk.pure fun _ => id
  · exact TripleOk.pure fun _ ht => ht.tail

/-- Folding the reductions of a loop without floating-point accumulators changes nothing but the number
of instructions: as many are added as reductions have been folded, and every single-lane run that
returns goes along the same blocks and has the same result, memory and calls. If the value of the latch
is the root itself, accumulating a value to itself must give that value. -/
theorem exists_run_foldReductions (hf : s.func.Ssa) (ht : s.func.TypesAgree)
    (hfloat : ∀ phi ∈ s.func.phis l.header, ∀ w, (s.func.inst phi).ty ≠ .float w)
    (hl : l ∈ (Analyses.ofFunc s.func).loops.loops) (hregion : s.info.region = some (.ofLoop l))
    (hself : ∀ r ∈ findAll s.func (Analyses.ofFunc s.func).loops, r.phi ∈ s.func.phis l.header →
      r.latchValue = .inst r.phi → ∀ x, x.HasTy (s.func.inst r.phi).ty →
        r.kind.binOp.eval x x (s.func.inst r.phi).ty = .ok x)
    (e : foldReductions (findAll s.func (Analyses.ofFunc s.func).loops) s = (.ok k, t)) :
    (∀ i, t.func.Attached i ↔
      s.func.Attached i ∨ s.func.insts.size ≤ i ∧ i < s.func.insts.size + k) ∧
    ∀ (setup : Setup) (args : List Lanes) (memory : Array Scalar) (ret : Option Lanes) (m : Machine),
      setup.width = 1 → ArgsTyped s.func args →
      OutsideTyped setup s.func (startMachine setup s.func args memory) →
      s.func.run setup args memory = (.ok ret, m) → ∃ m', t.func.run setup args memory = (.ok ret, m') ∧
        m'.memory = m.memory ∧ m'.callLog = m.callLog ∧ m'.trace = m.trace := by
  have hstart : Folding (findAll s.func (Analyses.ofFunc s.func).loops) s.func l
      (s.func.phis l.header) 0 s :=
    { ssa := hf
      typesAgree := ht
      headed := Func.headed_of_mem hf.toClosed hl
      region := hregion
      nodup := (hf.nodup l.header).sublist (List.takeWhile_sublist _)
      chain := fun r hr hphi => isChain_of_mem_findAll hf hr hl hphi
      params := rfl
      ty := fun _ _ _ => rfl
      size := rfl
      attached := fun i => ⟨.inl, fun h => h.resolve_right fun h => Nat.not_lt.mpr h.1 h.2⟩
      runs := .refl _ }
  have hend := tripleOk_foldReductions hfloat hself s k t ⟨rfl, hstart⟩ e
  refine ⟨hend.attached, fun setup args memory ret m hw hargs hout e => ?_⟩
  obtain ⟨m', e', hmem, hcalls, hpath, -⟩ := hend.runs setup args memory ret m hw hargs hout e
  refine ⟨m', e', hmem, hcalls, ?_⟩
  rw [Machine.trace, hpath]
  rfl

/-- The loop of a function is vectorized. -/
def ofOnlyLoop (f : Func) : Stage where
  func := f
  info := { width := 2, region := (Analyses.ofFunc f).loops.loops.head?.map .ofLoop }

/-- One reduction is folded, and the sum is what it was. -/
theorem exists_run_foldReductions_sumBelow : ∃ t : Stage,
    foldReductions (findAll sumBelow (Analyses.ofFunc sumBelow).loops) (ofOnlyLoop sumBelow) =
      (.ok 1, t) ∧ t.func.Attached 9 ∧
    ∃ m', t.func.run { width := 1, limit := 20 } [[.int 2], [.int 0]] #[.int 9] =
      (.ok (some [.int 102]), m') := by
  have h : sumBelow.Checks ∧ (foldReductions (findAll sumBelow (Analyses.ofFunc sumBelow).loops)
        (ofOnlyLoop sumBelow)).1 = .ok 1 ∧
      ∃ l ∈ (Analyses.ofFunc sumBelow).loops.loops,
        (ofOnlyLoop sumBelow).info.region = some (.ofLoop l) ∧
        (∀ phi ∈ sumBelow.phis l.header, (sumBelow.inst phi).ty = .int 8) ∧
        ∀ r ∈ findAll sumBelow (Analyses.ofFunc sumBelow).loops, r.latchValue ≠ .inst r.phi := by
    decide +kernel
  obtain ⟨hchecks, hone, l, hl, hregion, hty, hlatch⟩ := h
  generalize hfolded : foldReductions (findAll sumBelow (Analyses.ofFunc sumBelow).loops)
    (ofOnlyLoop sumBelow) = res at hone ⊢
  obtain ⟨n, t⟩ := res
  obtain rfl : n = .ok 1 := hone
  obtain ⟨last, e⟩ := exists_run_sumBelow
  obtain ⟨hattached, hruns⟩ := exists_run_foldReductions (s := ofOnlyLoop sumBelow)
    hchecks.wellFormed.ssa hchecks.wellTyped.typesAgree
    (fun phi hphi w e => by cases (hty phi hphi).symm.trans e) hl hregion
    (fun r hr _ h => absurd h (hlatch r hr)) hfolded
  obtain ⟨m', e', -⟩ := hruns { width := 1, limit := 20 } _ _ _ last rfl argsTyped_sumBelow
    (outsideTyped_of_not_isPlain (by decide)) e
  exact ⟨t, rfl, (hattached 9).mpr (.inr (by decide)), m', e'⟩

/-- Counts to three, and takes five along. The sum of five and one is computed in every turn, and not
used. -/
def takesFive : Func where
  params := [.int 32]
  retTy := .int 32
  blocks := #[
    { term := .br 1 },
    { insts := [0, 1, 2], term := .brIf (.inst 2) 2 3 },
    { insts := [3, 4], term := .br 1 },
    { term := .ret (some (.inst 0)) }]
  insts := #[
    { op := .phi [(0, .ofInt (.int 32) 5), (2, .inst 0)], ty := .int 32, block := 1 },
    { op := .phi [(0, .ofInt (.int 32) 0), (2, .inst 4)], ty := .int 32, block := 1 },
    { op := .apply (.cmp .slt) [.inst 1, .param 0], ty := .bool, block := 1 },
    { op := .apply (.binary .add) [.inst 0, .ofInt (.int 32) 1], ty := .int 32, block := 2 },
    { op := .apply (.binary .add) [.inst 1, .ofInt (.int 32) 1], ty := .int 32, block := 2 }]
  layout := [0, 1, 2, 3]

/-- The proviso is needed: the root is the value of the latch, and is added to itself in every turn. -/
theorem foldReductions_takesFive : takesFive.Checks ∧
    (foldReductions (findAll takesFive (Analyses.ofFunc takesFive).loops) (ofOnlyLoop takesFive)).1 =
      .ok 1 ∧
    (takesFive.run { width := 1, limit := 20 } [[.int 3]] #[]).1 = .ok (some [.int 5]) ∧
    ((foldReductions (findAll takesFive (Analyses.ofFunc takesFive).loops)
      (ofOnlyLoop takesFive)).2.func.run { width := 1, limit := 20 } [[.int 3]] #[]).1 =
        .ok (some [.int 80]) := by
  decide +kernel

end Stage

end Lockstep
