import Lockstep.Proofs.Reduction.Folded

/-!
# Restarting an iteration from the neutral element

An iteration of a loop is run twice: as it was, and with the neutral element for the accumulator. The
second run goes the way of the first, and does the same to the outside (`Folded.exists_resumes`).
-/

namespace Lockstep

open Run

/-! ## Iterations -/

/-- A load, a store or a call, with the lanes of all that it uses. -/
structure Access where
  inst : InstId
  operands : List Lanes
  deriving DecidableEq, Repr

namespace Run

/-- What instructions that run in a row do to the outside. -/
def accesses (s : Setup) (f : Func) : List InstId → Machine → List Access
  | [], _ => []
  | i :: l, m =>
    (if (f.inst i).op.hasSideEffects then [⟨i, (f.inst i).uses.map (m.value s.width)⟩] else []) ++
      accesses s f l (instr s f i m).2

theorem accesses_cons (s : Setup) (f : Func) (i : InstId) (l : List InstId) (m : Machine) :
    accesses s f (i :: l) m = accesses s f [i] m ++ accesses s f l (instr s f i m).2 := by
  simp [accesses]

/-- An iteration goes on from the operations of a block until control comes back to the header from
the block `q`. The phis of the block have their values already. -/
inductive Resumes (s : Setup) (f : Func) (l : Loop) :
    BlockId → Machine → List Access → (q : BlockId) → Machine → Prop
  | back {b : BlockId} {m m' : Machine} (e : (f.nonPhis b).forM (instr s f) m = (.ok (), m'))
      (hleave : leave s f b m' = (.ok (.inl l.header), m')) :
      Resumes s f l b m (accesses s f (f.nonPhis b) m) b m'
  | step {b n q : BlockId} {m m1 m2 m' : Machine} {log : List Access}
      (e : (f.nonPhis b).forM (instr s f) m = (.ok (), m1))
      (hleave : leave s f b m1 = (.ok (.inl n), m1)) (hn : n ∈ l.blocks) (hne : n ≠ l.header)
      (hphis : phis s f (some b) n { m1 with path := n :: m1.path } = (.ok (), m2))
      (h : Resumes s f l n m2 log q m') :
      Resumes s f l b m (accesses s f (f.nonPhis b) m ++ log) q m'

end Run

namespace Reduction

variable {s : Setup} {f : Func} {l : Loop} {r : Reduction} {n : Const} {p : Scalar}
  {S : InstId → Prop} {m m' m1 : Machine} {i : InstId} {b : BlockId}

section

variable (hf : f.Ssa) (hw : s.width = 1) (ht : f.TypesAgree) (hc : r.IsChain f l)
  (hk : r.kind.isFloat = false) (hn : r.kind.neutral? (f.inst r.phi).ty = some n)
  (hp : p.HasTy (f.inst r.phi).ty)

include hf hc

/-- An instruction of the loop does the same to the outside in both runs. -/
theorem Folded.accesses_eq (h : Folded f f id r p S m m') (hb : b ∈ l.blocks) (hi : i ∈ f.nonPhis b)
    (hdef : ∀ v ∈ (f.inst i).uses, f.Defines v) : accesses s f [i] m' = accesses s f [i] m := by
  by_cases hmem : i ∈ r.elements
  · obtain ⟨-, args, hop, -⟩ := hc.update i hmem (hf.phis_first b i hi)
    simp [accesses, hop, Op.hasSideEffects, Opcode.hasSideEffects]
  · have huse : ∀ v ∈ (f.inst i).uses, ∀ e ∈ r.elements, v ≠ .inst e := fun v hv e he hve =>
      hmem (hc.user b hb i (Func.mem_body_of_mem_nonPhis hi) e he (hve ▸ hv))
    have hsame : (f.inst i).uses.map (m'.value s.width) = (f.inst i).uses.map (m.value s.width) :=
      List.map_congr_left fun v hv => h.value (hdef v hv) (huse v hv) s.width
    simp only [accesses, hsame]

variable {start m0 : Machine} {pred : Option BlockId} {D : BlockId → Prop}

include hw ht hk hn hp in
/-- The operations of a block run in both runs, and do the same to the outside. -/
theorem Folded.exists_instrs (R : SingleLane s f start) (ha : Arrives s f start pred b m0)
    (hphis : phis s f pred b { m0 with path := b :: m0.path } = (.ok (), m1)) (hb : b ∈ l.blocks)
    (hpath : f.Path (fun d => d ∉ l.blocks ∨ D d) f.entry b) {before after : List InstId}
    (hsplit : f.nonPhis b = before ++ after) {m2 : Machine}
    (hbefore : before.forM (instr s f) m1 = (.ok (), m))
    (h : Folded f f id r p (fun j => (f.DefinedIn D j ∨ j ∈ f.phis b) ∨ j ∈ before) m m')
    (e : after.forM (instr s f) m = (.ok (), m2)) : ∃ m2',
      after.forM (instr s f) m' = (.ok (), m2') ∧
      Folded f f id r p (fun j => (f.DefinedIn D j ∨ j ∈ f.phis b) ∨ j ∈ f.nonPhis b) m2 m2' ∧
      accesses s f after m' = accesses s f after m := by
  have hg := restarts_self r f l
  induction after generalizing before m m' with
  | nil =>
    cases e
    rw [hsplit, List.append_nil]
    exact ⟨m', rfl, h, rfl⟩
  | cons i after ih =>
    obtain ⟨_, ma, hi, e⟩ := exists_of_bind_run_eq_ok e
    obtain ⟨ma', hi', hma⟩ :=
      h.exists_instr hf hw hg ht hc hk hn hp R ha hphis hb hpath hsplit hbefore hi
    have haccess := h.accesses_eq (s := s) hf hc hb (i := i) (by rw [hsplit]; simp) fun v hv =>
      (hc.of_mem_uses hf hpath hsplit hv).1
    have hbefore' : (before ++ [i]).forM (instr s f) m1 = (.ok (), ma) :=
      forM_append_eq_ok.mpr ⟨m, hbefore, bind_run_eq hi⟩
    obtain ⟨m2', e', hm2, haccesses⟩ := ih (by simp [hsplit]) hbefore' hma e
    refine ⟨m2', (bind_run_eq hi').trans e', hm2, ?_⟩
    rw [accesses_cons s f i after m', accesses_cons s f i after m, haccess, hi', hi, haccesses]

include hw ht hk hn hp in
/-- After the phis of a block its operations run in both runs, and the block has been passed. -/
theorem Folded.exists_ops (R : SingleLane s f start) (ha : Arrives s f start pred b m0)
    (hphis : phis s f pred b { m0 with path := b :: m0.path } = (.ok (), m1)) (hb : b ∈ l.blocks)
    (hpath : f.Path (fun d => d ∉ l.blocks ∨ D d) f.entry b)
    (h : Folded f f id r p (fun j => f.DefinedIn D j ∨ j ∈ f.phis b) m1 m') {m2 : Machine}
    (e : (f.nonPhis b).forM (instr s f) m1 = (.ok (), m2)) : ∃ m2',
      (f.nonPhis b).forM (instr s f) m' = (.ok (), m2') ∧
      Folded f f id r p (f.DefinedIn fun d => D d ∨ d = b) m2 m2' ∧
      accesses s f (f.nonPhis b) m' = accesses s f (f.nonPhis b) m1 := by
  obtain ⟨m2', e', hm2, haccesses⟩ := Folded.exists_instrs hf hw ht hc hk hn hp R ha hphis hb hpath
    (List.nil_append _).symm rfl (h.mono fun j _ hj => by simpa using hj) e
  refine ⟨m2', e', hm2.mono fun j _ hj => ?_, haccesses⟩
  obtain ⟨d, hd | rfl, hj⟩ := hj
  · exact .inl (.inl ⟨d, hd, hj⟩)
  · rw [← f.phis_append_nonPhis, List.mem_append] at hj
    exact hj.imp .inr id

include hw ht hk hn hp in
/-- An iteration goes on in the second run as in the first. -/
theorem Folded.exists_resumes (R : SingleLane s f start) {m2 : Machine} {q : BlockId}
    {log : List Access} (h : Resumes s f l b m1 log q m2) (ha : Arrives s f start pred b m0)
    (hphis : phis s f pred b { m0 with path := b :: m0.path } = (.ok (), m1)) (hb : b ∈ l.blocks)
    (hpath : f.Path (fun d => d ∉ l.blocks ∨ D d) f.entry b)
    (hm : Folded f f id r p (fun j => f.DefinedIn D j ∨ j ∈ f.phis b) m1 m') : ∃ m2' D',
      Resumes s f l b m' log q m2' ∧ Folded f f id r p (f.DefinedIn D') m2 m2' ∧ D' q ∧
      f.Path (fun d => d ∉ l.blocks ∨ D' d) f.entry q ∧ q ∈ l.blocks ∧
      l.header ∈ (f.term q).targets := by
  have hg := restarts_self r f l
  induction h generalizing pred m0 m' D with
  | @back b m1 m2 e hleave =>
    obtain ⟨m2', e', hm2, haccesses⟩ :=
      Folded.exists_ops hf hw ht hc hk hn hp R ha hphis hb hpath hm e
    rw [leave_apply] at hleave
    have hway := (Prod.mk.inj hleave).1
    refine ⟨m2', fun d => D d ∨ d = b, ?_, hm2, .inr rfl, hpath.mono fun d => Or.imp id .inl, hb,
      target_of_wayOut hway⟩
    rw [← haccesses]
    exact .back e' (by rw [leave_apply, hm2.wayOut_eq hf hg hc hb hway])
  | @step b n q m1 m2 m3 m4 log e hleave hin hne hphis' hres ih =>
    obtain ⟨m2', e', hm2, haccesses⟩ :=
      Folded.exists_ops hf hw ht hc hk hn hp R ha hphis hb hpath hm e
    have hway : wayOut s.width (f.term b) b m2 = .ok (.inl n) := by
      rw [leave_apply] at hleave
      exact (Prod.mk.inj hleave).1
    have hleave' : leave s f b m2' = (.ok (.inl n), m2') := by
      rw [leave_apply, hm2.wayOut_eq hf hg hc hb hway]
    have htarget := target_of_wayOut hway
    have hpath' : f.Path (fun d => d ∉ l.blocks ∨ D d ∨ d = b) f.entry b :=
      hpath.mono fun d => Or.imp id .inl
    -- what the phis of the next block take over has been executed in this iteration
    have hS : ∀ phi ∈ f.phis n, ∀ e ∈ r.elements, f.incomingValue? phi b = some (.inst e) →
        f.DefinedIn (fun d => D d ∨ d = b) e := by
      intro phi hphi e he hv
      have havail := hf.available_incoming ha.reachable htarget hphi hv
      exact hc.definedIn hf he (havail.within_end hpath' (.inr (.inr rfl)))
    obtain ⟨m3', hphis3, hm3⟩ := hm2.exists_phis hf hw hg ht hc hin hne hS hphis'
    have ha' := ha.next (block_eq_ok_iff.mpr ⟨m1, hphis, e, hway⟩)
    obtain ⟨m4', D', hres', hm4⟩ :=
      ih ha' hphis' hin (hpath'.tail (.inr (.inr rfl)) htarget) hm3
    refine ⟨m4', D', ?_, hm4⟩
    rw [← haccesses]
    exact .step e' hleave' hin hne hphis3 hres'

end

end Reduction

end Lockstep
