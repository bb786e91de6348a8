import Lockstep.Proofs.Eval.SingleLane
import Lockstep.Proofs.Func.Refit
import Lockstep.Proofs.Reduction.Algebra
import Lockstep.Proofs.Reduction.Chain

/-!
# A chain that is restarted in one of two runs

Two functions run side by side, of which the second one has in a loop the neutral element for the root
of a reduction, or a root that holds it (`Restarts`). The two runs agree on everything but the elements
of the chain, and an element that has been executed holds in the first run what it holds in the second,
accumulated to what the accumulator was (`Folded`). An instruction that is no element uses none, and
does the same in both runs (`Folded.exists_instr_of_not_mem`); an update takes one element up and keeps
what is said of it because the operator is associative (`Folded.exists_instr_of_mem`); a phi takes over
an element (`Folded.exists_phis`).
-/

namespace Lockstep

open Run

namespace Reduction

variable {s : Setup} {f g : Func} {σ : Value → Value} {l : Loop} {r : Reduction} {n : Const} {p : Scalar}
  {S S' : InstId → Prop} {D : BlockId → Prop} {m m' m1 : Machine} {i : InstId} {b : BlockId} {pred : Option BlockId}

/-- In a loop `g` does what `f` does, but that something else may stand for the root. -/
structure Restarts (r : Reduction) (f g : Func) (l : Loop) (σ : Value → Value) : Prop where
  renames : Renaming f g id
  eq_self : ∀ v, v ≠ .inst r.phi → σ v = v
  eq_phi : ∀ j, σ (.inst r.phi) = .inst j → j = r.phi
  phis : ∀ b ∈ l.blocks, g.phis b = f.phis b
  inst : ∀ b ∈ l.blocks, ∀ i ∈ f.body b, i ≠ r.phi → g.inst i = (f.inst i).map id σ
  term : ∀ b ∈ l.blocks, g.term b = (f.term b).map id σ

theorem restarts_self (r : Reduction) (f : Func) (l : Loop) : r.Restarts f f l id where
  renames := renaming_id f
  eq_self _ _ := rfl
  eq_phi _ e := (Value.inst.inj e).symm
  phis _ _ := rfl
  inst _ _ i _ _ := (Instr.map_id (f.inst i)).symm
  term b _ := (Terminator.map_id (f.term b)).symm

theorem Restarts.ne (hg : r.Restarts f g l σ) {e : InstId} (he : e ≠ i) : σ (.inst e) ≠ .inst i := by
  intro h
  by_cases hroot : e = r.phi
  · subst hroot
    exact he (hg.eq_phi i h).symm
  · rw [hg.eq_self _ fun h => hroot (Value.inst.inj h)] at h
    exact he (Value.inst.inj h)

theorem Restarts.typeOf (hg : r.Restarts f g l σ) {v : Value} (hv : f.Defines v) :
    g.typeOf v = f.typeOf v := by
  have h := hg.renames.typeOf hv
  rwa [Value.rename_id] at h

/-! ## Two runs -/

/-- An element holds in the first machine what it holds in the second, accumulated to `p`. -/
structure Folds (f : Func) (σ : Value → Value) (r : Reduction) (p : Scalar) (m m' : Machine)
    (e : InstId) : Prop where
  ty : (f.inst e).ty = (f.inst r.phi).ty
  values : ∃ x x', m.value 1 (.inst e) = [x] ∧ m'.value 1 (σ (.inst e)) = [x'] ∧
    x'.HasTy (f.inst r.phi).ty ∧ r.kind.binOp.eval p x' (f.inst r.phi).ty = .ok x

/-- Machines that agree on everything but the elements, of which those in `S` have been executed. -/
structure Folded (f g : Func) (σ : Value → Value) (r : Reduction) (p : Scalar) (S : InstId → Prop)
    (m m' : Machine) : Prop where
  agrees : m.Agrees f g id (fun i => i < f.insts.size ∧ i ∉ r.elements) m'
  path : m'.path = m.path
  folds : ∀ e ∈ r.elements, S e → Folds f σ r p m m' e

theorem Folds.ofEq {e : InstId} {n n' : Machine} (h : Folds f σ r p m m' e)
    (hn : n.value 1 (.inst e) = m.value 1 (.inst e))
    (hn' : n'.value 1 (σ (.inst e)) = m'.value 1 (σ (.inst e))) : Folds f σ r p n n' e := by
  obtain ⟨x, x', hx, hx', hty, hval⟩ := h.values
  exact ⟨h.ty, x, x', hn.trans hx, hn'.trans hx', hty, hval⟩

theorem Folded.mono (h : Folded f g σ r p S m m') (hs : ∀ e ∈ r.elements, S' e → S e) :
    Folded f g σ r p S' m m' :=
  { h with folds := fun e he hS => h.folds e he (hs e he hS) }

/-- Something that uses no element finds the same in both machines. -/
theorem Folded.value (h : Folded f g σ r p S m m') {v : Value} (hd : f.Defines v)
    (hv : ∀ e ∈ r.elements, v ≠ .inst e) (width : Nat) : m'.value width v = m.value width v := by
  refine h.agrees.value_id ?_ width
  cases v with
  | inst j => exact ⟨hd, fun he => hv j he rfl⟩
  | _ => trivial

/-- A binary operation on single lanes. -/
theorem instr_binary_eq_ok {op : BinOp} {a b : Value} (hw : s.width = 1)
    (hop : (f.inst i).op = .apply (.binary op) [a, b]) :
    instr s f i m = (.ok (), m1) ↔ ∃ z,
      op.eval ((m.value 1 a).lane 0) ((m.value 1 b).lane 0) (f.inst i).ty = .ok z ∧
        m1 = m.setValue i [z] := by
  rw [instr_apply hop]
  constructor
  · intro h
    obtain ⟨xs, m2, hx, hset⟩ := exists_of_bind_run_eq_ok h
    cases hset
    rw [operation_eq_ok rfl hx]
    unfold operation at hx
    simp only [hw] at hx
    obtain ⟨z, hz, rfl⟩ := lanewise_one_eq_ok hx
    exact ⟨z, hz, rfl⟩
  · rintro ⟨z, hz, rfl⟩
    refine bind_run_eq (a := [z]) ?_
    unfold operation
    simp only [hw]
    exact lanewise_one hz

/-! ## What is used -/

/-- An element that has been passed has been passed in the loop. -/
theorem IsChain.definedIn (hf : f.Ssa) (hc : r.IsChain f l) {e : InstId} (he : e ∈ r.elements)
    (h : f.DefinedIn (fun d => d ∉ l.blocks ∨ D d) e) : f.DefinedIn D e := by
  obtain ⟨d, hd, hed⟩ := h
  obtain ⟨b, hb, heb⟩ := hc.mem e he
  obtain rfl := hf.eq_of_mem_body hed heb
  exact ⟨d, hd.resolve_left fun h => h hb, hed⟩

/-- What an instruction uses is there, and its elements have been executed in the loop. -/
theorem IsChain.of_mem_uses (hf : f.Ssa) (hc : r.IsChain f l)
    (hpath : f.Path (fun d => d ∉ l.blocks ∨ D d) f.entry b) {before after : List InstId}
    (hsplit : f.nonPhis b = before ++ i :: after) {v : Value} (hv : v ∈ (f.inst i).uses) :
    f.Defines v ∧ ∀ e ∈ r.elements, v = .inst e →
      (f.DefinedIn D e ∨ e ∈ f.phis b) ∨ e ∈ before := by
  have hwithin := hf.within_inst (Cfg.reachable_of_path hpath) hpath hsplit hv
  constructor
  · cases v with
    | inst j =>
      rcases hwithin with (⟨d, -, hj⟩ | hj) | hj
      · exact hf.body_lt d j hj
      · exact hf.body_lt b j (Func.mem_body_of_mem_phis hj)
      · exact hf.body_lt b j (Func.mem_body_of_mem_nonPhis (by simp [hsplit, hj]))
    | _ => trivial
  · rintro e he rfl
    rcases hwithin with (hd | hj) | hj
    · exact .inl (.inl (hc.definedIn hf he hd))
    · exact .inl (.inr hj)
    · exact .inr hj

/-! ## Operations -/

section

variable (hf : f.Ssa) (hw : s.width = 1) (hg : r.Restarts f g l σ)

include hf hw hg

/-- What is no element does the same in both runs, if its operands have the same values. -/
theorem Folded.exists_instr_of_values (h : Folded f g σ r p S m m') (hi : i ∈ f.nonPhis b)
    (hnot : i ∉ r.elements) {τ : Value → Value} (hinst : g.inst i = (f.inst i).map id τ)
    (hvalue : ∀ v ∈ (f.inst i).uses, m'.value s.width (τ v) = m.value s.width v)
    (htypeOf : ∀ v ∈ (f.inst i).inputs, g.typeOf (τ v) = f.typeOf v)
    (e : instr s f i m = (.ok (), m1)) : ∃ m1', instr s g i m' = (.ok (), m1') ∧
      Folded f g σ r p (fun j => S j ∨ j = i) m1 m1' := by
  have hlt := hf.body_lt b i (Func.mem_body_of_mem_nonPhis hi)
  obtain ⟨code, args, hop⟩ := op_of_instr_eq_ok e
  have hop' : (g.inst i).op = .apply code (args.map τ) := by
    rw [hinst]
    show (f.inst i).op.map id τ = _
    rw [hop]
    rfl
  have hs : s.Alike s := ⟨rfl, rfl, rfl⟩
  obtain ⟨xs, n, n', hb, rfl, e'⟩ := Run.exists_instr_of_values hs (.inl hw) hop hop'
    (by rw [hinst]; rfl) (by rw [hinst]; rfl) h.agrees.memory h.agrees.callLog hvalue htypeOf e
  refine ⟨_, e', ((h.agrees.ofBeside hb).setValue hg.renames hlt xs).mono fun j hj => .inl hj, ?_,
    fun e0 he hS => ?_⟩
  · rw [path_instr e', path_instr e, h.path]
  · have hne : e0 ≠ i := fun h => hnot (h ▸ he)
    have hval : Value.inst e0 ≠ .inst i := fun h => hne (Value.inst.inj h)
    exact (h.folds e0 he (hS.resolve_right hne)).ofEq (value_instr_of_ne e hval 1)
      (value_instr_of_ne e' (hg.ne hne) 1)

/-- What is no element, and uses none, does the same in both runs. -/
theorem Folded.exists_instr_of_not_mem (h : Folded f g σ r p S m m') (hb : b ∈ l.blocks)
    (hi : i ∈ f.nonPhis b) (hnot : i ∉ r.elements) (hroot : r.phi ∈ r.elements)
    (hdef : ∀ v ∈ (f.inst i).uses, f.Defines v)
    (huse : ∀ v ∈ (f.inst i).uses, ∀ e ∈ r.elements, v ≠ .inst e)
    (e : instr s f i m = (.ok (), m1)) : ∃ m1', instr s g i m' = (.ok (), m1') ∧
      Folded f g σ r p (fun j => S j ∨ j = i) m1 m1' := by
  have hself : ∀ v ∈ (f.inst i).uses, σ v = v := fun v hv => hg.eq_self v (huse v hv _ hroot)
  refine h.exists_instr_of_values hf hw hg hi hnot
    (hg.inst b hb i (Func.mem_body_of_mem_nonPhis hi) fun e => hnot (e ▸ hroot))
    (fun v hv => ?_) (fun v hv => ?_) e
  · rw [hself v hv]
    exact h.value (hdef v hv) (huse v hv) _
  · rw [hself v (List.mem_append_left _ hv)]
    exact hg.typeOf (hf.inputs i v hv)

omit hf hw in
/-- A value set for an element makes no difference to the rest. -/
theorem Folded.setValue (h : Folded f g σ r p S m m') (hi : i ∈ r.elements) (hroot : i ≠ r.phi)
    {z z' : Scalar} (hlt : i < f.insts.size) (hty : (f.inst i).ty = (f.inst r.phi).ty)
    (hz' : z'.HasTy (f.inst r.phi).ty)
    (hz : r.kind.binOp.eval p z' (f.inst r.phi).ty = .ok z) :
    Folded f g σ r p (fun j => S j ∨ j = i) (m.setValue i [z]) (m'.setValue i [z']) where
  agrees := by
    refine (h.agrees.setValue_right (fun j hj (e : j = i) => hj.2 (e ▸ hi)) [z']).left
      (Machine.size_setValue _ _ _) rfl rfl rfl fun j hj width => ?_
    exact Machine.value_setValue_of_ne _ fun e => hj.2 (Value.inst.inj e ▸ hi)
  path := h.path
  folds e he hS := by
    by_cases hei : e = i
    · subst hei
      refine ⟨hty, z, z', Machine.value_setValue_self _ (by rw [h.agrees.size]; exact hlt), ?_, hz', hz⟩
      rw [hg.eq_self _ fun e => hroot (Value.inst.inj e)]
      exact Machine.value_setValue_self _ (by rw [h.agrees.size']; exact hg.renames.lt _ hlt)
    · have hval : Value.inst e ≠ .inst i := fun h => hei (Value.inst.inj h)
      exact (h.folds e he (hS.resolve_right hei)).ofEq (Machine.value_setValue_of_ne _ hval)
        (Machine.value_setValue_of_ne _ (hg.ne hei))

variable (ht : f.TypesAgree) (hc : r.IsChain f l) (hk : r.kind.isFloat = false)
  (hn : r.kind.neutral? (f.inst r.phi).ty = some n) (hp : p.HasTy (f.inst r.phi).ty)

omit hf hw hg in
include hk hn hp in
/-- An operand outside the chain is accumulated to an element in both runs. -/
theorem Folded.exists_eval (h : Folded f g σ r p S m m') {e : InstId} (he : e ∈ r.elements) (hS : S e)
    {y : Value} (hdef : f.Defines y) (hy : ∀ e ∈ r.elements, y ≠ .inst e)
    (hty : ((m.value 1 y).lane 0).HasTy (f.inst r.phi).ty) {z : Scalar}
    (hz : r.kind.binOp.eval ((m.value 1 (.inst e)).lane 0) ((m.value 1 y).lane 0)
      (f.inst r.phi).ty = .ok z) :
    ∃ z', r.kind.binOp.eval ((m'.value 1 (σ (.inst e))).lane 0) ((m'.value 1 y).lane 0)
        (f.inst r.phi).ty = .ok z' ∧ z'.HasTy (f.inst r.phi).ty ∧
      r.kind.binOp.eval p z' (f.inst r.phi).ty = .ok z := by
  obtain ⟨x, x', hx, hx', hty', hval⟩ := (h.folds e he hS).values
  rw [hx] at hz
  rw [hx', h.value hdef hy]
  exact ReductionKind.exists_eval_assoc hk hn hp hty' hty hval hz

include ht hc hk hn hp in
/-- An update takes up one element, which it adds to what has been accumulated. -/
theorem Folded.exists_instr_of_mem (h : Folded f g σ r p S m m') (hb : b ∈ l.blocks)
    (hi : i ∈ f.nonPhis b) (hmem : i ∈ r.elements) (htyped : m.Typed f)
    (hS : ∀ e ∈ r.elements, .inst e ∈ (f.inst i).uses → S e)
    (e : instr s f i m = (.ok (), m1)) : ∃ m1', instr s g i m' = (.ok (), m1') ∧
      Folded f g σ r p (fun j => S j ∨ j = i) m1 m1' := by
  have hbody := Func.mem_body_of_mem_nonPhis hi
  have hnphi := hf.phis_first b i hi
  have hroot : i ≠ r.phi := by
    rintro rfl
    cases hnphi.symm.trans (Func.isPhi_of_mem_phis hc.phi_mem)
  obtain ⟨-, args, hop, hcount⟩ := hc.update i hmem hnphi
  have hargs := (ht b i hbody).apply _ args hop
  obtain ⟨v, w, rfl⟩ : ∃ v w, args = [v, w] := by
    obtain ⟨v, l, rfl, -, hl⟩ := List.map_eq_cons_iff.mp hargs
    obtain ⟨w, l, rfl, -, hl⟩ := List.map_eq_cons_iff.mp hl
    exact ⟨v, w, by rw [List.map_eq_nil_iff.mp hl]⟩
  obtain ⟨hv, hw'⟩ : f.typeOf v = (f.inst i).ty ∧ f.typeOf w = (f.inst i).ty := by
    simpa [Opcode.TypesAgree] using hargs
  have hinputs : (f.inst i).inputs = [v, w] := inputs_of_op hop
  have hinst := hg.inst b hb i hbody hroot
  have hop' : (g.inst i).op = .apply (.binary r.kind.binOp) [σ v, σ w] := by
    rw [hinst]
    show (f.inst i).op.map id σ = _
    rw [hop]
    rfl
  have hty' : (g.inst i).ty = (f.inst i).ty := by rw [hinst]; rfl
  obtain ⟨z, hz, rfl⟩ := (instr_binary_eq_ok hw hop).mp e
  -- one operand is an element, and the other is none
  obtain ⟨e0, y, he0, hy, hused, hyused, hty0, htyy, hboth⟩ : ∃ e0 y, e0 ∈ r.elements ∧
      (∀ e ∈ r.elements, y ≠ .inst e) ∧ .inst e0 ∈ (f.inst i).inputs ∧ y ∈ (f.inst i).inputs ∧
      (f.inst e0).ty = (f.inst i).ty ∧ f.typeOf y = (f.inst i).ty ∧
      ∀ (τ : Value → Value) (m : Machine),
        r.kind.binOp.eval ((m.value 1 (τ v)).lane 0) ((m.value 1 (τ w)).lane 0) (f.inst i).ty =
          r.kind.binOp.eval ((m.value 1 (τ (.inst e0))).lane 0) ((m.value 1 (τ y)).lane 0)
            (f.inst i).ty := by
    rw [hinputs]
    rcases one_of_two hcount with ⟨⟨e0, he0, rfl⟩, hno⟩ | ⟨hno, e0, he0, rfl⟩
    · exact ⟨e0, w, he0, fun e he h => hno ⟨e, he, h⟩, by simp, by simp, hv, hw', fun _ _ => rfl⟩
    · exact ⟨e0, v, he0, fun e he h => hno ⟨e, he, h⟩, by simp, by simp, hw', hv,
        fun _ _ => ReductionKind.eval_comm hk _ _ _⟩
  have hmemuses : ∀ x ∈ (f.inst i).inputs, x ∈ (f.inst i).uses := fun x =>
    List.mem_append_left _
  have hS0 := hS e0 he0 (hmemuses _ hused)
  have hty : (f.inst i).ty = (f.inst r.phi).ty := hty0.symm.trans (h.folds e0 he0 hS0).ty
  have hytyped := htyped.value ((ht b i hbody).inputs y hyused) 1 0
  rw [htyy, hty] at hytyped
  have hz := (hboth id m).symm.trans hz
  rw [hty] at hz
  obtain ⟨z', hz', htyz, hfold⟩ := h.exists_eval hk hn hp he0 hS0 (hf.inputs i y hyused) hy hytyped hz
  refine ⟨m'.setValue i [z'], (instr_binary_eq_ok hw hop').mpr ⟨z', ?_, rfl⟩,
    h.setValue hg hmem hroot (hf.body_lt b i hbody) hty htyz hfold⟩
  rw [hty', hboth, hty, hg.eq_self y (hy _ hc.phi_element), hz']

include ht hc hk hn hp in
/-- The next instruction of a block of the loop runs in both runs. -/
theorem Folded.exists_instr {start m0 m2 : Machine} {before after : List InstId}
    (R : SingleLane s f start) (ha : Arrives s f start pred b m0)
    (hphis : phis s f pred b { m0 with path := b :: m0.path } = (.ok (), m1)) (hb : b ∈ l.blocks)
    (hpath : f.Path (fun d => d ∉ l.blocks ∨ D d) f.entry b)
    (hsplit : f.nonPhis b = before ++ i :: after) (hbefore : before.forM (instr s f) m1 = (.ok (), m))
    (h : Folded f g σ r p (fun j => (f.DefinedIn D j ∨ j ∈ f.phis b) ∨ j ∈ before) m m')
    (e : instr s f i m = (.ok (), m2)) : ∃ m2', instr s g i m' = (.ok (), m2') ∧
      Folded f g σ r p (fun j => (f.DefinedIn D j ∨ j ∈ f.phis b) ∨ j ∈ before ++ [i]) m2 m2' := by
  have hi : i ∈ f.nonPhis b := by rw [hsplit]; simp
  have huse := fun v (hv : v ∈ (f.inst i).uses) => hc.of_mem_uses hf hpath hsplit hv
  obtain ⟨m2', e', hm2⟩ : ∃ m2', instr s g i m' = (.ok (), m2') ∧ Folded f g σ r p
      (fun j => ((f.DefinedIn D j ∨ j ∈ f.phis b) ∨ j ∈ before) ∨ j = i) m2 m2' := by
    by_cases hmem : i ∈ r.elements
    · have htyped := typed_before ht R.outside ha (R.arrives ht ha).1 hphis hsplit hbefore
      exact h.exists_instr_of_mem hf hw hg ht hc hk hn hp hb hi hmem htyped
        (fun e he hv => (huse _ hv).2 e he rfl) e
    · exact h.exists_instr_of_not_mem hf hw hg hb hi hmem hc.phi_element (fun v hv => (huse v hv).1)
        (fun v hv e he hve =>
          hmem (hc.user b hb i (Func.mem_body_of_mem_nonPhis hi) e he (hve ▸ hv))) e
  exact ⟨m2', e', hm2.mono fun j _ hj => by simpa [or_assoc] using hj⟩

/-! ## Phis -/

omit hw hf in
/-- Phis that get the same values, but for the elements. -/
theorem agrees_setPhis {new new' : List (InstId × Lanes)}
    (hm : m.Agrees f g id (fun i => i < f.insts.size ∧ i ∉ r.elements) m')
    (h : List.Forall₂ (fun e e' => e'.1 = e.1 ∧ (e.1 ∉ r.elements → e'.2 = e.2)) new new') :
    (m.setPhis new).Agrees f g id (fun i => i < f.insts.size ∧ i ∉ r.elements)
      (m'.setPhis new') := by
  induction h generalizing m m' with
  | nil => exact hm
  | @cons e e' new new' he _ ih =>
    obtain ⟨i, xs⟩ := e
    obtain ⟨i', xs'⟩ := e'
    obtain ⟨hi, hx⟩ := he
    obtain rfl : i' = i := hi
    refine ih ?_
    by_cases hmem : i' ∈ r.elements
    · refine (hm.setValue_right (fun j hj (e : j = i') => hj.2 (e ▸ hmem)) xs').left
        (Machine.size_setValue _ _ _) rfl rfl rfl fun j hj width => ?_
      exact Machine.value_setValue_of_ne _ fun e => hj.2 (Value.inst.inj e ▸ hmem)
    · obtain rfl : xs' = xs := hx hmem
      by_cases hlt : i' < f.insts.size
      · exact (hm.setValue hg.renames hlt xs').mono fun j hj => .inl hj
      · refine (hm.setValue_right (fun j hj (e : j = i') => hlt (e ▸ hj.1)) xs').left
          (Machine.size_setValue _ _ _) rfl rfl rfl fun j hj width => ?_
        exact Machine.value_setValue_of_ne _ fun e => hlt (Value.inst.inj e ▸ hj.1)

omit hw hf hg in
/-- The phis of a block can be read in the second run as well. -/
theorem exists_incoming {phis : List InstId} {new : List (InstId × Lanes)}
    (hin : ∀ phi ∈ phis, ∀ v, pred.bind (f.incomingValue? phi) = some v →
      ∃ v', pred.bind (g.incomingValue? phi) = some v' ∧
        (phi ∉ r.elements → m'.value s.width v' = m.value s.width v))
    (h : List.Forall₂ (Incoming s f pred m) phis new) : ∃ new',
      List.Forall₂ (Incoming s g pred m') phis new' ∧
        List.Forall₂ (fun e e' => e'.1 = e.1 ∧ (e.1 ∉ r.elements → e'.2 = e.2)) new new' := by
  induction h with
  | nil => exact ⟨[], .nil, .nil⟩
  | @cons phi e phis new he _ ih =>
    obtain ⟨v, hv, rfl⟩ := he
    obtain ⟨v', hv', hval⟩ := hin phi List.mem_cons_self v hv
    obtain ⟨new', hnew', hrel⟩ := ih fun phi hphi => hin phi (List.mem_cons_of_mem _ hphi)
    exact ⟨(phi, m'.value s.width v') :: new', .cons ⟨v', hv', rfl⟩ hnew', .cons ⟨rfl, hval⟩ hrel⟩

omit hw hf in
/-- The phis of a block run in the second run as well. -/
theorem Folded.exists_phis_of_values (h : Folded f g σ r p S m m') (hphis : g.phis b = f.phis b)
    (hin : ∀ phi ∈ f.phis b, ∀ v, pred.bind (f.incomingValue? phi) = some v →
      ∃ v', pred.bind (g.incomingValue? phi) = some v' ∧
        (phi ∉ r.elements → m'.value s.width v' = m.value s.width v))
    (e : phis s f pred b { m with path := b :: m.path } = (.ok (), m1)) :
    ∃ m1', phis s g pred b { m' with path := b :: m'.path } = (.ok (), m1') ∧
      m1.Agrees f g id (fun i => i < f.insts.size ∧ i ∉ r.elements) m1' ∧ m1'.path = m1.path := by
  obtain ⟨new, hnew, hm1⟩ := phis_eq_ok_iff.mp e
  have hvisit : ∀ phi ∈ f.phis b, ∀ v, pred.bind (f.incomingValue? phi) = some v →
      ∃ v', pred.bind (g.incomingValue? phi) = some v' ∧ (phi ∉ r.elements →
        Machine.value { m' with path := b :: m'.path } s.width v' =
          Machine.value { m with path := b :: m.path } s.width v) := by
    intro phi hphi v hv
    obtain ⟨v', hv', hval⟩ := hin phi hphi v hv
    refine ⟨v', hv', fun hout => ?_⟩
    rw [Machine.value_visit, Machine.value_visit]
    exact hval hout
  obtain ⟨new', hnew', hrel⟩ := exists_incoming hvisit hnew
  rw [← hphis] at hnew'
  refine ⟨_, phis_eq_ok_iff.mpr ⟨new', hnew', rfl⟩,
    hm1 ▸ agrees_setPhis hg (h.agrees.visit b b) hrel, ?_⟩
  rw [hm1, Machine.path_setPhis, Machine.path_setPhis, h.path]

omit hw hf in
/-- What a phi of the loop takes from a block. -/
theorem Restarts.incomingValue? (hb : b ∈ l.blocks) {phi : InstId} (hphi : phi ∈ f.phis b)
    (hroot : phi ≠ r.phi) (q : BlockId) :
    g.incomingValue? phi q = (f.incomingValue? phi q).map σ := by
  unfold Func.incomingValue?
  rw [hg.inst b hb phi (Func.mem_body_of_mem_phis hphi) hroot, Func.incoming_map]
  exact Func.lookup_map_values σ q _

include ht hc in
/-- A phi behind the header takes over an element, or something that is the same in both runs. -/
theorem Folded.exists_phis (h : Folded f g σ r p S m m') (hb : b ∈ l.blocks) (hne : b ≠ l.header)
    {q : BlockId}
    (hS : ∀ phi ∈ f.phis b, ∀ e ∈ r.elements, f.incomingValue? phi q = some (.inst e) → S e)
    (e : phis s f (some q) b { m with path := b :: m.path } = (.ok (), m1)) :
    ∃ m1', phis s g (some q) b { m' with path := b :: m'.path } = (.ok (), m1') ∧
      Folded f g σ r p (fun j => S j ∨ j ∈ f.phis b) m1 m1' := by
  have hroot : ∀ phi ∈ f.phis b, phi ≠ r.phi := fun phi hphi e => hne
    (hf.eq_of_mem_body (e ▸ Func.mem_body_of_mem_phis hphi) (Func.mem_body_of_mem_phis hc.phi_mem))
  have hin : ∀ phi ∈ f.phis b, ∀ v, (some q).bind (f.incomingValue? phi) = some v →
      ∃ v', (some q).bind (g.incomingValue? phi) = some v' ∧
        (phi ∉ r.elements → m'.value s.width v' = m.value s.width v) := by
    intro phi hphi v (hv : f.incomingValue? phi q = some v)
    refine ⟨σ v, ?_, fun hout => ?_⟩
    · show g.incomingValue? phi q = _
      rw [hg.incomingValue? hb hphi (hroot phi hphi), hv]
      rfl
    · have hinput := mem_inputs_of_incomingValue? hv
      have huse : ∀ e ∈ r.elements, v ≠ .inst e := fun e he hve => hout
        (hc.user b hb phi (Func.mem_body_of_mem_phis hphi) e he
          (List.mem_append_left _ (hve ▸ hinput)))
      rw [hg.eq_self v (huse _ hc.phi_element)]
      exact h.value (hf.inputs phi v hinput) huse _
  obtain ⟨m1', e', hagrees, hpath⟩ := h.exists_phis_of_values hg (hg.phis b hb) hin e
  refine ⟨_, e', hagrees, hpath, fun e0 he0 hS0 => ?_⟩
  by_cases hphi : e0 ∈ f.phis b
  · -- the element takes over another one
    have hbody := Func.mem_body_of_mem_phis hphi
    have hlt := hf.body_lt b e0 hbody
    have hroot := hroot e0 hphi
    have hnodup : (f.phis b).Nodup := (hf.nodup b).sublist (List.takeWhile_sublist _)
    obtain ⟨v, hv, hval⟩ := exists_value_of_phis e hnodup hphi (by rw [h.agrees.size]; exact hlt)
    obtain ⟨v', hv', hval'⟩ := exists_value_of_phis e' (hg.phis b hb ▸ hnodup)
      (hg.phis b hb ▸ hphi) (by rw [h.agrees.size']; exact hg.renames.lt _ hlt)
    have hv : f.incomingValue? e0 q = some v := hv
    have hv' : g.incomingValue? e0 q = some v' := hv'
    rw [hg.incomingValue? hb hphi hroot, hv] at hv'
    cases hv'
    obtain ⟨e1, he1, rfl⟩ := (hc.phi e0 he0 hroot (Func.isPhi_of_mem_phis hphi)).2 v
      (mem_inputs_of_incomingValue? hv)
    have hfolds := h.folds e1 he1 (hS e0 hphi e1 he1 hv)
    obtain ⟨incoming, hop, hmem⟩ := op_of_mem_incoming (Func.mem_incoming hv)
    have hty : (f.inst e1).ty = (f.inst e0).ty := (ht b e0 hbody).phi incoming hop _ hmem
    obtain ⟨x, x', hx, hx', htyped, hfold⟩ := hfolds.values
    rw [hw, Machine.value_visit] at hval hval'
    refine ⟨hty.symm.trans hfolds.ty, x, x', hval.trans hx, ?_, htyped, hfold⟩
    rw [hg.eq_self _ fun e => hroot (Value.inst.inj e)]
    exact hval'.trans hx'
  · refine (h.folds e0 he0 (hS0.resolve_right hphi)).ofEq ?_ ?_
    · rw [value_phis_of_ne e (fun i hi h => ?_) 1, Machine.value_visit]
      cases h
      exact hphi hi
    · rw [value_phis_of_ne e' (fun i hi => hg.ne fun h => ?_) 1, Machine.value_visit]
      subst h
      exact hphi (hg.phis b hb ▸ hi)

omit hw in
include hc in
/-- A branch of the loop goes the same way in both runs. -/
theorem Folded.wayOut_eq (h : Folded f g σ r p S m m') (hb : b ∈ l.blocks)
    {c : BlockId ⊕ Option Lanes} (e : wayOut s.width (f.term b) b m = .ok c) :
    wayOut s.width (g.term b) b m' = .ok c := by
  have huse : ∀ v ∈ (f.term b).uses, ∀ e ∈ r.elements, v ≠ .inst e := fun v hv e he hve =>
    hc.exit b hb e he (hve ▸ hv)
  have hvalue : ∀ v ∈ (f.term b).uses, m'.value s.width (σ v) = m.value s.width v := by
    intro v hv
    rw [hg.eq_self v (huse v hv _ hc.phi_element)]
    exact h.value (hf.uses b v hv) (huse v hv) _
  have hway := wayOut_map_of_value hvalue e id b
  rw [hg.term b hb, hway]
  cases c <;> rfl

end

end Reduction

end Lockstep
