import Lockstep.Proofs.Eval.Frame
import Lockstep.Proofs.Eval.Lanes
import Lockstep.Proofs.Loop.Overlay

/-!
# Running a function with an overlay

In a single lane a function with a complete overlay does what the function does without it. While
control is in a block, the old values are the same, what is added to the block tells what it should,
and outside a loop the choices of the loop have the values that they track (`Overlaid`).
-/

namespace Lockstep

/-! ## The blocks of a function with an overlay -/

theorem span_append {p : InstId → Bool} {l l' : List InstId} (h : ∀ i ∈ l, p i = true)
    (h' : ∀ i ∈ l', p i = false) : (l ++ l').takeWhile p = l ∧ (l ++ l').dropWhile p = l' := by
  have hnil : l'.takeWhile p = [] ∧ l'.dropWhile p = l' := by
    cases l' with
    | nil => exact ⟨rfl, rfl⟩
    | cons i l' =>
      have hi : ¬ p i = true := by rw [h' i List.mem_cons_self]; exact Bool.false_ne_true
      exact ⟨List.takeWhile_cons_of_neg hi, List.dropWhile_cons_of_neg hi⟩
  rw [List.takeWhile_append_of_pos h, List.dropWhile_append_of_pos h, hnil.1, hnil.2,
    List.append_nil]
  exact ⟨rfl, rfl⟩

namespace Annotates

variable {f t : Func} {anyFn : FuncId} {γ : Overlay} {b : BlockId} {i : InstId} {v w : Value}

theorem isRenaming (h : Annotates f anyFn γ t) : Renaming f t id where
  params := h.params
  lt j hj := by rw [h.size]; exact Nat.lt_of_lt_of_le hj h.le
  injective _ _ _ _ e := e
  ty j hj := by rw [id, (h.seen j (Nat.lt_of_lt_of_le hj h.le)).ty, h.old j hj]

theorem isPhi (h : Annotates f anyFn γ t) (hi : i < γ.size) : t.isPhi i = (γ.code i).isPhi := by
  have hop := (h.seen i hi).op
  unfold Func.isPhi Instr.isPhi
  generalize (t.inst i).op = o' at hop ⊢
  generalize (γ.code i).op = o at hop ⊢
  cases hop <;> rfl

theorem isPhi_of_gate {o : Op} {before : List InstId} (h : IsGate f anyFn γ b before o) :
    o.isPhi = false := by
  cases h <;> rfl

theorem phis_eq (h : Annotates f anyFn γ t) (hf : f.WellFormed) (b : BlockId) :
    t.phis b = f.phis b ++ γ.phis b ∧ t.nonPhis b = f.nonPhis b ++ γ.ops b := by
  have hold : ∀ i ∈ f.body b, t.isPhi i = f.isPhi i := by
    intro i hi
    have hlt := hf.body_lt b i hi
    rw [h.isPhi (Nat.lt_of_lt_of_le hlt h.le), h.old i hlt]
    rfl
  unfold Func.phis Func.nonPhis
  rw [h.body b]
  refine span_append (fun i hi => ?_) fun i hi => ?_
  · rcases List.mem_append.mp hi with hi | hi
    · rw [hold i (Func.mem_body_of_mem_phis hi)]
      exact Func.isPhi_of_mem_phis hi
    · obtain ⟨-, hlt, hphi, -⟩ := h.phis b i hi
      rw [h.isPhi hlt, hphi]
  · rcases List.mem_append.mp hi with hi | hi
    · rw [hold i (Func.mem_body_of_mem_nonPhis hi)]
      exact hf.phis_first b i hi
    · obtain ⟨before, hadd⟩ := h.mem_ops hi
      rw [h.isPhi hadd.lt]
      exact isPhi_of_gate hadd.gate

theorem typeOf_old (h : Annotates f anyFn γ t) (hv : f.Defines v) :
    t.typeOf v = f.typeOf v := by
  cases v with
  | const c => rfl
  | param k =>
    show t.params[k]?.getD _ = f.params[k]?.getD _
    rw [h.params]
  | inst i =>
    show (t.inst i).ty = (f.inst i).ty
    rw [(h.seen i (Nat.lt_of_lt_of_le hv h.le)).ty, h.old i hv]

theorem typeOf_sees (h : Annotates f anyFn γ t) (hv : γ.Sees b v w) :
    t.typeOf w = t.typeOf v := by
  induction hv with
  | refl => rfl
  | tail _ e ih =>
    obtain ⟨τ, hτ, -, rfl, rfl⟩ := e
    have hk := h.tracked τ hτ
    rw [← ih]
    show (t.inst τ.choice).ty = (t.inst τ.value).ty
    rw [(h.seen _ hk.lt.1).ty, (h.seen _ hk.lt.2).ty, hk.ty]

/-- Outside a loop neither a value of the loop nor its choice is computed. -/
theorem block_ne_of_tracked (h : Annotates f anyFn γ t) (hf : f.WellFormed) {τ : Tracked}
    (hτ : τ ∈ γ.tracked) (hb : b ∉ τ.loop.blocks) :
    (γ.code τ.value).block ≠ b ∧ (γ.code τ.choice).block ≠ b := by
  have hk := h.tracked τ hτ
  obtain ⟨before, after, -, -, -, e, -⟩ := hk.choice
  refine ⟨fun e => hb (e ▸ hk.value), fun e' => hb ?_⟩
  rw [← e', (h.ops _ _ _ _ e).block]
  exact (hk.singleExit.exiting_mem hf.toClosed hk.mem).1

end Annotates

/-- What an attached instruction of a reachable block uses exists. -/
theorem Func.WellFormed.defines_use {f : Func} (hf : f.WellFormed) {b : BlockId} {i : InstId}
    (hr : f.Reachable b) (hi : i ∈ f.nonPhis b) {v : Value} (hv : v ∈ (f.inst i).uses) :
    f.Defines v := by
  obtain ⟨before, after, e⟩ := List.append_of_mem (Func.mem_body_of_mem_nonPhis hi)
  have havail := hf.inst b hr before i after e (hf.phis_first b i hi) v hv
  cases v with
  | inst j =>
    rcases havail with hj | ⟨d, -, hj, -⟩
    · exact hf.body_lt b j (by rw [e]; exact List.mem_append_left _ hj)
    · exact hf.body_lt d j hj
  | _ => trivial

/-! ## Control in a block -/

/-- The machines of both functions while control is in a block: what is old is the same, and outside
a loop the choices have the values that they track. -/
structure Overlaid (f t : Func) (γ : Overlay) (b : BlockId) (m m' : Machine) : Prop where
  agrees : m.Agrees f t id (· < f.insts.size) m'
  path : m'.path = m.path
  full : m.Full 1
  full' : m'.Full 1
  tracked : ∀ τ ∈ γ.tracked, b ∉ τ.loop.blocks →
    m'.value 1 (.inst τ.choice) = m'.value 1 (.inst τ.value)

namespace Overlaid

open Run

variable {f t : Func} {anyFn : FuncId} {γ : Overlay} {b : BlockId} {m m' m1 : Machine}
  {s s' : Setup} {v w : Value}

theorem value_sees (hm : Overlaid f t γ b m m') (hv : γ.Sees b v w) :
    m'.value 1 w = m'.value 1 v := by
  induction hv with
  | refl => rfl
  | tail _ e ih =>
    obtain ⟨τ, hτ, hb, rfl, rfl⟩ := e
    rw [hm.tracked τ hτ hb, ih]

theorem value_old (hm : Overlaid f t γ b m m') (hv : f.Defines v) :
    m'.value 1 v = m.value 1 v := by
  have h := hm.agrees.value (v := v) (by cases v <;> exact hv) 1
  rwa [Value.rename_id] at h

theorem value_sees_old (hm : Overlaid f t γ b m m') (hw : γ.Sees b v w) (hv : f.Defines v) :
    m'.value 1 w = m.value 1 v :=
  (hm.value_sees hw).trans (hm.value_old hv)

theorem map_value_sees (hm : Overlaid f t γ b m m') {args args' : List Value}
    (h : List.Forall₂ (γ.Sees b) args args') :
    args'.map (m'.value 1) = args.map (m'.value 1) := by
  induction h with
  | nil => rfl
  | cons hv _ ih => rw [List.map_cons, List.map_cons, ih, hm.value_sees hv]

/-- The mask that the block sees switches the same lanes off. -/
theorem active_sees (hm : Overlaid f t γ b m m') {mask mask' : Option Value}
    (h : Option.Rel (γ.Sees b) mask mask') (hdef : ∀ v ∈ mask, f.Defines v) :
    active 1 m' mask' = active 1 m mask := by
  funext i
  unfold active
  cases h with
  | none => rfl
  | some hv =>
    show Option.all _ (some (m'.value 1 _)) = Option.all _ (some (m.value 1 _))
    rw [hm.value_sees_old hv (hdef _ rfl)]

/-- An old operation of the block does what it did. -/
theorem exists_instr (hA : Annotates f anyFn γ t) (hf : f.WellFormed) (hs : s.Alike s')
    (hw : s.width = 1) (hr : f.Reachable b) {i : InstId} (hi : i ∈ f.nonPhis b)
    (hm : Overlaid f t γ b m m') (e : instr s f i m = (.ok (), m1)) :
    ∃ m1', instr s' t i m' = (.ok (), m1') ∧ Overlaid f t γ b m1 m1' := by
  obtain ⟨code, args, hop⟩ := op_of_instr_eq_ok e
  have hbody := Func.mem_body_of_mem_nonPhis hi
  have hlt := hf.body_lt b i hbody
  have hblock := hf.placed b i hbody
  have hseen := hA.seen i (Nat.lt_of_lt_of_le hlt hA.le)
  rw [hA.old i hlt] at hseen
  obtain ⟨args', hop', hargs⟩ : ∃ args', (t.inst i).op = .apply code args' ∧
      List.Forall₂ (γ.Sees b) args args' := by
    have h := hseen.op
    rw [hop, hblock] at h
    generalize (t.inst i).op = o at h
    cases h with
    | apply h => exact ⟨_, rfl, h⟩
  have huse : ∀ v ∈ (f.inst i).uses, f.Defines v := fun v hv => hf.defines_use hr hi hv
  have hdef : ∀ v ∈ args, f.Defines v := fun v hv =>
    huse v (List.mem_append_left _ (by rw [inputs_of_op hop]; exact hv))
  have hinputs : args'.map (m'.value s.width) = args.map (m.value s.width) := by
    rw [hw, hm.map_value_sees hargs]
    exact List.map_congr_left fun v hv => hm.value_old (hdef v hv)
  have hsource : t.typeOf ((t.inst i).input 0) = f.typeOf ((f.inst i).input 0) := by
    unfold Instr.input
    rw [inputs_of_op hop, inputs_of_op hop']
    cases hargs with
    | nil => rfl
    | cons hv _ =>
      exact (hA.typeOf_sees hv).trans (hA.typeOf_old (hdef _ List.mem_cons_self))
  have hactive : active s.width m' (t.inst i).mask = active s.width m (f.inst i).mask := by
    rw [hw]
    refine hm.active_sees (hblock ▸ hseen.mask) fun v hv => huse v (List.mem_append_right _ ?_)
    rw [Option.mem_def.mp hv]
    exact List.mem_singleton_self v
  have hty : (t.inst i).ty = (f.inst i).ty := hseen.ty
  obtain ⟨xs, n, n', hb, rfl, h⟩ := exists_instr_of_inputs hs (.inl hw) hop hop' hty hm.agrees.memory
    hm.agrees.callLog hinputs hsource hactive e
  refine ⟨_, h, ?_, ?_, ?_, ?_, fun τ hτ hout => ?_⟩
  · refine ((hm.agrees.ofBeside hb).setValue hA.isRenaming hlt xs).mono fun j hj => .inl hj
  · show n'.path = n.path
    rw [hb.path, hb.path', hm.path]
  · have := full_instr (hw ▸ hm.full) e
    rwa [hw] at this
  · have := full_instr (s := s') (by rw [hs.width, hw]; exact hm.full') h
    rwa [hs.width, hw] at this
  · obtain ⟨hne, hne'⟩ := hA.block_ne_of_tracked hf hτ hout
    have hcode : (γ.code i).block = b := by rw [hA.old i hlt, hblock]
    rw [value_instr_of_ne h (fun e => hne' (by rw [Value.inst.inj e, hcode])) 1,
      value_instr_of_ne h (fun e => hne (by rw [Value.inst.inj e, hcode])) 1,
      hm.tracked τ hτ hout]

theorem exists_instrs (hA : Annotates f anyFn γ t) (hf : f.WellFormed) (hs : s.Alike s')
    (hw : s.width = 1) (hr : f.Reachable b) {l : List InstId} (hl : ∀ i ∈ l, i ∈ f.nonPhis b)
    (hm : Overlaid f t γ b m m') (e : l.forM (instr s f) m = (.ok (), m1)) :
    ∃ m1', l.forM (instr s' t) m' = (.ok (), m1') ∧ Overlaid f t γ b m1 m1' := by
  induction l generalizing m m' with
  | nil =>
    cases e
    exact ⟨m', rfl, hm⟩
  | cons i l ih =>
    obtain ⟨_, m2, h1, e⟩ := exists_of_bind_run_eq_ok e
    obtain ⟨m2', h1', hm2⟩ := exists_instr hA hf hs hw hr (hl i List.mem_cons_self) hm h1
    obtain ⟨m1', h2', hm1⟩ := ih (fun j hj => hl j (List.mem_cons_of_mem _ hj)) hm2 e
    exact ⟨m1', (bind_run_eq h1').trans h2', hm1⟩

end Overlaid

/-! ## Coming into a block -/

/-- Control comes into a block, along an edge on which everything tells what it should. -/
structure Arrived (f t : Func) (anyFn : FuncId) (γ : Overlay) (pred : Option BlockId) (b : BlockId)
    (m m' : Machine) : Prop where
  overlaid : Overlaid f t γ b m m'
  reachable : f.Reachable b
  entry : pred = none → b = f.entry
  edge : ∀ p, pred = some p → f.Reachable p ∧ b ∈ (f.term p).targets
  tells : ∀ p, pred = some p → ∀ v φ, Tells f anyFn γ p (γ.ops p) v φ →
    m'.value 1 v = [.bool (φ b)]

theorem Machine.Agrees.setPhis_right {f g : Func} {ρ : InstId → InstId} {S : InstId → Prop}
    {m m' : Machine} (h : Agrees f g ρ S m m') {new : List (InstId × Lanes)}
    (hnew : ∀ e ∈ new, ∀ i, S i → ρ i ≠ e.1) : Agrees f g ρ S m (m'.setPhis new) := by
  induction new generalizing m' with
  | nil => exact h
  | cons e new ih =>
    exact ih (h.setValue_right (hnew e List.mem_cons_self) e.2) fun e he =>
      hnew e (List.mem_cons_of_mem _ he)

/-- Lists of entries whose values are related one by one give related values. -/
theorem lookup_of_forall₂ {R : Value → Value → Prop} {l l' : List (BlockId × Value)}
    (h : List.Forall₂ (fun e e' => e'.1 = e.1 ∧ R e.2 e'.2) l l') {p : BlockId} {v : Value}
    (hv : l.lookup p = some v) : ∃ w, l'.lookup p = some w ∧ R v w := by
  induction h with
  | nil => cases hv
  | @cons e e' l l' he _ ih =>
    obtain ⟨q, x⟩ := e
    obtain ⟨q', y⟩ := e'
    obtain ⟨rfl, hxy⟩ := he
    rw [List.lookup_cons] at hv ⊢
    by_cases hpq : p = q'
    · subst hpq
      rw [beq_self_eq_true] at hv ⊢
      cases hv
      exact ⟨y, rfl, hxy⟩
    · rw [beq_eq_false_iff_ne.mpr hpq] at hv ⊢
      exact ih hv

theorem exists_forall₂ {α β : Type} {R : α → β → Prop} {l : List α} (h : ∀ x ∈ l, ∃ y, R x y) :
    ∃ l', List.Forall₂ R l l' := by
  induction l with
  | nil => exact ⟨[], .nil⟩
  | cons x l ih =>
    obtain ⟨y, hy⟩ := h x List.mem_cons_self
    obtain ⟨l', hl⟩ := ih fun x hx => h x (List.mem_cons_of_mem _ hx)
    exact ⟨y :: l', .cons hy hl⟩

namespace Arrived

open Run

variable {f t : Func} {anyFn : FuncId} {γ : Overlay} {pred : Option BlockId} {b n : BlockId}
  {m m' m1 m2 m2' : Machine} {s s' : Setup} {v : Value}

/-- A value on an edge, as the phis see it. -/
theorem exists_incoming (hA : Annotates f anyFn γ t) {i : InstId} (hi : i < γ.size)
    (hb : (γ.code i).block = b) {p : BlockId} (hv : (γ.code i).incoming.lookup p = some v) :
    ∃ w, t.incomingValue? i p = some w ∧ γ.Sees b v w := by
  have hop := (hA.seen i hi).op
  rw [hb] at hop
  unfold Func.incomingValue? Instr.incoming
  unfold Instr.incoming at hv
  generalize (t.inst i).op = o' at hop ⊢
  generalize (γ.code i).op = o at hop hv
  cases hop with
  | phi h => exact lookup_of_forall₂ h hv
  | apply h => cases hv

/-- The old phis get what they got before. -/
theorem incoming_old (hA : Annotates f anyFn γ t) (hf : f.WellFormed) (hs : s.Alike s')
    (hw : s.width = 1) (hm : Arrived f t anyFn γ pred b m m') {new : List (InstId × Lanes)}
    (hnew : List.Forall₂ (Incoming s f pred { m with path := b :: m.path }) (f.phis b) new) :
    List.Forall₂ (Incoming s' t pred { m' with path := b :: m'.path }) (f.phis b) new := by
  refine ((List.forall₂_and_left _ _).mpr ⟨fun i hi => hi, hnew⟩).imp ?_
  rintro i e ⟨hi, v, hv, rfl⟩
  obtain ⟨p, rfl, hv⟩ := Option.bind_eq_some_iff.mp hv
  have hbody := Func.mem_body_of_mem_phis hi
  have hlt := hf.body_lt b i hbody
  have hblock : (γ.code i).block = b := by rw [hA.old i hlt, hf.placed b i hbody]
  obtain ⟨w, hw', hsees⟩ := exists_incoming hA (Nat.lt_of_lt_of_le hlt hA.le) hblock
    (v := v) (p := p) (by rw [hA.old i hlt]; exact hv)
  refine ⟨w, hw', ?_⟩
  rw [hs.width, hw]
  have hdef := hf.defines_incoming (Func.mem_incoming hv)
  exact congrArg (Prod.mk i) (hm.overlaid.value_sees_old hsees hdef).symm

/-- The new phis get something, and masks are true. -/
theorem exists_incoming_new (hA : Annotates f anyFn γ t)
    (hc : ∀ i ∈ γ.phis b, γ.Complete f anyFn b i) (hs : s.Alike s') (hw : s.width = 1)
    (hm : Arrived f t anyFn γ pred b m m') :
    ∃ more, List.Forall₂ (fun i (e : InstId × Lanes) =>
      Incoming s' t pred { m' with path := b :: m'.path } i e ∧
        ((b, i) ∈ γ.maskPhis → e.2 = [.bool true])) (γ.phis b) more := by
  refine exists_forall₂ fun i hi => ?_
  obtain ⟨-, hlt, -, hblock, hne⟩ := hA.phis b i hi
  cases hpred : pred with
  | none => exact absurd (hm.entry hpred) hne
  | some p =>
    obtain ⟨hr, hp⟩ := hm.edge p hpred
    obtain ⟨v, hv, htrue⟩ := hc i hi p hr hp
    obtain ⟨w, hw', hsees⟩ := exists_incoming hA hlt hblock hv
    refine ⟨(i, m'.value 1 w), ⟨w, hw', by rw [hs.width, hw]; rfl⟩, fun hmask => ?_⟩
    obtain ⟨φ, htells, hφ⟩ := htrue hmask
    show m'.value 1 w = _
    rw [hm.overlaid.value_sees hsees, hm.tells p hpred v φ htells, hφ]

/-- When old phis have got the same values on both sides, and new ones any, what is old agrees. -/
theorem overlaid_setPhis (hA : Annotates f anyFn γ t) (hf : f.WellFormed)
    (hm : Arrived f t anyFn γ pred b m m') {new more : List (InstId × Lanes)}
    (hnew : new.map Prod.fst = f.phis b) (hmore : more.map Prod.fst = γ.phis b)
    (hone : ∀ e ∈ new ++ more, e.2.length = 1) :
    Overlaid f t γ b (({ m with path := b :: m.path } : Machine).setPhis new)
      (({ m' with path := b :: m'.path } : Machine).setPhis (new ++ more)) := by
  have hm0 := hm.overlaid
  have hfull : ({ m with path := b :: m.path } : Machine).Full 1 := hm0.full.ofEq rfl rfl
  have hfull' : ({ m' with path := b :: m'.path } : Machine).Full 1 := hm0.full'.ofEq rfl rfl
  refine ⟨?_, ?_, hfull.setPhis fun e he => hone e (List.mem_append_left _ he),
    hfull'.setPhis hone, fun τ hτ hout => ?_⟩
  · have h := (hm0.agrees.visit b b).setPhis hA.isRenaming new fun e he => by
      refine hf.body_lt b e.1 (Func.mem_body_of_mem_phis ?_)
      rw [← hnew]
      exact List.mem_map_of_mem he
    have hmap : (new.map fun e => (id e.1, e.2)) = new := List.map_id _
    have happ : ({ m' with path := b :: m'.path } : Machine).setPhis (new ++ more) =
        (({ m' with path := b :: m'.path } : Machine).setPhis new).setPhis more :=
      List.foldl_append
    rw [hmap] at h
    rw [happ]
    refine (h.mono fun i hi => .inl hi).setPhis_right fun e he i hi => ?_
    have hmem : e.1 ∈ γ.phis b := by
      rw [← hmore]
      exact List.mem_map_of_mem he
    exact Nat.ne_of_lt (Nat.lt_of_lt_of_le hi (hA.phis b e.1 hmem).1)
  · simp [hm0.path]
  · -- outside a loop, neither a value of the loop nor its choice is a phi of the block
    have hframe : ∀ j, (γ.code j).block ≠ b →
        (({ m' with path := b :: m'.path } : Machine).setPhis (new ++ more)).value 1 (.inst j) =
          m'.value 1 (.inst j) := by
      intro j hj
      refine Machine.value_setPhis_of_ne fun e he h => hj ?_
      cases h
      rcases List.mem_append.mp he with he | he
      · have hmem : e.1 ∈ f.phis b := hnew ▸ List.mem_map_of_mem he
        exact (hA.block_of_mem_body hf.toCoherent (Func.mem_body_of_mem_phis hmem)).2
      · exact (hA.phis b e.1 (hmore ▸ List.mem_map_of_mem he)).2.2.2.1
    obtain ⟨hne, hne'⟩ := hA.block_ne_of_tracked hf hτ hout
    rw [hframe _ hne, hframe _ hne', hm0.tracked τ hτ hout]

/-- The phis of the block, the masks and trackers among them, get their values. -/
theorem exists_phis (hA : Annotates f anyFn γ t) (hf : f.WellFormed)
    (hc : ∀ i ∈ γ.phis b, γ.Complete f anyFn b i) (hs : s.Alike s') (hw : s.width = 1)
    (hm : Arrived f t anyFn γ pred b m m')
    (e : phis s f pred b { m with path := b :: m.path } = (.ok (), m1)) :
    ∃ m1', phis s' t pred b { m' with path := b :: m'.path } = (.ok (), m1') ∧
      Overlaid f t γ b m1 m1' ∧
      (∀ i, (b, i) ∈ γ.maskPhis → m1'.value 1 (.inst i) = [.bool true]) ∧
      ∀ v, (∀ i ∈ t.phis b, v ≠ .inst i) → m1'.value 1 v = m'.value 1 v := by
  obtain ⟨new, hnew, rfl⟩ := phis_eq_ok_iff.mp e
  obtain ⟨more, hmore⟩ := hm.exists_incoming_new hA hc hs hw
  have hmore1 := hmore.imp fun _ _ h => h.1
  have hall : List.Forall₂ (Incoming s' t pred { m' with path := b :: m'.path }) (t.phis b)
      (new ++ more) := by
    rw [(hA.phis_eq hf b).1]
    exact List.rel_append (hm.incoming_old hA hf hs hw hnew) hmore1
  have hids := map_fst_of_incoming hall
  have hmfst := map_fst_of_incoming hmore1
  have hone : ∀ e ∈ new ++ more, e.2.length = 1 := by
    intro e he
    obtain ⟨i, -, v, -, rfl⟩ := exists_mem_of_forall₂ hall he
    rw [hs.width, hw]
    exact hm.overlaid.full'.value v
  refine ⟨_, phis_eq_ok_iff.mpr ⟨_, hall, rfl⟩,
    hm.overlaid_setPhis hA hf (map_fst_of_incoming hnew) hmfst hone, fun i hi => ?_,
    fun v hv => ?_⟩
  · have hmem := hA.maskPhis _ hi
    rw [← hmfst] at hmem
    obtain ⟨e, he, rfl⟩ := List.mem_map.mp hmem
    obtain ⟨j, -, ⟨v, -, rfl⟩, htrue⟩ := exists_mem_of_forall₂ hmore he
    rw [← htrue hi]
    refine Machine.value_setPhis_of_mem ?_ (List.mem_append_right _ he) ?_
    · rw [hids, (hA.phis_eq hf b).1]
      refine List.nodup_append.mpr ⟨(hf.nodup b).sublist (List.takeWhile_sublist _),
        (hA.nodup b).1, fun i hi j hj e => ?_⟩
      have hlt := hf.body_lt b i (Func.mem_body_of_mem_phis hi)
      exact absurd hlt (Nat.not_lt_of_le (e ▸ (hA.phis b j hj).1))
    · show _ < m'.values.size
      rw [hm.overlaid.agrees.size', hA.size]
      exact (hA.phis b _ (hA.maskPhis _ hi)).2.1
  · refine (Machine.value_setPhis_of_ne fun e he => hv e.1 ?_).trans (by cases v <;> rfl)
    rw [← hids]
    exact List.mem_map_of_mem he

end Arrived

/-! ## What is known at the end of a block -/

/-- A constant tells the truth value that it is. -/
theorem eq_of_value_bool? {m : Machine} {c : Value} {x y : Bool} (hx : c.bool? = some x)
    (h : m.value 1 c = [.bool y]) : y = x := by
  unfold Value.bool? at hx
  split at hx
  · cases hx
    cases h
    rfl
  · cases hx

/-- With control about to go from `b` to `n`, what tells something tells the truth. -/
def Known (f : Func) (anyFn : FuncId) (γ : Overlay) (b : BlockId) (ops : List InstId) (n : BlockId)
    (m' : Machine) : Prop :=
  ∀ v φ, Tells f anyFn γ b ops v φ → m'.value 1 v = [.bool (φ n)]

section

open Run

variable {f t : Func} {anyFn : FuncId} {γ : Overlay} {pred : Option BlockId} {b n : BlockId}
  {m m' m2 m2' : Machine} {s s' : Setup}

/-- After the old operations of a block everything is known but what the new ones compute. Where
control leaves the function, any block may stand for the next one. -/
theorem Arrived.known (hm : Arrived f t anyFn γ pred b m m') (hm2 : Overlaid f t γ b m2 m2')
    (hphi : ∀ i, (b, i) ∈ γ.maskPhis → m2'.value 1 (.inst i) = [.bool true])
    (hkept : ∀ v, (∀ i, v = .inst i → i < γ.size ∧ (γ.code i).block ≠ b) →
      m2'.value 1 v = m'.value 1 v)
    (hcond : ∀ c onTrue onFalse, f.term b = .brIf c onTrue onFalse →
      m2'.value 1 c = [.bool (n == onTrue)])
    (hn : (f.term b).targets ≠ [] → n ∈ (f.term b).targets) : Known f anyFn γ b [] n m2' := by
  intro v φ h
  suffices ∀ b' ops v φ, Tells f anyFn γ b' ops v φ → b' = b → ops = [] →
      m2'.value 1 v = [.bool (φ n)] from this b [] v φ h rfl rfl
  clear h v φ
  intro b' ops v φ h
  induction h with
  | const b' ops x =>
    rintro rfl -
    rfl
  | cond h =>
    rintro rfl -
    exact hcond _ _ _ h
  | seen hτ hb _ ih =>
    rintro rfl hops
    rw [hm2.tracked _ hτ hb, ih rfl hops]
  | phi h =>
    rintro rfl -
    exact hphi _ h
  | @region b' ops v R φ hR he hv h hφ _ =>
    rintro rfl -
    have hout : ∀ i, v = .inst i → i < γ.size ∧ (γ.code i).block ≠ b' := fun i hi =>
      ⟨(hv i hi).1, fun e => (hv i hi).2 (e ▸ hR)⟩
    rw [hkept v hout]
    cases hpred : pred with
    | none => exact absurd (hm.entry hpred ▸ hR) he
    | some p =>
      obtain ⟨hr, hp⟩ := hm.edge p hpred
      by_cases hRp : R p
      · exact hm.tells p hpred v _ (.region R φ hRp he hv h hφ)
      · rw [hm.tells p hpred v _ (h p b' hr hRp hp hR), hφ p b' hr hRp hp hR]
  | not _ _ _ _ => exact fun _ e => absurd e (by simp)
  | and _ _ _ _ _ _ => exact fun _ e => absurd e (by simp)
  | any _ _ _ _ => exact fun _ e => absurd e (by simp)
  | congr hb hx _ _ e ihc ih =>
    rintro rfl hops
    rw [ih rfl hops, e n (hn hb) (eq_of_value_bool? hx (ihc rfl hops))]

/-! ## The operations that are added -/

/-- What a gate computes from what is known. -/
structure GateResult (anyFn : FuncId) (m : Machine) (o : Op) (xs : Lanes) : Prop where
  not : ∀ v x, o = .apply (.binary .xor) [v, .ofBool true] → m.value 1 v = [.bool x] →
    xs = [.bool !x]
  and : ∀ u v x y, o = .apply (.binary .and) [u, v] → m.value 1 u = [.bool x] →
    m.value 1 v = [.bool y] → xs = [.bool (x && y)]
  any : ∀ v x, o = .apply (.call anyFn) [v] → m.value 1 v = [.bool x] → xs = [.bool x]
  select : ∀ c v w x, o = .apply .select [c, v, w] → m.value 1 c = [.bool true] →
    m.value 1 v = [x] → xs = [x]

/-- The operands of a gate are what they were before uses were redirected. -/
theorem exists_gate (hA : Annotates f anyFn γ t) (hs : s.Alike s') (hw : s.width = 1)
    {before : List InstId} {i : InstId}
    (hany : (∃ v, (γ.code i).op = .apply (.call anyFn) [v]) → s.marker? anyFn = some .any)
    (hi : IsAdded f anyFn γ b before i) (hm : Overlaid f t γ b m m')
    (hk : Known f anyFn γ b before n m') :
    ∃ xs, instr s' t i m' = (.ok (), m'.setValue i xs) ∧ xs.length = 1 ∧
      GateResult anyFn m' (γ.code i).op xs := by
  have hsees := (hA.seen i hi.lt).op
  rw [hi.block] at hsees
  have hrun : ∀ {code args args' xs}, (t.inst i).op = .apply code args' →
      List.Forall₂ (γ.Sees b) args args' →
      (∀ source ty active, operation s' i code (args.map (m'.value 1)) source ty active m' =
        (.ok xs, m')) → instr s' t i m' = (.ok (), m'.setValue i xs) := by
    intro code args args' xs hop' hargs hx
    have hinputs : args'.map (m'.value s'.width) = args.map (m'.value 1) := by
      rw [hs.width, hw, hm.map_value_sees hargs]
    rw [instr_apply hop', hinputs]
    exact bind_run_eq (hx _ _ _)
  have hw' : s'.width = 1 := hs.width.trans hw
  have hgate := hi.gate
  generalize ho' : (t.inst i).op = o' at hsees
  generalize (γ.code i).op = o at hany hsees hgate ⊢
  cases hgate with
  | @not v φ h =>
    have hv := hk v φ h
    cases hsees with
    | apply hargs =>
    refine ⟨[.bool !φ n], hrun ho' hargs fun source ty active => ?_, rfl, ?_⟩
    · unfold operation
      simp only [hw', List.map_cons, List.map_nil, hv]
      refine lanewise_one ?_
      show Except.ok (Scalar.bool (φ n ^^ true)) = _
      rw [Bool.xor_true]
    · refine ⟨fun w x e hx => ?_, fun _ _ _ _ e => (nomatch e), fun _ _ e => (nomatch e),
        fun _ _ _ _ e => (nomatch e)⟩
      cases e
      rw [hv] at hx
      cases hx
      rfl
  | @and u v φ ψ hu hv =>
    have hu := hk u φ hu
    have hv := hk v ψ hv
    cases hsees with
    | apply hargs =>
    refine ⟨[.bool (φ n && ψ n)], hrun ho' hargs fun source ty active => ?_, rfl, ?_⟩
    · unfold operation
      simp only [hw', List.map_cons, List.map_nil, hu, hv]
      exact lanewise_one rfl
    · refine ⟨fun _ _ e => (nomatch e), fun u' v' x y e hx hy => ?_, fun _ _ e => (nomatch e),
        fun _ _ _ _ e => (nomatch e)⟩
      cases e
      rw [hu] at hx
      rw [hv] at hy
      cases hx
      cases hy
      rfl
  | @any v φ h =>
    have hv := hk v φ h
    cases hsees with
    | apply hargs =>
    refine ⟨[.bool (φ n)], hrun ho' hargs fun source ty active => ?_, rfl, ?_⟩
    · unfold operation
      simp only [hs.marker, hany ⟨v, rfl⟩, hw', List.map_cons, List.map_nil, hv]
      cases φ n <;> rfl
    · refine ⟨fun _ _ e => (nomatch e), fun _ _ _ _ e => (nomatch e), fun w x e hx => ?_,
        fun _ _ _ _ e => (nomatch e)⟩
      cases e
      rw [hv] at hx
      cases hx
      rfl
  | select args =>
    cases hsees with
    | apply hargs =>
    let input (k : Nat) := ((args.map (m'.value 1))[k]?.getD []).lane 0
    refine ⟨[(input 0).choose (input 1) (input 2)], hrun ho' hargs fun source ty active => ?_, rfl,
      fun _ _ e => (nomatch e), fun _ _ _ _ e => (nomatch e), fun _ _ e => (nomatch e),
      fun c v w x e hc hv => ?_⟩
    · unfold operation
      rw [hw']
      rfl
    · cases e
      simp only [input, List.map_cons, List.map_nil, List.getElem?_cons_zero,
        List.getElem?_cons_succ, Option.getD_some, hc, hv]
      rfl

/-- An operation that is added to a block stands last or among the ones before the last. -/
theorem append_cons_eq_append_singleton {α : Type} {a c before : List α} {i j : α}
    (e : a ++ j :: c = before ++ [i]) :
    (a = before ∧ j = i) ∨ ∃ c', before = a ++ j :: c' := by
  rcases List.eq_nil_or_concat c with rfl | ⟨c', k, rfl⟩
  · obtain ⟨ha, hj⟩ := List.append_inj' e rfl
    exact .inl ⟨ha, List.singleton_inj.mp hj⟩
  · refine .inr ⟨c', ?_⟩
    rw [List.concat_eq_append, ← List.cons_append, ← List.append_assoc] at e
    exact (List.append_inj' e rfl).1.symm

/-- After one more operation one thing more is known. -/
theorem Known.step {before : List InstId} {i : InstId} {xs : Lanes}
    (hA : Annotates f anyFn γ t) (hf : f.WellFormed) (hk : Known f anyFn γ b before n m')
    (hi : IsAdded f anyFn γ b before i) (hnew : i ∉ before)
    (hm : Overlaid f t γ b m (m'.setValue i xs)) (hx : GateResult anyFn m' (γ.code i).op xs)
    (hr : f.Reachable b) (hn : n ∈ (f.term b).targets) :
    Known f anyFn γ b (before ++ [i]) n (m'.setValue i xs) := by
  intro v φ h
  suffices ∀ b' ops v φ, Tells f anyFn γ b' ops v φ → b' = b → ops = before ++ [i] →
      (m'.setValue i xs).value 1 v = [.bool (φ n)] from this b _ v φ h rfl rfl
  clear h v φ
  have hsize : i < m'.values.size := by
    rw [← Machine.size_setValue m' i xs, hm.agrees.size', hA.size]
    exact hi.lt
  have hself : (m'.setValue i xs).value 1 (.inst i) = xs := Machine.value_setValue_self xs hsize
  -- what was known stays so
  have hkeep : ∀ {v φ}, Tells f anyFn γ b before v φ → v ≠ .inst i →
      (m'.setValue i xs).value 1 v = [.bool (φ n)] := fun h hv => by
    rw [Machine.value_setValue_of_ne xs hv, hk _ _ h]
  have hmem : ∀ {a c : List InstId} {j : InstId}, before = a ++ j :: c →
      Value.inst j ≠ .inst i := fun e e' =>
    hnew (by rw [e, ← Value.inst.inj e']; simp)
  intro b' ops v φ h
  induction h with
  | const b' ops x =>
    rintro rfl -
    rfl
  | @cond b' onTrue onFalse ops c h =>
    rintro rfl -
    refine hkeep (.cond h) fun e => ?_
    have hlt : i < f.insts.size := by
      have havail := hf.exit b' hr c (by rw [h]; exact List.mem_singleton_self _)
      rw [e] at havail
      rcases havail with hi | ⟨d, -, hi, -⟩
      · exact hf.body_lt b' i hi
      · exact hf.body_lt d i hi
    exact absurd hlt (Nat.not_lt_of_le hi.new)
  | @seen b' ops φ τ hτ hb _ ih =>
    rintro rfl hops
    rw [hm.tracked τ hτ hb, ih rfl hops]
  | @phi b' ops j h =>
    rintro rfl -
    refine hkeep (.phi h) fun e => ?_
    cases e
    have hphi := (hA.phis b' i (hA.maskPhis _ h)).2.2.1
    rw [Instr.isPhi, Annotates.isPhi_of_gate hi.gate] at hphi
    cases hphi
  | @region b' ops v R φ hR he hv h hφ _ =>
    rintro rfl -
    refine hkeep (.region R φ hR he hv h hφ) fun e => ?_
    exact (hv i e).2 (hi.block ▸ hR)
  | @not b' a c j v φ hj hop h ih =>
    rintro rfl hops
    rcases append_cons_eq_append_singleton hops with ⟨rfl, rfl⟩ | ⟨c', hbefore⟩
    · rw [hself]
      exact hx.not v _ hop (hk v φ h)
    · exact hkeep (by rw [hbefore]; exact .not hj hop h) (hmem hbefore)
  | @and b' a c j u v φ ψ hj hop hu hv _ _ =>
    rintro rfl hops
    rcases append_cons_eq_append_singleton hops with ⟨rfl, rfl⟩ | ⟨c', hbefore⟩
    · rw [hself]
      exact hx.and u v _ _ hop (hk u φ hu) (hk v ψ hv)
    · exact hkeep (by rw [hbefore]; exact .and hj hop hu hv) (hmem hbefore)
  | @any b' a c j v φ hj hop h _ =>
    rintro rfl hops
    rcases append_cons_eq_append_singleton hops with ⟨rfl, rfl⟩ | ⟨c', hbefore⟩
    · rw [hself]
      exact hx.any v _ hop (hk v φ h)
    · exact hkeep (by rw [hbefore]; exact .any hj hop h) (hmem hbefore)
  | congr _ hx _ _ e ihc ih =>
    rintro rfl hops
    rw [ih rfl hops, e n hn (eq_of_value_bool? hx (ihc rfl hops))]

/-- A new operation touches no old value, and none that a loop is left with. -/
theorem Overlaid.gate (hA : Annotates f anyFn γ t) (hf : f.WellFormed) {before : List InstId}
    {i : InstId} {xs : Lanes} (hi : IsAdded f anyFn γ b before i) (hm : Overlaid f t γ b m m')
    (hx : xs.length = 1) : Overlaid f t γ b m (m'.setValue i xs) where
  agrees := hm.agrees.setValue_right (fun j hj (e : j = i) => Nat.not_lt_of_le hi.new (e ▸ hj)) xs
  path := hm.path
  full := hm.full
  full' := hm.full'.setValue i hx
  tracked τ hτ hout := by
    obtain ⟨hne, hne'⟩ := hA.block_ne_of_tracked hf hτ hout
    rw [Machine.value_setValue_of_ne xs fun e => hne' (by rw [Value.inst.inj e, hi.block]),
      Machine.value_setValue_of_ne xs fun e => hne (by rw [Value.inst.inj e, hi.block]),
      hm.tracked τ hτ hout]

/-- An operation that is added to a block asks whether a lane is on. -/
def Overlay.Asks (γ : Overlay) (anyFn : FuncId) : Prop :=
  ∃ b, ∃ i ∈ γ.ops b, ∃ v, (γ.code i).op = .apply (.call anyFn) [v]

/-- Where a choice stands in its block, what it needs is told, and the value is computed before. -/
theorem Annotates.choice_of_ops (hA : Annotates f anyFn γ t) {τ : Tracked} (hτ : τ ∈ γ.tracked)
    (hb : τ.shape.exiting = b) {before after : List InstId}
    (e : γ.ops b = before ++ τ.choice :: after) : ∃ leaves held φ,
      (γ.code τ.choice).op = .apply .select [leaves, .inst τ.value, held] ∧
      Tells f anyFn γ b before leaves φ ∧ φ τ.shape.exit = true ∧ τ.value ∉ τ.choice :: after := by
  obtain ⟨before', after', leaves, held, φ, e', hop, htells, hφ, hvalue⟩ := (hA.tracked τ hτ).choice
  rw [hb] at e' htells
  have hnd := (hA.nodup b).2
  rw [e'] at hnd
  obtain ⟨-, hnd', hdisj⟩ := List.nodup_append.mp hnd
  obtain ⟨rfl, -, rfl⟩ := (List.append_cons_inj_of_notMem
    (fun h => hdisj _ h _ List.mem_cons_self rfl) (List.nodup_cons.mp hnd').1).mp (e'.symm.trans e)
  exact ⟨leaves, held, φ, hop, htells, hφ, hvalue⟩

/-- The operations added to a block run, and the choices of a loop that is left at its end take the
values that they track. -/
theorem exists_ops (hA : Annotates f anyFn γ t) (hf : f.WellFormed) (hs : s.Alike s')
    (hw : s.width = 1) (hany : γ.Asks anyFn → s.marker? anyFn = some .any) (hr : f.Reachable b)
    (hn : n ∈ (f.term b).targets) {before after : List InstId} (e : γ.ops b = before ++ after)
    (hm : Overlaid f t γ b m m') (hk : Known f anyFn γ b before n m') :
    ∃ m1', after.forM (instr s' t) m' = (.ok (), m1') ∧ Overlaid f t γ b m m1' ∧
      Known f anyFn γ b (γ.ops b) n m1' ∧
      ∀ τ ∈ γ.tracked, τ.shape.exiting = b → τ.shape.exit = n → τ.choice ∈ after →
        m1'.value 1 (.inst τ.choice) = m1'.value 1 (.inst τ.value) := by
  induction after generalizing before m' with
  | nil =>
    rw [List.append_nil] at e
    exact ⟨m', rfl, hm, e ▸ hk, fun τ _ _ _ h => by cases h⟩
  | cons i after ih =>
    have hi := hA.ops b before i after e
    have hnd := (hA.nodup b).2
    rw [e] at hnd
    obtain ⟨-, hnd', hdisj⟩ := List.nodup_append.mp hnd
    obtain ⟨hafter, -⟩ := List.nodup_cons.mp hnd'
    have hbefore : i ∉ before := fun h => hdisj i h i List.mem_cons_self rfl
    have hmem : i ∈ γ.ops b := by
      rw [e]
      exact List.mem_append_right _ List.mem_cons_self
    obtain ⟨xs, h1, hx, hgate⟩ :=
      exists_gate hA hs hw (fun hask => hany ⟨b, i, hmem, hask⟩) hi hm hk
    have hm1 := hm.gate hA hf hi hx
    have hk1 := hk.step hA hf hi hbefore hm1 hgate hr hn
    have e1 : γ.ops b = (before ++ [i]) ++ after := by rw [e, List.append_assoc]; rfl
    obtain ⟨m1', h2, hm2, hk2, htracked⟩ := ih e1 hm1 hk1
    refine ⟨m1', (bind_run_eq h1).trans h2, hm2, hk2, fun τ hτ hb hexit hmem => ?_⟩
    rcases List.mem_cons.mp hmem with hchoice | hmem
    swap
    · exact htracked τ hτ hb hexit hmem
    -- this operation is the choice: nothing that comes later touches it or the value
    subst hchoice
    obtain ⟨leaves, held, φ, hop, htells, hφ, hvalue⟩ := hA.choice_of_ops hτ hb e
    have hkeep : ∀ v, (∀ j ∈ after, v ≠ .inst j) →
        m1'.value 1 v = (m'.setValue τ.choice xs).value 1 v := fun v hv =>
      value_instrs_of_ne h2 hv 1
    have hne : τ.value ≠ τ.choice := fun h => hvalue (h ▸ List.mem_cons_self)
    rw [hkeep _ fun j hj h => hafter (by rwa [Value.inst.inj h]),
      hkeep _ fun j hj h => hvalue (List.mem_cons_of_mem _ (by rwa [Value.inst.inj h])),
      Machine.value_setValue_of_ne xs fun h => hne (Value.inst.inj h),
      Machine.value_setValue_self xs (by rw [hm.agrees.size', hA.size]; exact hi.lt)]
    obtain ⟨x, hx1⟩ := List.length_eq_one_iff.mp (hm.full'.value (.inst τ.value))
    rw [hx1]
    refine hgate.select _ _ _ x hop ?_ hx1
    rw [hk _ _ htells, ← hexit, hφ]

end

/-! ## Blocks -/

section

open Run

variable {f t : Func} {anyFn : FuncId} {γ : Overlay} {pred : Option BlockId} {b n : BlockId}
  {m m' m1 : Machine} {s s' : Setup}

/-- Only branches have operations added before them. -/
theorem Annotates.ops_eq_nil (hA : Annotates f anyFn γ t)
    (h : ∀ c onTrue onFalse, f.term b ≠ .brIf c onTrue onFalse) : γ.ops b = [] := by
  refine List.eq_nil_iff_forall_not_mem.mpr fun i hi => ?_
  obtain ⟨_, hadd⟩ := hA.mem_ops hi
  obtain ⟨c, onTrue, onFalse, ht⟩ := hadd.branch
  exact h c onTrue onFalse ht

/-- The function with the overlay goes where the function goes. -/
theorem wayOut_eq_of_known (hA : Annotates f anyFn γ t) (hn : n ∈ (f.term b).targets)
    (hk : Known f anyFn γ b (γ.ops b) n m') : wayOut 1 (t.term b) b m' = .ok (.inl n) := by
  have hsees := hA.term b
  generalize f.term b = u at hsees hn
  generalize t.term b = u' at hsees
  cases hsees with
  | unreachable => cases hn
  | ret h => cases hn
  | br target =>
    cases List.mem_singleton.mp hn
    rfl
  | @brIf c c' onTrue onFalse onTrue' onFalse' ht h =>
    unfold wayOut
    dsimp only
    rw [hk c' _ h]
    by_cases hon : n = onTrue'
    · subst hon
      rw [beq_self_eq_true]
      rfl
    · rw [beq_eq_false_iff_ne.mpr hon]
      have hoff := ((ht n).mp (by simpa [Terminator.targets] using hn)).resolve_left hon
      subst hoff
      rfl

/-- What a branch of the function that goes to `n` decides on. -/
theorem value_cond_of_wayOut (hfull : m.Full 1) {c : Value} {onTrue onFalse : BlockId}
    (hne : onTrue ≠ onFalse) (h : wayOut 1 (.brIf c onTrue onFalse) b m = .ok (.inl n)) :
    m.value 1 c = [.bool (n == onTrue)] := by
  unfold wayOut at h
  dsimp only at h
  split at h
  · cases h
  · cases h
  · rename_i taken ha
    rw [eq_of_agree (hfull.value c) ha]
    cases taken with
    | true =>
      cases h
      rw [if_pos rfl, beq_self_eq_true]
    | false =>
      cases h
      rw [if_neg Bool.false_ne_true, beq_eq_false_iff_ne.mpr hne.symm]

/-- What is returned is the same. -/
theorem Overlaid.wayOut_ret (hA : Annotates f anyFn γ t) (hf : f.WellFormed)
    (hm : Overlaid f t γ b m m') {v : Option Value} (hterm : f.term b = .ret v) :
    wayOut 1 (t.term b) b m' = .ok (.inr (v.map (m.value 1))) := by
  have hsees := hA.term b
  rw [hterm] at hsees
  generalize t.term b = u at hsees
  cases hsees with
  | @ret _ w h =>
    show Except.ok (Sum.inr (w.map (m'.value 1))) = _
    cases h with
    | none => rfl
    | @some v w h =>
      have hdef : f.Defines v := hf.uses b v (by rw [hterm]; exact List.mem_singleton_self _)
      show Except.ok (Sum.inr (some (m'.value 1 w))) = _
      rw [hm.value_sees_old h hdef]
      rfl

/-- Control comes into the next block with everything told. If a loop is left on the way, its choices
have just been made. -/
theorem Overlaid.arrived (hA : Annotates f anyFn γ t) (hf : f.WellFormed) (hr : f.Reachable b)
    (hn : n ∈ (f.term b).targets) (hm : Overlaid f t γ b m m')
    (hk : Known f anyFn γ b (γ.ops b) n m')
    (htracked : ∀ τ ∈ γ.tracked, τ.shape.exiting = b → τ.shape.exit = n → τ.choice ∈ γ.ops b →
      m'.value 1 (.inst τ.choice) = m'.value 1 (.inst τ.value)) :
    Arrived f t anyFn γ (some b) n m m' where
  overlaid := { hm with
    tracked := fun τ hτ hout => by
      by_cases hb : b ∈ τ.loop.blocks
      · have hk := hA.tracked τ hτ
        obtain ⟨hexiting, hexit⟩ :=
          hk.singleExit.eq_of_leaving hf.toClosed hk.mem hr hb hout hn
        obtain ⟨before, after, -, -, -, e, -⟩ := hk.choice
        refine htracked τ hτ hexiting.symm hexit.symm ?_
        rw [hexiting, e]
        simp
      · exact hm.tracked τ hτ hb }
  reachable := hr.step hn
  entry := nofun
  edge := by
    rintro p ⟨⟩
    exact ⟨hr, hn⟩
  tells := by
    rintro p ⟨⟩
    exact hk

/-- After a block everything is known that is told of the next one; if control leaves the function,
of any block. -/
def KnownAfter (f : Func) (anyFn : FuncId) (γ : Overlay) (b : BlockId) (r : BlockId ⊕ Option Lanes)
    (m' : Machine) : Prop :=
  ∀ n, (∀ c, r = .inl c → c = n) → Known f anyFn γ b (γ.ops b) n m'

/-- A block of the function with the overlay does what the block does without it, and everything is
told when control comes into the next one. -/
theorem Arrived.exists_block (hA : Annotates f anyFn γ t) (hf : f.WellFormed)
    (hnd : ∀ b, (f.term b).targets.Nodup)
    (hc : ∀ b, ∀ i ∈ γ.phis b, γ.Complete f anyFn b i) (hs : s.Alike s') (hw : s.width = 1)
    (hany : γ.Asks anyFn → s.marker? anyFn = some .any) (hm : Arrived f t anyFn γ pred b m m')
    {r : BlockId ⊕ Option Lanes} (e : block s f pred b m = (.ok r, m1)) :
    ∃ m1', block s' t pred b m' = (.ok r, m1') ∧ Overlaid f t γ b m1 m1' ∧
      KnownAfter f anyFn γ b r m1' ∧
      ∀ n, r = .inl n → Arrived f t anyFn γ (some b) n m1 m1' := by
  obtain ⟨m2, h1, h2, hway⟩ := block_eq_ok_iff.mp e
  obtain ⟨m2', h1', hm2, hphi, hframe⟩ := hm.exists_phis hA hf (hc b) hs hw h1
  obtain ⟨m3', h2', hm3⟩ := Overlaid.exists_instrs hA hf hs hw hm.reachable (fun i hi => hi) hm2 h2
  have hblock : ∀ {j}, (γ.code j).block ≠ b →
      j ∉ t.phis b ∧ j ∉ f.nonPhis b := by
    intro j hj
    refine ⟨fun hmem => hj ?_, fun hmem => hj ?_⟩
    · rw [(hA.phis_eq hf b).1] at hmem
      rcases List.mem_append.mp hmem with h | h
      · exact (hA.block_of_mem_body hf.toCoherent (Func.mem_body_of_mem_phis h)).2
      · exact (hA.phis b j h).2.2.2.1
    · exact (hA.block_of_mem_body hf.toCoherent (Func.mem_body_of_mem_nonPhis hmem)).2
  have hkept : ∀ v, (∀ i, v = .inst i → i < γ.size ∧ (γ.code i).block ≠ b) →
      m3'.value 1 v = m'.value 1 v := by
    intro v hv
    rw [value_instrs_of_ne h2' (fun i hi e => (hblock (hv i e).2).2 hi) 1,
      hframe v fun i hi e => (hblock (hv i e).2).1 hi]
  have hmask : ∀ i, (b, i) ∈ γ.maskPhis → m3'.value 1 (.inst i) = [.bool true] := by
    intro i hi
    rw [value_instrs_of_ne h2' (fun j hj e => ?_) 1, hphi i hi]
    have hnew := (hA.phis b i (hA.maskPhis _ hi)).1
    cases e
    exact Nat.not_lt_of_le hnew (hf.body_lt b i (Func.mem_body_of_mem_nonPhis hj))
  rw [hw] at hway
  cases r with
  | inr ret =>
    obtain ⟨v, hterm, rfl⟩ := ret_of_wayOut hway
    have hops : γ.ops b = [] := hA.ops_eq_nil fun c x y => by rw [hterm]; exact nofun
    refine ⟨m3', block_eq_ok_iff.mpr ⟨m2', h1', ?_, ?_⟩, hm3, fun n _ => ?_, nofun⟩
    · rw [(hA.phis_eq hf b).2, hops, List.append_nil]
      exact h2'
    · rw [hs.width, hw]
      exact hm3.wayOut_ret hA hf hterm
    · rw [hops]
      refine hm.known hm3 hmask hkept (fun c x y h => ?_) fun h => absurd ?_ h
      · rw [hterm] at h
        cases h
      · rw [hterm]
        rfl
  | inl n =>
    have hn := target_of_wayOut hway
    have hcond : ∀ c onTrue onFalse, f.term b = .brIf c onTrue onFalse →
        m3'.value 1 c = [.bool (n == onTrue)] := by
      intro c onTrue onFalse hterm
      have hne : onTrue ≠ onFalse := by
        have h := hnd b
        rw [hterm] at h
        simpa [Terminator.targets] using h
      have hdef : f.Defines c := hf.uses b c (by rw [hterm]; exact List.mem_singleton_self _)
      rw [hterm] at hway
      rw [hm3.value_old hdef, value_cond_of_wayOut hm3.full hne hway]
    have hk := hm.known hm3 hmask hkept hcond fun _ => hn
    obtain ⟨m4', h3', hm4, hk4, htracked⟩ :=
      exists_ops hA hf hs hw hany hm.reachable hn (List.nil_append _).symm hm3 hk
    refine ⟨m4', block_eq_ok_iff.mpr ⟨m2', h1', ?_, ?_⟩, hm4, fun c h => h n rfl ▸ hk4, ?_⟩
    · rw [(hA.phis_eq hf b).2]
      exact forM_append_eq_ok.mpr ⟨m3', h2', h3'⟩
    · rw [hs.width, hw]
      exact wayOut_eq_of_known hA hn hk4
    · rintro n' ⟨⟩
      exact hm4.arrived hA hf hm.reachable hn hk4 htracked

/-! ## Runs -/

/-- A function with a complete overlay does what it does without it. -/
theorem Arrived.exists_blocks (hA : Annotates f anyFn γ t) (hf : f.WellFormed)
    (hnd : ∀ b, (f.term b).targets.Nodup)
    (hc : ∀ b, ∀ i ∈ γ.phis b, γ.Complete f anyFn b i) (hs : s.Alike s') (hw : s.width = 1)
    (hany : γ.Asks anyFn → s.marker? anyFn = some .any) {steps steps' : Nat} (hle : steps ≤ steps')
    (hm : Arrived f t anyFn γ pred b m m') {ret : Option Lanes}
    (e : blocks s f steps pred b m = (.ok ret, m1)) :
    ∃ m1', blocks s' t steps' pred b m' = (.ok ret, m1') ∧ m1'.path = m1.path ∧
      m1'.memory = m1.memory ∧ m1'.callLog = m1.callLog := by
  induction steps generalizing steps' pred b m m' with
  | zero => cases e
  | succ steps ih =>
    obtain ⟨steps', rfl⟩ : ∃ k, steps' = k + 1 := ⟨steps' - 1, by omega⟩
    obtain ⟨r, m2, h1, e⟩ := exists_of_bind_run_eq_ok e
    obtain ⟨m2', h1', hm2, -, hnext⟩ := hm.exists_block hA hf hnd hc hs hw hany h1
    cases r with
    | inr ret' =>
      cases e
      exact ⟨m2', bind_run_eq h1', hm2.path, hm2.agrees.memory, hm2.agrees.callLog⟩
    | inl n =>
      obtain ⟨m1', h2', h⟩ := ih (Nat.le_of_succ_le_succ hle) (hnext n rfl) e
      exact ⟨m1', (bind_run_eq h1').trans h2', h⟩

/-- Control starts where everything is undefined, so that the choices of the loops have the values
that they track. -/
theorem Annotates.arrived (hA : Annotates f anyFn γ t) {params : List Lanes}
    (hp : ∀ xs ∈ params, xs.length = 1) (memory : Array Scalar) :
    Arrived f t anyFn γ none f.entry
      { params, values := Array.replicate f.insts.size (.splat 1 .undefined), memory }
      { params, values := Array.replicate t.insts.size (.splat 1 .undefined), memory } where
  overlaid :=
    { agrees :=
        { params := rfl
          memory := rfl
          callLog := rfl
          size := Array.size_replicate
          size' := Array.size_replicate
          within := fun _ hi => hi
          values := fun i hi => by
            have hlt : i < t.insts.size := hA.isRenaming.lt i hi
            show (Array.replicate _ _)[i]? = (Array.replicate _ _)[i]?
            rw [Array.getElem?_replicate, Array.getElem?_replicate, if_pos hi, if_pos hlt] }
      path := rfl
      full := full_start hp _ _
      full' := full_start hp _ _
      tracked := fun τ hτ _ => by
        have hlt := (hA.tracked τ hτ).lt
        rw [← hA.size] at hlt
        show ((Array.replicate _ _)[τ.choice]?).getD _ = ((Array.replicate _ _)[τ.value]?).getD _
        rw [Array.getElem?_replicate, Array.getElem?_replicate, if_pos hlt.1, if_pos hlt.2] }
  reachable := .refl _
  entry _ := rfl
  edge := nofun
  tells := nofun

/-- A single-lane run of a function with a complete overlay gives what the function gives. -/
theorem Annotates.exists_run_of_asks (hA : Annotates f anyFn γ t) (hf : f.WellFormed)
    (hnd : ∀ b, (f.term b).targets.Nodup)
    (hc : ∀ b, ∀ i ∈ γ.phis b, γ.Complete f anyFn b i) (hs : s.Alike s') (hw : s.width = 1)
    (hlimit : s.limit ≤ s'.limit) (hany : γ.Asks anyFn → s.marker? anyFn = some .any) {args : List Lanes}
    {memory : Array Scalar} {ret : Option Lanes} (e : f.run s args memory = (.ok ret, m1)) :
    ∃ m1', t.run s' args memory = (.ok ret, m1') ∧ m1'.path = m1.path ∧
      m1'.memory = m1.memory ∧ m1'.callLog = m1.callLog := by
  unfold Func.run at e ⊢
  have hargs : arguments s' t args = arguments s f args := by
    unfold arguments
    rw [hs.width, hA.params]
  rw [hargs]
  cases hp : arguments s f args with
  | error err => rw [hp] at e; cases e
  | ok params =>
    rw [hp] at e
    have hlen := length_of_mem_arguments hp
    rw [hw] at hlen
    dsimp only at e ⊢
    rw [hw] at e
    rw [hs.width, hw]
    exact (hA.arrived hlen memory).exists_blocks hA hf hnd hc hs hw hany hlimit e

theorem Annotates.exists_run (hA : Annotates f anyFn γ t) (hf : f.WellFormed)
    (hnd : ∀ b, (f.term b).targets.Nodup)
    (hc : ∀ b, ∀ i ∈ γ.phis b, γ.Complete f anyFn b i) (hs : s.Alike s') (hw : s.width = 1)
    (hlimit : s.limit ≤ s'.limit) (hany : s.marker? anyFn = some .any) {args : List Lanes}
    {memory : Array Scalar} {ret : Option Lanes} (e : f.run s args memory = (.ok ret, m1)) :
    ∃ m1', t.run s' args memory = (.ok ret, m1') ∧ m1'.path = m1.path ∧
      m1'.memory = m1.memory ∧ m1'.callLog = m1.callLog :=
  hA.exists_run_of_asks hf hnd hc hs hw hlimit (fun _ => hany) e

end

end Lockstep
