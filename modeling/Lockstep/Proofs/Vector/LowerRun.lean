import Lockstep.Proofs.Eval.Along
import Lockstep.Proofs.Eval.Lanes
import Lockstep.Proofs.Func.Check
import Lockstep.Proofs.Vector.Lower

/-!
# Marker calls mean their lowering in a single lane

In a single lane a marker gives its first operand, and a ballot the operand as a bit, if the
operands are what a lane can tell (`Marker.SeesLane`). The run of a function with its markers is
followed by a run of the lowered function without them: wherever control is, the values that are
available have been computed by what stands in their place (`Machine.Lowers`). An instruction and
the code in its place keep this (`Run.exists_code_kept`, `Run.exists_code_marker`), so do the phis
of a block and its way out, and by induction on the blocks executed both runs end alike
(`Markers.exists_run_lower`).
-/

namespace Lockstep

open Run

/-- The same run in which no function is a marker. -/
def Setup.withoutMarkers (s : Setup) : Setup := { s with marker? := fun _ => none }

/-! ## Markers in a single lane -/

/-- Whether the operands of a marker are what one lane can tell: a truth value, or its own number as
the number of a lane. -/
def Marker.SeesLane (k : Marker) (args : List Lanes) : Prop :=
  match k with
  | any | all | ballot => ∃ b, Lanes.lane (args[0]?.getD []) 0 = .bool b
  | extract => Lanes.lane (args[1]?.getD []) 0 = .int 0
  | align => True

instance (x : Scalar) : Decidable (∃ b, x = .bool b) :=
  match x with
  | .bool b => .isTrue ⟨b, rfl⟩
  | .undefined | .int _ | .float _ => .isFalse nofun

instance (k : Marker) (args : List Lanes) : Decidable (k.SeesLane args) := by
  cases k <;> unfold Marker.SeesLane <;> infer_instance

namespace Marker

variable {k : Marker} {args : List Lanes} {x : Scalar}

/-- A marker other than a ballot gives its first operand. -/
theorem eval_one (hx : args[0]? = some [x]) (hk : k ≠ .ballot) (h : k.SeesLane args) :
    k.eval 1 args = [x] := by
  unfold SeesLane at h
  unfold eval
  rw [hx] at h ⊢
  cases k with
  | any | all =>
    obtain ⟨b, hb⟩ := h
    obtain rfl : x = .bool b := hb
    cases b <;> rfl
  | extract =>
    dsimp only at h ⊢
    rw [h]
    rfl
  | ballot => exact absurd rfl hk
  | align => rfl

/-- A ballot gives its first operand as a bit. -/
theorem eval_ballot_one (hx : args[0]? = some [x]) (h : ballot.SeesLane args) (source : Ty) :
    ∃ y, CastOp.zext.eval x source (.int 32) = .ok y ∧ ballot.eval 1 args = [y] := by
  unfold SeesLane at h
  unfold eval
  rw [hx] at h ⊢
  obtain ⟨b, hb⟩ := h
  obtain rfl : x = .bool b := hb
  cases b
  · exact ⟨.int 0, rfl, rfl⟩
  · exact ⟨.int 1, rfl, rfl⟩

end Marker

/-- In a run all marker calls that are executed see a single lane. -/
def Run.MarkersSeeLane (s : Setup) (f : Func) (start : Machine) : Prop :=
  ∀ i m k, Executes s f start i m → (f.inst i).callee?.bind s.marker? = some k →
    k.SeesLane ((f.inst i).inputs.map (m.value s.width))

/-- Whether a marker call sees a single lane. -/
def Run.seesLane (s : Setup) (f : Func) (i : InstId) (m : Machine) : Bool :=
  match (f.inst i).callee?.bind s.marker? with
  | some k => decide (k.SeesLane ((f.inst i).inputs.map (m.value s.width)))
  | none => true

theorem Run.markersSeeLane_of_holds {s : Setup} {f : Func} {start : Machine} (steps : Nat)
    (h : holdsOfBlocks (seesLane s f) s f steps none f.entry start = true) :
    MarkersSeeLane s f start := by
  intro i m k hx hk
  have hsees := hx.holds h
  unfold seesLane at hsees
  rw [hk] at hsees
  exact of_decide_eq_true hsees

/-! ## Machines -/

namespace Machine

/-- At some place of a block the values that are available have been computed by what stands in
their place. -/
structure Lowers (f g : Func) (r : Replacement) (b : BlockId) (before : List InstId)
    (m m' : Machine) : Prop where
  size : m.values.size = f.insts.size
  size' : m'.values.size = g.insts.size
  full : m.Full 1
  memory : m'.memory = m.memory
  callLog : m'.callLog = m.callLog
  path : m'.path = m.path
  value : ∀ v, f.AvailableAt b before v → m'.value 1 (r.value v) = m.value 1 v

/-- Control comes to a block, and what its phis take has been computed as well. -/
structure Enters (f g : Func) (r : Replacement) (pred : Option BlockId) (b : BlockId)
    (m m' : Machine) : Prop extends Lowers f g r b [] m m' where
  incoming : ∀ phi ∈ f.phis b, ∀ v, pred.bind (f.incomingValue? phi) = some v →
    m'.value 1 (r.value v) = m.value 1 v

variable {f g : Func} {r : Replacement} {b : BlockId} {before : List InstId} {m m' : Machine}

theorem Lowers.visit (h : m.Lowers f g r b before m') (c : BlockId) :
    ({ m with path := c :: m.path } : Machine).Lowers f g r b before
      { m' with path := c :: m'.path } where
  size := h.size
  size' := h.size'
  full := h.full.ofEq rfl rfl
  memory := h.memory
  callLog := h.callLog
  path := congrArg (c :: ·) h.path
  value v hv := by
    rw [value_visit, value_visit]
    exact h.value v hv

theorem Enters.visit {pred : Option BlockId} (h : m.Enters f g r pred b m') (c : BlockId) :
    ({ m with path := c :: m.path } : Machine).Enters f g r pred b
      { m' with path := c :: m'.path } where
  toLowers := h.toLowers.visit c
  incoming phi hphi v hv := by
    rw [value_visit, value_visit]
    exact h.incoming phi hphi v hv

/-- From the end of a block control comes to the next. -/
theorem Lowers.enters (hf : f.WellFormed) {p : BlockId} (h : m.Lowers f g r p (f.body p) m')
    (hr : f.Reachable p) (hb : b ∈ (f.term p).targets) : m.Enters f g r (some p) b m' where
  toLowers := { h with value := fun v hv => h.value v (hv.pred hb) }
  incoming _ hphi v hv := h.value v (hf.ssa.available_incoming hr hb hphi hv)

end Machine

namespace Run

variable {s : Setup} {mk : Markers} {f g : Func} {r : Replacement} {start m m' m1 m1' : Machine}
  {pred : Option BlockId} {b : BlockId} {i : InstId} {before after : List InstId}

/-! ## Instructions -/

/-- A marker call gives what the marker says, and does nothing else. -/
theorem instr_marker {k : Marker} (hk : (f.inst i).callee?.bind s.marker? = some k) (m : Machine) :
    instr s f i m =
      (.ok (), m.setValue i (k.eval s.width ((f.inst i).inputs.map (m.value s.width)))) := by
  obtain ⟨callee, hcallee, hk⟩ := Option.bind_eq_some_iff.mp hk
  rw [instr_apply (Instr.op_of_callee? hcallee)]
  unfold operation
  dsimp only
  rw [hk]
  rfl

/-- An operation that is no marker call does the same without markers. -/
theorem instr_withoutMarkers {code : Opcode} {args : List Value}
    (hop : (f.inst i).op = .apply code args) (h : (f.inst i).callee?.bind s.marker? = none)
    (m : Machine) : instr s.withoutMarkers f i m = instr s f i m := by
  rw [instr_apply hop, instr_apply hop]
  cases code with
  | call callee =>
    have hcallee : s.marker? callee = none := by
      unfold Instr.callee? at h
      rwa [hop] at h
    unfold operation
    dsimp only [Setup.withoutMarkers]
    rw [hcallee]
    rfl
  | _ => rfl

/-- The conversion in the place of a ballot computes a bit. -/
theorem instr_ballotBit (hw : s.width = 1) {v : Value} (hinst : f.inst i = ballotBit v b)
    {x y : Scalar} (hx : m.value 1 v = [x])
    (hy : CastOp.zext.eval x (f.typeOf v) (.int 32) = .ok y) :
    instr s f i m = (.ok (), m.setValue i [y]) := by
  have hop : (f.inst i).op = .apply (.cast .zext) [v] := by rw [hinst]; rfl
  have hinput : (f.inst i).input 0 = v := by rw [hinst]; rfl
  have hty : (f.inst i).ty = .int 32 := by rw [hinst]; rfl
  rw [instr_apply hop, hinput, hty]
  refine (bind_run_eq (a := [y]) ?_).trans rfl
  unfold operation
  dsimp only
  rw [hw, List.map_singleton, hx]
  exact lanewise_one hy

theorem forM_singleton_eq_ok (e : instr s f i m = (.ok (), m1)) :
    [i].forM (instr s f) m = (.ok (), m1) :=
  (bind_run_eq e).trans rfl

/-- After an instruction and the code in its place, the value of the instruction is available as
well. -/
theorem lowers_after (hf : f.WellFormed) (hl : Lowered mk f [] g r) (hw : s.width = 1)
    (hr : f.Reachable b) (hbody : f.body b = before ++ i :: after) (hm : m.Lowers f g r b before m')
    (h1 : instr s f i m = (.ok (), m1))
    (h2 : (r.code i).forM (instr s.withoutMarkers g) m' = (.ok (), m1'))
    (hmem : m1'.memory = m1.memory) (hlog : m1'.callLog = m1.callLog)
    (hval : m1'.value 1 (r.value (.inst i)) = m1.value 1 (.inst i)) :
    m1.Lowers f g r b (before ++ [i]) m1' where
  size := (size_instr h1).trans hm.size
  size' := (size_instrs h2).trans hm.size'
  full := by
    have hfull := hm.full
    rw [← hw] at hfull ⊢
    exact full_instr hfull h1
  memory := hmem
  callLog := hlog
  path := by rw [path_instrs h2, path_instr h1, hm.path]
  value v hv := by
    have hi : f.Attached i := ⟨b, hbody ▸ List.mem_append_right _ List.mem_cons_self⟩
    by_cases hvi : v = .inst i
    · rw [hvi]
      exact hval
    -- what was available stands in the place of other instructions
    have hold : f.AvailableAt b before v := by
      cases v with
      | inst j =>
        refine (Func.availableAt_append.mp hv).resolve_left fun hj => hvi ?_
        exact congrArg Value.inst (List.mem_singleton.mp hj)
      | _ => trivial
    have hne : ∀ j ∈ r.code i, r.value v ≠ .inst j := fun j =>
      hl.value_ne_of_mem_code hr hbody hold hi (hf.ssa.not_availableAt hbody)
    rw [value_instrs_of_ne h2 hne, value_instr_of_ne h1 hvi]
    exact hm.value v hold

section

variable (hf : f.WellFormed) (hl : Lowered mk f [] g r) (hmk : s.marker? = mk.kindOf?)
  (hw : s.width = 1) (hr : f.Reachable b) (hbody : f.body b = before ++ i :: after)
  (hm : m.Lowers f g r b before m')

include hf hl hmk hw hr hbody hm

/-- An instruction that is still there computes the same from what stands for its operands. -/
theorem exists_code_kept (hphi : f.isPhi i = false) (hcall : mk.calledBy? f (.inst i) = none)
    (hcode : r.code i = [i]) (hvalue : r.value (.inst i) = .inst i)
    (hinst : g.inst i = (f.inst i).map id r.value) (e : instr s f i m = (.ok (), m1)) :
    ∃ m1', (r.code i).forM (instr s.withoutMarkers g) m' = (.ok (), m1') ∧
      m1.Lowers f g r b (before ++ [i]) m1' := by
  have hlt : i < f.insts.size :=
    hf.body_lt b i (hbody ▸ List.mem_append_right _ List.mem_cons_self)
  have huse : ∀ v ∈ (f.inst i).uses, m'.value s.width (r.value v) = m.value s.width v := by
    intro v hv
    rw [hw]
    exact hm.value v (hf.inst b hr before i after hbody hphi v hv)
  obtain ⟨code, args, hop⟩ := op_of_instr_eq_ok e
  have hop' : (g.inst i).op = .apply code (args.map r.value) := by
    rw [hinst]
    show (f.inst i).op.map id r.value = _
    rw [hop]
    rfl
  obtain ⟨xs, n, n', hb, rfl, e'⟩ := exists_instr_of_values (⟨rfl, rfl, rfl⟩ : s.Alike s)
    (.inl hw) hop hop' (by rw [hinst]; rfl) (by rw [hinst]; rfl) hm.memory hm.callLog huse
    (fun v hv => hl.typeOf v (hf.inputs i v hv)) e
  have hnone : (g.inst i).callee?.bind s.marker? = none := by
    rw [hinst, Instr.callee?_map, hmk]
    exact hcall
  have hrun : (r.code i).forM (instr s.withoutMarkers g) m' = (.ok (), n'.setValue i xs) := by
    rw [hcode]
    exact forM_singleton_eq_ok ((instr_withoutMarkers hop' hnone m').trans e')
  refine ⟨_, hrun, lowers_after hf hl hw hr hbody hm e hrun hb.memory hb.callLog ?_⟩
  rw [hvalue, Machine.value_setValue_self, Machine.value_setValue_self]
  · rwa [hb.values, hm.size]
  · rw [hb.values', hm.size']
    exact Nat.lt_of_lt_of_le hlt hl.size

/-- A marker call has been computed already, or is computed as a bit. -/
theorem exists_code_marker (ht : mk.CallsTyped f) {k : Marker}
    (hcall : mk.calledBy? f (.inst i) = some k)
    (hsee : k.SeesLane ((f.inst i).inputs.map (m.value s.width)))
    (e : instr s f i m = (.ok (), m1)) :
    ∃ m1', (r.code i).forM (instr s.withoutMarkers g) m' = (.ok (), m1') ∧
      m1.Lowers f g r b (before ++ [i]) m1' := by
  have hi : i ∈ f.body b := hbody ▸ List.mem_append_right _ List.mem_cons_self
  have hlt : i < m.values.size := hm.size ▸ hf.body_lt b i hi
  have hmem : (i, k) ∈ mk.calls f := Markers.mem_calls.mpr ⟨hf.mem_attached.mpr ⟨b, hi⟩, hcall⟩
  obtain ⟨v, hv, -⟩ := ht _ hmem
  obtain ⟨x, hx⟩ := List.length_eq_one_iff.mp (hm.full.value v)
  have hinput : (f.inst i).input 0 = v := Instr.input_eq_of_getElem? hv
  have hold : m'.value 1 (r.value v) = [x] := by
    rw [hm.value v (hf.inst b hr before i after hbody (isPhi_of_calledBy? hcall) v
      (List.mem_append_left _ (List.mem_of_getElem? hv))), hx]
  have hargs : ((f.inst i).inputs.map (m.value 1))[0]? = some [x] := by
    rw [List.getElem?_map, hv, Option.map_some, hx]
  have e1 := instr_marker (s := s) (k := k) (by rw [hmk]; exact hcall) m
  rw [hw] at hsee e1
  cases e.symm.trans e1
  cases hl.place i ⟨b, hi⟩ with
  | kept hnone =>
    rw [hcall] at hnone
    cases hnone.resolve_right List.not_mem_nil
  | dropped k' hcall' hk hdone hcode hvalue =>
    cases hcall.symm.trans hcall'
    have hrun : (r.code i).forM (instr s.withoutMarkers g) m' = (.ok (), m') := by
      rw [hcode]
      rfl
    refine ⟨m', hrun, lowers_after hf hl hw hr hbody hm e hrun hm.memory hm.callLog ?_⟩
    rw [hvalue, hinput, hold, Machine.value_setValue_self _ hlt, Marker.eval_one hargs hk hsee]
  | extended z hcall' hdone hnew hltz hcode hvalue hinst =>
    cases hcall.symm.trans hcall'
    obtain ⟨y, hy, heval⟩ := Marker.eval_ballot_one hargs hsee (g.typeOf (r.value v))
    have hrun : (r.code i).forM (instr s.withoutMarkers g) m' = (.ok (), m'.setValue z [y]) := by
      rw [hcode]
      exact forM_singleton_eq_ok
        (instr_ballotBit (s := s.withoutMarkers) hw (hinput ▸ hinst) hold hy)
    refine ⟨_, hrun, lowers_after hf hl hw hr hbody hm e hrun hm.memory hm.callLog ?_⟩
    rw [hvalue, Machine.value_setValue_self _ (hm.size' ▸ hltz), Machine.value_setValue_self _ hlt,
      heval]

end

/-! ## Blocks -/

section

variable (hf : f.WellFormed) (hl : Lowered mk f [] g r) (ht : mk.CallsTyped f)
  (hmk : s.marker? = mk.kindOf?) (hw : s.width = 1)

include hf hl

section

include ht hmk hw

/-- Operations in a row, after some others of a block that control comes to. -/
theorem exists_codes (hsee : MarkersSeeLane s f start) {m0 mp : Machine}
    (ha : Arrives s f start pred b m0)
    (hp : phis s f pred b { m0 with path := b :: m0.path } = (.ok (), mp))
    {l : List InstId} (hops : f.nonPhis b = before ++ l)
    (hbefore : before.forM (instr s f) mp = (.ok (), m))
    (hm : m.Lowers f g r b (f.phis b ++ before) m') (e : l.forM (instr s f) m = (.ok (), m1)) :
    ∃ m1', (l.flatMap r.code).forM (instr s.withoutMarkers g) m' = (.ok (), m1') ∧
      m1.Lowers f g r b (f.body b) m1' := by
  have hbody : f.body b = (f.phis b ++ before) ++ l := by
    rw [← Func.phis_append_nonPhis, hops, List.append_assoc]
  induction l generalizing before m m' with
  | nil =>
    cases e
    rw [List.append_nil] at hbody
    exact ⟨m', rfl, hbody ▸ hm⟩
  | cons i l ih =>
    obtain ⟨_, m2, e1, e⟩ := exists_of_bind_run_eq_ok e
    have hi : i ∈ f.nonPhis b := hops ▸ List.mem_append_right _ List.mem_cons_self
    have hphi := hf.phis_first b i hi
    obtain ⟨m2', e1', hm2⟩ : ∃ m2', (r.code i).forM (instr s.withoutMarkers g) m' = (.ok (), m2') ∧
        m2.Lowers f g r b (f.phis b ++ before ++ [i]) m2' := by
      cases hcall : mk.calledBy? f (.inst i) with
      | none =>
        obtain ⟨hcode, hvalue, hinst⟩ := hl.of_not_call ⟨b, Func.mem_body_of_mem_nonPhis hi⟩ hcall
        exact exists_code_kept hf hl hmk hw ha.reachable hbody hm hphi hcall hcode hvalue hinst e1
      | some k =>
        refine exists_code_marker hf hl hmk hw ha.reachable hbody hm ht hcall ?_ e1
        exact hsee i m k ⟨pred, b, m0, mp, before, l, ha, hp, hops, hbefore⟩ (hmk ▸ hcall)
    have hbefore' : (before ++ [i]).forM (instr s f) mp = (.ok (), m2) :=
      forM_append_eq_ok.mpr ⟨m, hbefore, forM_singleton_eq_ok e1⟩
    rw [List.append_assoc] at hm2
    obtain ⟨m1', e', hm1⟩ := ih (by rw [hops, List.append_assoc]; rfl) hbefore' hm2 e
      (by rw [hbody, List.append_assoc, List.append_assoc, List.append_assoc]; rfl)
    exact ⟨m1', forM_append_eq_ok.mpr ⟨m2', e1', e'⟩, hm1⟩

end

omit hf in
/-- A phi takes what stands for what it took. -/
theorem incomingValue?_lowered {phi p : BlockId} (hphi : phi ∈ f.phis b) :
    g.incomingValue? phi p = (f.incomingValue? phi p).map r.value := by
  obtain ⟨-, -, hinst⟩ :=
    hl.of_isPhi ⟨b, Func.mem_body_of_mem_phis hphi⟩ (Func.isPhi_of_mem_phis hphi)
  unfold Func.incomingValue?
  rw [hinst, Func.incoming_map]
  exact Func.lookup_map_values r.value p _

/-- The phis of a block take the same values. -/
theorem incoming_lowered (hw : s.width = 1) (hm : m.Enters f g r pred b m')
    {new : List (InstId × Lanes)} (hnew : List.Forall₂ (Incoming s f pred m) (f.phis b) new) :
    List.Forall₂ (Incoming s.withoutMarkers g pred m') (g.phis b) new := by
  rw [(hl.phis hf b).1]
  refine ((List.forall₂_and_left _ _).mpr ⟨fun _ hphi => hphi, hnew⟩).imp ?_
  rintro phi _ ⟨hphi, v, hv, rfl⟩
  refine ⟨r.value v, ?_, ?_⟩
  · obtain ⟨p, rfl, hp⟩ := Option.bind_eq_some_iff.mp hv
    rw [Option.bind_some, incomingValue?_lowered hl hphi, hp]
    rfl
  · show _ = (phi, m'.value s.width (r.value v))
    rw [hw, hm.incoming phi hphi v hv]

/-- When the phis of a block have taken their values, these are available as well. -/
theorem lowers_setPhis (hr : f.Reachable b) (hm : m.Enters f g r pred b m')
    {new : List (InstId × Lanes)} (hfst : new.map Prod.fst = f.phis b)
    (hlen : ∀ e ∈ new, e.2.length = 1) :
    (m.setPhis new).Lowers f g r b (f.phis b) (m'.setPhis new) where
  size := (Machine.size_setPhis new).trans hm.size
  size' := (Machine.size_setPhis new).trans hm.size'
  full := hm.full.setPhis hlen
  memory := by rw [(Machine.effects_setPhis new).1, (Machine.effects_setPhis new).1, hm.memory]
  callLog := by rw [(Machine.effects_setPhis new).2, (Machine.effects_setPhis new).2, hm.callLog]
  path := by rw [Machine.path_setPhis, Machine.path_setPhis, hm.path]
  value v hv := by
    have hbody : ∀ e ∈ new, e.1 ∈ f.body b := fun e he =>
      Func.mem_body_of_mem_phis (hfst ▸ List.mem_map_of_mem he)
    have hphi : ∀ e ∈ new, r.code e.1 = [e.1] ∧ r.value (.inst e.1) = .inst e.1 := by
      intro e he
      have hphi : e.1 ∈ f.phis b := hfst ▸ List.mem_map_of_mem he
      obtain ⟨hcode, hvalue, -⟩ := hl.of_isPhi ⟨b, hbody e he⟩ (Func.isPhi_of_mem_phis hphi)
      exact ⟨hcode, hvalue⟩
    by_cases hin : ∃ e ∈ new, v = .inst e.1
    · obtain ⟨e, he, rfl⟩ := hin
      have hnodup : (new.map Prod.fst).Nodup :=
        hfst ▸ (hf.nodup b).sublist (List.takeWhile_sublist f.isPhi)
      have hlt : e.1 < f.insts.size := hf.body_lt b e.1 (hbody e he)
      rw [(hphi e he).2, Machine.value_setPhis_of_mem hnodup he,
        Machine.value_setPhis_of_mem hnodup he]
      · exact hm.size ▸ hlt
      · exact hm.size' ▸ Nat.lt_of_lt_of_le hlt hl.size
    -- what was available when control came does not stand for a phi of the block
    · have hold : f.AvailableAt b [] v := by
        cases v with
        | inst j =>
          have hv : f.AvailableAt b ([] ++ f.phis b) (.inst j) := hv
          refine (Func.availableAt_append.mp hv).resolve_left fun hj => hin ?_
          obtain ⟨e, he, rfl⟩ := List.mem_map.mp (hfst.symm ▸ hj)
          exact ⟨e, he, rfl⟩
        | _ => trivial
      have hne : ∀ e ∈ new, r.value v ≠ .inst e.1 := fun e he =>
        hl.value_ne_of_mem_code hr (List.nil_append _).symm hold ⟨b, hbody e he⟩
          (hf.not_availableAt_nil (hbody e he)) ((hphi e he).1 ▸ List.mem_cons_self)
      rw [Machine.value_setPhis_of_ne hne,
        Machine.value_setPhis_of_ne fun e he h => hin ⟨e, he, h⟩]
      exact hm.value v hold

include ht hmk hw

theorem exists_block_lowered (hsee : MarkersSeeLane s f start) (ha : Arrives s f start pred b m)
    (hm : m.Enters f g r pred b m') {res : BlockId ⊕ Option Lanes}
    (e : block s f pred b m = (.ok res, m1)) :
    ∃ m1', block s.withoutMarkers g pred b m' = (.ok res, m1') ∧
      m1.Lowers f g r b (f.body b) m1' := by
  obtain ⟨m2, h1, h2, h3⟩ := block_eq_ok_iff.mp e
  obtain ⟨new, hnew, rfl⟩ := phis_eq_ok_iff.mp h1
  have hlen : ∀ e ∈ new, e.2.length = 1 := by
    intro e he
    obtain ⟨phi, -, v, -, rfl⟩ := exists_mem_of_forall₂ hnew he
    exact hw ▸ (hw.symm ▸ (hm.visit b).full).value v
  have hm2 := lowers_setPhis hf hl ha.reachable (hm.visit b) (map_fst_of_incoming hnew) hlen
  have h1' := phis_eq_ok_iff.mpr ⟨new, incoming_lowered hf hl hw (hm.visit b) hnew, rfl⟩
  obtain ⟨m1', h2', hm1⟩ := exists_codes hf hl ht hmk hw hsee ha h1 (List.nil_append _).symm rfl
    (by rw [List.append_nil]; exact hm2) h2
  refine ⟨m1', block_eq_ok_iff.mpr ⟨_, h1', (hl.phis hf b).2 ▸ h2', ?_⟩, hm1⟩
  have huse : ∀ v ∈ (f.term b).uses, m1'.value s.width (r.value v) = m1.value s.width v := by
    intro v hv
    rw [hw]
    exact hm1.value v (hf.exit b ha.reachable v hv)
  have hway := wayOut_map_of_value huse h3 id b
  rw [← hl.term] at hway
  refine hway.trans ?_
  cases res <;> rfl

theorem exists_blocks_lowered (hsee : MarkersSeeLane s f start) {steps : Nat}
    (ha : Arrives s f start pred b m) (hm : m.Enters f g r pred b m') {ret : Option Lanes}
    (e : blocks s f steps pred b m = (.ok ret, m1)) :
    ∃ m1', blocks s.withoutMarkers g steps pred b m' = (.ok ret, m1') ∧ m1'.path = m1.path ∧
      m1'.memory = m1.memory ∧ m1'.callLog = m1.callLog := by
  induction steps generalizing pred b m m' with
  | zero => cases e
  | succ steps ih =>
    obtain ⟨res, m2, e1, e⟩ := exists_of_bind_run_eq_ok e
    obtain ⟨m2', e1', hm2⟩ := exists_block_lowered hf hl ht hmk hw hsee ha hm e1
    cases res with
    | inr out =>
      cases e
      exact ⟨m2', bind_run_eq e1', hm2.path, hm2.memory, hm2.callLog⟩
    | inl c =>
      obtain ⟨m1', e', hend⟩ := ih (ha.next e1)
        (hm2.enters hf ha.reachable (target_of_block e1)) e
      exact ⟨m1', (bind_run_eq e1').trans e', hend⟩

end

end Run

/-! ## Runs -/

/-- When a run starts, nothing but constants and parameters is available. -/
theorem enters_start {s : Setup} {mk : Markers} {f g : Func} {r : Replacement} {params : List Lanes}
    (hl : Lowered mk f [] g r) (hw : s.width = 1) (hlen : ∀ xs ∈ params, xs.length = 1)
    (memory : Array Scalar) : (startMachine s f params memory).Enters f g r none f.entry
      (startMachine s.withoutMarkers g params memory) where
  size := Array.size_replicate
  size' := Array.size_replicate
  full := by
    unfold startMachine
    rw [hw]
    exact full_start hlen f.insts.size memory
  memory := rfl
  callLog := rfl
  path := rfl
  value v hv := by
    cases v with
    | inst i => exact absurd hv (Func.not_availableAt_entry i)
    | const _ | param _ =>
      rw [hl.fixed _ rfl]
      rfl
  incoming _ _ _ hv := by cases hv

namespace Markers

variable {m : Markers} {f : Func}

/-- A lowering counts the marker calls and leaves none of them. What a single lane computes with the
markers, it computes without them afterwards: the result, the blocks that are passed, the memory and
the calls outside are the same. -/
theorem exists_run_lower (hf : f.WellFormed) (hlayout : f.layout.Nodup) (ht : m.CallsTyped f) :
    (m.lower f).1 = f.attached.countP (fun i => (m.calledBy? f (.inst i)).isSome) ∧
    (∀ i ∈ (m.lower f).2.attached, m.calledBy? (m.lower f).2 (.inst i) = none) ∧
    ∀ (s : Setup) (args : List Lanes) (memory : Array Scalar) (ret : Option Lanes) (n : Machine),
      s.width = 1 → s.marker? = m.kindOf? → f.run s args memory = (.ok ret, n) →
      MarkersSeeLane s f (startMachine s f args memory) →
      ∃ n', (m.lower f).2.run s.withoutMarkers args memory = (.ok ret, n') ∧ n'.trace = n.trace ∧
        n'.memory = n.memory ∧ n'.calls = n.calls := by
  obtain ⟨r, hl⟩ := exists_lowered hf hlayout ht
  refine ⟨length_calls m f, fun _ hi => ?_, fun s args memory ret n hw hmk e hsee => ?_⟩
  · obtain ⟨b, hi⟩ := hl.coherent.mem_attached.mp hi
    exact hl.calledBy?_eq_none hi
  · obtain ⟨params, hp⟩ := Func.exists_arguments e
    obtain rfl := arguments_one hw hp
    have hp' : arguments s.withoutMarkers (m.lower f).2 params = .ok params := by
      rw [← hp]
      unfold arguments
      rw [hl.params]
      rfl
    rw [Func.run_eq hp] at e
    rw [Func.run_eq hp']
    have hlen : ∀ xs ∈ params, xs.length = 1 := hw ▸ length_of_mem_arguments hp
    have hstart := enters_start (s := s) hl hw hlen memory
    obtain ⟨n', e', hpath, hmem, hlog⟩ := exists_blocks_lowered hf hl ht hmk hw hsee .entry hstart e
    exact ⟨n', e', congrArg List.reverse hpath, hmem, congrArg List.reverse hlog⟩

/-- Counts in a loop of one block, and stores the counter where all lanes agree. The phi, the mask
and the branch use marker calls, which use others, and the block after the loop, which takes a lane
of a ballot, stands before it. -/
def countAgreed : Func where
  params := [.bool, .ptr (.int 32)]
  retTy := .int 32
  blocks := #[
    { term := .br 1 },
    { insts := [0, 1, 2, 3, 4, 5, 6, 7, 8], term := .brIf (.inst 8) 1 2 },
    { insts := [9, 10], term := .ret (some (.inst 10)) }]
  insts := #[
    { op := .phi [(0, .ofInt (.int 32) 0), (1, .inst 6)], ty := .int 32, block := 1 },
    { op := .apply (.call 0) [.param 0], ty := .bool, block := 1 },
    { op := .apply (.call 1) [.inst 1], ty := .bool, block := 1 },
    { op := .apply .store [.param 1, .inst 0], ty := .void, mask := some (.inst 2), block := 1 },
    { op := .apply (.call 3) [.inst 2, .ofBool false], ty := .int 32, block := 1 },
    { op := .apply (.binary .add) [.inst 0, .inst 4], ty := .int 32, block := 1 },
    { op := .apply (.call 4) [.inst 5, .ofInt (.int 32) 1], ty := .int 32, block := 1 },
    { op := .apply (.cmp .slt) [.inst 6, .ofInt (.int 32) 2], ty := .bool, block := 1 },
    { op := .apply (.call 1) [.inst 7], ty := .bool, block := 1 },
    { op := .apply (.call 2) [.inst 4, .ofInt (.int 32) 0], ty := .int 32, block := 2 },
    { op := .apply (.binary .add) [.inst 0, .inst 9], ty := .int 32, block := 2 }]
  layout := [0, 2, 1]

/-- The markers of an empty module, numbered as in `Marker.list`. -/
def fiveMarkers : Markers := (declare default).1

/-- A run in a single lane, with these markers. -/
def markedLane : Setup := { width := 1, limit := 10, marker? := fiveMarkers.kindOf? }

/-- The run that stores twice. -/
def countAgreedRun : Except EvalError (Option Lanes) × Machine :=
  countAgreed.run markedLane [[.bool true], [.int 0]] #[.undefined]

theorem callsTyped_countAgreed : fiveMarkers.CallsTyped countAgreed := by
  have hcalls : fiveMarkers.calls countAgreed =
      [(9, .extract), (1, .any), (2, .all), (4, .ballot), (6, .align), (8, .all)] := by
    decide +kernel
  intro e he
  rw [hcalls] at he
  simp only [List.mem_cons, List.not_mem_nil, or_false] at he
  rcases he with rfl | rfl | rfl | rfl | rfl | rfl <;> exact ⟨_, rfl, rfl⟩

/-- The six calls are lowered, and the loop turns twice as before. -/
theorem exists_run_lower_countAgreed : countAgreed.WellFormed ∧ countAgreed.layout.Nodup ∧
    fiveMarkers.CallsTyped countAgreed ∧ (fiveMarkers.lower countAgreed).1 = 6 ∧
    MarkersSeeLane markedLane countAgreed
      (startMachine markedLane countAgreed [[.bool true], [.int 0]] #[.undefined]) ∧
    ∃ n, (fiveMarkers.lower countAgreed).2.run markedLane.withoutMarkers [[.bool true], [.int 0]]
      #[.undefined] = (.ok (some [.int 2]), n) ∧ n.trace = [0, 1, 1, 2] ∧ n.memory = #[.int 1] := by
  have hf : countAgreed.Checks := by decide +kernel
  have hsee : MarkersSeeLane markedLane countAgreed
      (startMachine markedLane countAgreed [[.bool true], [.int 0]] #[.undefined]) :=
    markersSeeLane_of_holds 4 (by decide +kernel)
  have hret : countAgreedRun.1 = .ok (some [.int 2]) := by decide +kernel
  have htrace : countAgreedRun.2.trace = [0, 1, 1, 2] := by decide +kernel
  have hmemory : countAgreedRun.2.memory = #[.int 1] := by decide +kernel
  obtain ⟨hcount, -, hrun⟩ := exists_run_lower hf.wellFormed (by decide) callsTyped_countAgreed
  obtain ⟨n', e', htrace', hmemory', -⟩ :=
    hrun markedLane _ _ _ countAgreedRun.2 rfl rfl (Prod.fst_eq_iff.mp hret) hsee
  refine ⟨hf.wellFormed, by decide, callsTyped_countAgreed, ?_, hsee, n', e', ?_, ?_⟩
  · rw [hcount]
    decide +kernel
  · rw [htrace', htrace]
  · rw [hmemory', hmemory]

end Markers

end Lockstep
