import Lockstep.Proofs.Eval.LaneRun
import Lockstep.Proofs.Eval.Refined
import Lockstep.Proofs.Func.Check

/-!
# Undefined arguments

Single-lane runs of one function are compared, of which the second knows more: arguments that are
undefined in the first may be anything in the second. If all operations are over truth values,
integers and addresses, then the first machine is refined by the second all along
(`Machine.RefinedBy`): an operation has a result in the second run because an undefined operand
never makes one fail, and because the evaluator accepts the operands if all are defined
(`Func.AcceptsDefined`, which well-typed functions have). A branch goes the same way, for the first
run would have stopped at an undefined condition. So undefined arguments never decide a defined
result (`Func.exists_run_of_refinedBy`).
-/

namespace Lockstep

open Run

/-- A single lane and one that refines it. -/
def Lanes.RefinedBy (xs ys : Lanes) : Prop := ∃ x y : Scalar, xs = [x] ∧ ys = [y] ∧ x.RefinedBy y

theorem Lanes.RefinedBy.lane {xs ys : Lanes} (h : RefinedBy xs ys) :
    (xs.lane 0).RefinedBy (ys.lane 0) := by
  obtain ⟨x, y, rfl, rfl, hxy⟩ := h
  exact hxy

/-! ## Machines -/

namespace Machine

/-- Machines of a single lane, of which the first knows less. What it knows are truth values,
integers and addresses. -/
structure RefinedBy (f : Func) (m m' : Machine) : Prop where
  size : m'.values.size = m.values.size
  path : m'.path = m.path
  value : ∀ v, Lanes.RefinedBy (m.value 1 v) (m'.value 1 v)
  plain : ∀ v : Value, v.IsTyped → (f.typeOf v).IsPlain → ((m.value 1 v).lane 0).isFloat = false

variable {f : Func} {m m' : Machine}

theorem RefinedBy.visit (h : m.RefinedBy f m') (b : BlockId) :
    ({ m with path := b :: m.path } : Machine).RefinedBy f { m' with path := b :: m'.path } where
  size := h.size
  path := congrArg (b :: ·) h.path
  value v := by
    rw [value_visit, value_visit]
    exact h.value v
  plain v := by
    rw [value_visit]
    exact h.plain v

theorem value_setValue (m : Machine) (i : InstId) (xs : Lanes) (v : Value) (width : Nat) :
    (m.setValue i xs).value width v =
      if v = .inst i ∧ i < m.values.size then xs else m.value width v := by
  by_cases hv : v = .inst i
  · subst hv
    by_cases hi : i < m.values.size
    · rw [if_pos ⟨rfl, hi⟩, value_setValue_self xs hi]
    · rw [if_neg fun e => hi e.2]
      show ((m.setValue i xs).values[i]?).getD _ = _
      rw [getElem?_setValue, if_neg fun e => hi e.2]
      rfl
  · rw [if_neg fun e => hv e.1, value_setValue_of_ne xs hv]

theorem RefinedBy.setValue (h : m.RefinedBy f m') (i : InstId) {xs ys : Lanes}
    (hxs : Lanes.RefinedBy xs ys) (hfloat : (xs.lane 0).isFloat = false) :
    (m.setValue i xs).RefinedBy f (m'.setValue i ys) where
  size := by rw [size_setValue, size_setValue, h.size]
  path := h.path
  value v := by
    rw [value_setValue, value_setValue, h.size]
    split
    · exact hxs
    · exact h.value v
  plain v hv ht := by
    rw [value_setValue]
    split
    · exact hfloat
    · exact h.plain v hv ht

/-- Refined values of the phis of a block. -/
theorem RefinedBy.setPhis (h : m.RefinedBy f m') {new new' : List (InstId × Lanes)}
    (hnew : List.Forall₂ (fun e e' => e'.1 = e.1 ∧ Lanes.RefinedBy e.2 e'.2 ∧
      (e.2.lane 0).isFloat = false) new new') : (m.setPhis new).RefinedBy f (m'.setPhis new') := by
  induction hnew generalizing m m' with
  | nil => exact h
  | @cons e e' _ _ he _ ih =>
    obtain ⟨i, xs⟩ := e
    obtain ⟨i', xs'⟩ := e'
    obtain ⟨rfl, hxs, hfloat⟩ := he
    exact ih (h.setValue i' hxs hfloat)

end Machine

/-! ## Blocks -/

namespace Run

variable {s : Setup} {f : Func} {start m m' m1 m0 mp : Machine} {pred : Option BlockId}
  {b : BlockId} {i : InstId}

/-- An operation has a result here if its operands are all defined. -/
def Accepts (s : Setup) (f : Func) (i : InstId) (m : Machine) : Prop :=
  f.isPhi i = false → (∀ v ∈ (f.inst i).inputs, (m.value s.width v).lane 0 ≠ .undefined) →
    ∃ m', instr s f i m = (.ok (), m')

/-- The operand of one lane is refined, and no double. -/
theorem refinedBy_input (hi : (f.inst i).IsPlain f) (hm : m.RefinedBy f m') (k : Nat) :
    (Lanes.lane (((f.inst i).inputs.map (m.value 1))[k]?.getD []) 0).RefinedBy
        (Lanes.lane (((f.inst i).inputs.map (m'.value 1))[k]?.getD []) 0) ∧
      (Lanes.lane (((f.inst i).inputs.map (m.value 1))[k]?.getD []) 0).isFloat = false := by
  rw [List.getElem?_map, List.getElem?_map]
  cases hk : (f.inst i).inputs[k]? with
  | none => exact ⟨.refl _, rfl⟩
  | some v =>
    obtain ⟨hv, ht⟩ := hi.inputs v (List.mem_of_getElem? hk)
    exact ⟨(hm.value v).lane, hm.plain v hv ht⟩

/-- A plain operation goes through with refined operands, and gives a refined result. -/
theorem exists_instr_of_refinedBy (hw : s.width = 1) (hi : (f.inst i).IsPlain f)
    (hm : m.RefinedBy f m') (e : instr s f i m = (.ok (), m1)) (hok : Accepts s f i m') :
    ∃ m1', instr s f i m' = (.ok (), m1') ∧ m1.RefinedBy f m1' := by
  obtain ⟨code, args, hop⟩ := op_of_instr_eq_ok e
  have hcode := hi.code code args hop
  obtain rfl := inputs_of_op hop
  have hiff : ∀ {n n'}, instr s f i n = (.ok (), n') ↔ _ :=
    instr_eq_ok_iff (by rw [hw]; decide) hop hcode.isQuiet
  unfold Accepts at hok
  rw [hw] at hiff hok
  obtain ⟨xs, ⟨hlen, hxs⟩, rfl⟩ := hiff.mp e
  obtain ⟨x, rfl⟩ := List.length_eq_one_iff.mp hlen
  have hx := hxs 0 Nat.one_pos
  have hin := refinedBy_input hi hm
  obtain ⟨x', hx'⟩ : ∃ x', laneResult 1 f i code (f.inst i).inputs m' 0 = .ok x' := by
    by_cases hdef : ∀ v ∈ (f.inst i).inputs, (m'.value 1 v).lane 0 ≠ .undefined
    · obtain ⟨m1', e'⟩ := hok (f.isPhi_of_op hop) hdef
      obtain ⟨xs', ⟨-, hxs'⟩, -⟩ := hiff.mp e'
      exact ⟨_, hxs' 0 Nat.one_pos⟩
    · push Not at hdef
      obtain ⟨v, hv, hu⟩ := hdef
      obtain ⟨k, hk, rfl⟩ := List.mem_iff_getElem.mp hv
      refine exists_laneOperation hcode hk ?_
      rw [List.getElem?_map, List.getElem?_eq_getElem hk]
      exact hu
  refine ⟨m'.setValue i [x'], hiff.mpr ⟨[x'], ⟨rfl, fun l hl => ?_⟩, rfl⟩, hm.setValue i ?_ ?_⟩
  · obtain rfl := Nat.lt_one_iff.mp hl
    exact hx'
  · refine ⟨x, x', rfl, rfl, ?_⟩
    exact refinedBy_laneOperation hcode (fun k => (hin k).1) (fun k _ => (hin k).2) hx hx'
  · exact isFloat_laneOperation hcode hi.ty (fun k _ => (hin k).2) hx

/-- Operations in a row, after some others of a block that control comes to. -/
theorem exists_instrs_of_refinedBy (hw : s.width = 1) (hf : f.IsPlain)
    (hok : ∀ i m, Executes s f start i m → Accepts s f i m) (ha : Arrives s f start pred b m0)
    (hp : phis s f pred b { m0 with path := b :: m0.path } = (.ok (), mp)) {before l : List InstId}
    (hl : f.nonPhis b = before ++ l) (hbefore : before.forM (instr s f) mp = (.ok (), m'))
    (hm : m.RefinedBy f m') (e : l.forM (instr s f) m = (.ok (), m1)) :
    ∃ m1', l.forM (instr s f) m' = (.ok (), m1') ∧ m1.RefinedBy f m1' := by
  induction l generalizing before m m' with
  | nil =>
    cases e
    exact ⟨m', rfl, hm⟩
  | cons i l ih =>
    obtain ⟨_, m2, e1, e⟩ := exists_of_bind_run_eq_ok e
    have hi : i ∈ f.body b := Func.mem_body_of_mem_nonPhis (by rw [hl]; simp)
    obtain ⟨m2', e1', hm2⟩ := exists_instr_of_refinedBy hw (hf b i hi) hm e1
      (hok i m' ⟨pred, b, m0, mp, before, l, ha, hp, hl, hbefore⟩)
    have hbefore' : (before ++ [i]).forM (instr s f) mp = (.ok (), m2') :=
      forM_append_eq_ok.mpr ⟨m', hbefore, (bind_run_eq e1').trans rfl⟩
    obtain ⟨m1', e', hm1⟩ := ih (by rw [hl, List.append_assoc]; rfl) hbefore' hm2 e
    exact ⟨m1', (bind_run_eq e1').trans e', hm1⟩

theorem exists_incoming_of_refinedBy (hw : s.width = 1) (hm : m.RefinedBy f m') {l : List InstId}
    (hl : ∀ phi ∈ l, (f.inst phi).IsPlain f) {new : List (InstId × Lanes)}
    (hnew : List.Forall₂ (Incoming s f pred m) l new) :
    ∃ new', List.Forall₂ (Incoming s f pred m') l new' ∧
      List.Forall₂ (fun e e' => e'.1 = e.1 ∧ Lanes.RefinedBy e.2 e'.2 ∧
        (Lanes.lane e.2 0).isFloat = false) new new' := by
  induction hnew with
  | nil => exact ⟨[], .nil, .nil⟩
  | @cons phi e l new he _ ih =>
    obtain ⟨v, hv, rfl⟩ := he
    obtain ⟨new', hnew', hrefined⟩ := ih fun phi hphi => hl phi (List.mem_cons_of_mem _ hphi)
    obtain ⟨p, -, hp⟩ := Option.bind_eq_some_iff.mp hv
    obtain ⟨hty, hplain⟩ := (hl phi List.mem_cons_self).inputs v (mem_inputs_of_incomingValue? hp)
    refine ⟨(phi, m'.value s.width v) :: new', .cons ⟨v, hv, rfl⟩ hnew', .cons ?_ hrefined⟩
    rw [hw]
    exact ⟨rfl, hm.value v, hm.plain v hty hplain⟩

/-- The phis of a block take refined values. -/
theorem exists_phis_of_refinedBy (hw : s.width = 1) (hf : f.IsPlain) (hm : m.RefinedBy f m')
    (e : phis s f pred b m = (.ok (), m1)) :
    ∃ m1', phis s f pred b m' = (.ok (), m1') ∧ m1.RefinedBy f m1' := by
  obtain ⟨new, hnew, rfl⟩ := phis_eq_ok_iff.mp e
  obtain ⟨new', hnew', hrefined⟩ := exists_incoming_of_refinedBy hw hm
    (fun phi hphi => hf b phi (Func.mem_body_of_mem_phis hphi)) hnew
  exact ⟨_, phis_eq_ok_iff.mpr ⟨new', hnew', rfl⟩, hm.setPhis hrefined⟩

/-- A branch goes the same way, since it has to have a condition. -/
theorem exists_wayOut_of_refinedBy (hm : m.RefinedBy f m') {t : Terminator}
    {r : BlockId ⊕ Option Lanes} (e : wayOut 1 t b m = .ok r) :
    ∃ r', wayOut 1 t b m' = .ok r' ∧ Sum.LiftRel (· = ·) (Option.Rel Lanes.RefinedBy) r r' := by
  cases t with
  | unreachable => cases e
  | br target =>
    cases e
    exact ⟨_, rfl, .inl rfl⟩
  | ret v =>
    cases e
    cases v with
    | none => exact ⟨_, rfl, .inr .none⟩
    | some v => exact ⟨_, rfl, .inr (.some (hm.value v))⟩
  | brIf cond onTrue onFalse =>
    unfold wayOut at e ⊢
    dsimp only at e ⊢
    obtain ⟨x, y, hx, hy, hxy⟩ := hm.value cond
    rw [hx] at e
    rw [hy]
    cases x with
    | bool c =>
      rw [hxy.eq nofun]
      exact ⟨r, e, by cases e; exact .inl rfl⟩
    | undefined | int _ | float _ => cases e

theorem exists_block_of_refinedBy (hw : s.width = 1) (hf : f.IsPlain)
    (hok : ∀ i m, Executes s f start i m → Accepts s f i m) (ha : Arrives s f start pred b m')
    (hm : m.RefinedBy f m') {r : BlockId ⊕ Option Lanes} (e : block s f pred b m = (.ok r, m1)) :
    ∃ r' m1', block s f pred b m' = (.ok r', m1') ∧ m1.RefinedBy f m1' ∧
      Sum.LiftRel (· = ·) (Option.Rel Lanes.RefinedBy) r r' := by
  obtain ⟨m2, h1, h2, h3⟩ := block_eq_ok_iff.mp e
  obtain ⟨m2', h1', hm2⟩ := exists_phis_of_refinedBy hw hf (hm.visit b) h1
  obtain ⟨m1', h2', hm1⟩ :=
    exists_instrs_of_refinedBy hw hf hok ha h1' (List.nil_append _).symm rfl hm2 h2
  rw [hw] at h3
  obtain ⟨r', h3', hr⟩ := exists_wayOut_of_refinedBy hm1 h3
  exact ⟨r', m1', block_eq_ok_iff.mpr ⟨m2', h1', h2', by rw [hw]; exact h3'⟩, hm1, hr⟩

theorem exists_blocks_of_refinedBy (hw : s.width = 1) (hf : f.IsPlain)
    (hok : ∀ i m, Executes s f start i m → Accepts s f i m) {steps : Nat}
    (ha : Arrives s f start pred b m') (hm : m.RefinedBy f m') {ret : Option Lanes}
    (e : blocks s f steps pred b m = (.ok ret, m1)) :
    ∃ ret' m1', blocks s f steps pred b m' = (.ok ret', m1') ∧ m1.RefinedBy f m1' ∧
      Option.Rel Lanes.RefinedBy ret ret' := by
  induction steps generalizing pred b m m' with
  | zero => cases e
  | succ steps ih =>
    obtain ⟨r, m2, e1, e⟩ := exists_of_bind_run_eq_ok e
    obtain ⟨r', m2', e1', hm2, hr⟩ := exists_block_of_refinedBy hw hf hok ha hm e1
    cases hr with
    | inr hret =>
      cases e
      exact ⟨_, m2', bind_run_eq e1', hm2, hret⟩
    | inl hc =>
      subst hc
      obtain ⟨ret', m1', e', hresult⟩ := ih (ha.next e1') hm2 e
      exact ⟨ret', m1', (bind_run_eq e1').trans e', hresult⟩

end Run

/-! ## Runs -/

/-- The evaluator accepts all defined operands: wherever a run on arguments of the right types gets
to an operation whose operands are all defined, the operation has a result. -/
def Func.AcceptsDefined (s : Setup) (f : Func) : Prop :=
  ∀ args params memory, ArgsTyped f args → arguments s f args = .ok params →
    ∀ i m, Executes s f (startMachine s f params memory) i m → Accepts s f i m

variable {s : Setup} {f : Func} {args args' : List Lanes} {memory : Array Scalar}

theorem forall₂_getElem? {α β : Type} {R : α → β → Prop} {l : List α} {l' : List β}
    (h : List.Forall₂ R l l') (k : Nat) : Option.Rel R l[k]? l'[k]? := by
  induction h generalizing k with
  | nil => exact .none
  | cons h _ ih =>
    cases k with
    | zero => exact .some h
    | succ k => exact ih k

/-- A run starts with what its arguments tell. -/
theorem refinedBy_startMachine (hw : s.width = 1) (hargs : List.Forall₂ Lanes.RefinedBy args args')
    (hty : ArgsTyped f args') :
    (startMachine s f args memory).RefinedBy f (startMachine s f args' memory) := by
  have hparam : ∀ k : Nat,
      Lanes.RefinedBy (args[k]?.getD [.undefined]) (args'[k]?.getD [.undefined]) := by
    intro k
    have h := forall₂_getElem? hargs k
    generalize args[k]? = xs, args'[k]? = ys at h
    cases h with
    | none => exact ⟨_, _, rfl, rfl, .refl _⟩
    | some h => exact h
  have hinst : ∀ i : InstId,
      (Array.replicate f.insts.size (Lanes.splat s.width .undefined))[i]?.getD [.undefined] =
        [.undefined] := by
    intro i
    rw [Array.getElem?_replicate, hw]
    split <;> rfl
  refine ⟨rfl, rfl, fun v => ?_, fun v hv ht => ?_⟩
  · cases v with
    | const c => exact ⟨c.val, c.val, rfl, rfl, .refl _⟩
    | param k => exact hparam k
    | inst i => exact ⟨.undefined, .undefined, hinst i, hinst i, .refl _⟩
  · cases v with
    | const c => exact hv.isFloat ht
    | param k =>
      refine (hparam k).lane.isFloat ?_
      cases hk : args'[k]? with
      | none => rfl
      | some ys => exact (hty k ys hk 0).isFloat ht
    | inst i => exact congrArg (fun xs => (Lanes.lane xs 0).isFloat) (hinst i)

/-- Undefined arguments never decide a defined result: with other arguments in their place the
function takes the same way, and returns the same unless it returned nothing defined. -/
theorem Func.exists_run_of_refinedBy (hw : s.width = 1) (hf : f.IsPlain) (hok : f.AcceptsDefined s)
    (hargs : List.Forall₂ Lanes.RefinedBy args args') (hty : ArgsTyped f args') {ret : Option Lanes}
    {m : Machine} (e : f.run s args memory = (.ok ret, m)) :
    ∃ ret' m', f.run s args' memory = (.ok ret', m') ∧ m'.trace = m.trace ∧
      Option.Rel Lanes.RefinedBy ret ret' := by
  obtain ⟨params, hp⟩ := Func.exists_arguments e
  obtain rfl := arguments_one hw hp
  have hp' : arguments s f args' = .ok args' := by
    refine arguments_of_length (by omega) (by rw [hw]; decide) ?_ fun xs hxs => ?_
    · rw [← length_of_arguments hp, hargs.length_eq]
    · obtain ⟨ys, -, x, y, rfl, rfl, -⟩ := exists_mem_of_forall₂ hargs hxs
      exact hw.symm
  rw [Func.run_eq hp] at e
  rw [Func.run_eq hp']
  obtain ⟨ret', m1', e', hm, hret⟩ := exists_blocks_of_refinedBy hw hf
    (hok args' args' memory hty hp') .entry (refinedBy_startMachine hw hargs hty) e
  exact ⟨ret', m1', e', congrArg List.reverse hm.path, hret⟩

/-! ## Well-typed functions -/

theorem Opcode.Typed.isPlain {code : Opcode} {tys : List Ty} {ty : Ty} (h : code.Typed tys ty)
    (hq : code.hasSideEffects = false) :
    code.IsPlain tys.length ∧ ty.IsPlain ∧ ∀ t ∈ tys, t.IsPlain := by
  unfold Opcode.Typed at h
  split at h
  · obtain ⟨rfl, rfl, hop⟩ := h
    exact ⟨rfl, hop.isPlain, by simp [hop.isPlain]⟩
  · obtain ⟨rfl, hop, rfl⟩ := h
    exact ⟨rfl, trivial, by simp [hop.isPlain]⟩
  · obtain ⟨rfl, rfl, rfl, hp⟩ := h
    have hbool : Ty.bool.IsPlain := trivial
    exact ⟨rfl, hp, by simp [hp, hbool]⟩
  · refine ⟨⟨rfl, ?_⟩, h.2.1, by simp [h.1]⟩
    rintro rfl
    exact h.2.2
  · obtain ⟨rfl, hp, hw⟩ := h
    have hptr : ∀ t : Ty, t.pointee?.isSome → t.IsPlain := by
      intro t ht
      cases t <;> first | exact trivial | cases ht
    exact ⟨rfl, hptr _ hp, by simp [hptr _ hp, hw.isPlain]⟩
  · cases hq
  · cases hq
  · cases hq
  · exact h.elim

/-- The operations of a well-typed function that has no side effects are plain. -/
theorem Func.WellTyped.isPlain (hf : f.WellTyped)
    (hq : ∀ b, ∀ i ∈ f.body b, (f.inst i).op.hasSideEffects = false) : f.IsPlain := by
  intro b i hi
  have ht := hf.inst b i hi
  have hq := hq b i hi
  have huses : ∀ v ∈ (f.inst i).inputs, v.IsTyped := fun v hv =>
    ht.uses v (List.mem_append_left _ hv)
  cases hop : (f.inst i).op with
  | phi incoming =>
    obtain ⟨hty, hin⟩ := ht.phi incoming hop
    refine ⟨hty, fun v hv => ⟨huses v hv, ?_⟩, fun code args h => by rw [hop] at h; cases h⟩
    rw [Instr.inputs, hop] at hv
    obtain ⟨e, he, rfl⟩ := List.mem_map.mp hv
    rw [hin e he]
    exact hty
  | apply code args =>
    rw [hop] at hq
    obtain ⟨hcode, hty, hin⟩ := (ht.apply code args hop).isPlain hq
    refine ⟨hty, fun v hv => ⟨huses v hv, hin _ (List.mem_map_of_mem ?_)⟩, fun code' args' h => ?_⟩
    · rwa [inputs_of_op hop] at hv
    · rw [hop] at h
      cases h
      rwa [List.length_map] at hcode

/-- An operation has a result on operands of the right types. -/
theorem Run.exists_laneOperation_of_typed {i : InstId} {code : Opcode} {tys : List Ty} {ty : Ty}
    {a : Bool} {input : Nat → Scalar} (hc : code.Typed tys ty) (hq : code.hasSideEffects = false)
    (hin : ∀ k : Nat, (input k).HasTy (tys[k]?.getD .void)) (memory : Array Scalar) :
    ∃ x, laneOperation i code input (tys[0]?.getD .void) ty a memory = .ok x := by
  unfold Opcode.Typed at hc
  split at hc
  · obtain ⟨rfl, rfl, hop⟩ := hc
    obtain ⟨x, hx, -⟩ := BinOp.exists_eval hop (hin 0) (hin 1)
    exact ⟨x, congrArg (Except.mapError _) hx⟩
  · obtain ⟨rfl, hop, -⟩ := hc
    obtain ⟨x, hx, -⟩ := CmpOp.exists_eval hop (hin 0) (hin 1)
    exact ⟨x, congrArg (Except.mapError _) hx⟩
  · exact ⟨_, rfl⟩
  · obtain ⟨x, hx, -⟩ := CastOp.exists_eval hc (hin 0)
    exact ⟨x, congrArg (Except.mapError _) hx⟩
  · exact ⟨_, rfl⟩
  · cases hq
  · cases hq
  · cases hq
  · exact hc.elim

/-- A well-typed function without side effects accepts all defined operands. -/
theorem Func.WellTyped.acceptsDefined (hw : s.width = 1) (hf : f.WellTyped)
    (hq : ∀ b, ∀ i ∈ f.body b, (f.inst i).op.hasSideEffects = false) : f.AcceptsDefined s := by
  rintro args params memory hargs hp i m h hphi -
  obtain ⟨pred, b, ma, mb, before, after, ha, hphis, hl, hbefore⟩ := h
  obtain rfl := arguments_one hw hp
  have hi : i ∈ f.body b := Func.mem_body_of_mem_nonPhis (by rw [hl]; simp)
  have hout : OutsideTyped s f (startMachine s f params memory) :=
    outsideTyped_of_pure fun b _ i hi => hq b i (Func.mem_body_of_mem_nonPhis hi)
  have hstart := (singleLane_start hw hargs hout hp).typed
  have hm : m.Typed f :=
    typed_before hf.typesAgree hout ha (ha.typed hf.typesAgree hout hstart) hphis hl hbefore
  cases hop : (f.inst i).op with
  | phi incoming =>
    rw [Func.isPhi, Instr.isPhi, hop] at hphi
    cases hphi
  | apply code args =>
    have hq := hq b i hi
    rw [hop] at hq
    have ht := hf.inst b i hi
    have hcode := ht.apply code args hop
    have hquiet := (hcode.isPlain hq).1.isQuiet
    have hargs : ∀ v ∈ args, v.IsTyped := fun v hv =>
      ht.uses v (List.mem_append_left _ (by rw [inputs_of_op hop]; exact hv))
    obtain ⟨x, hx⟩ := exists_laneOperation_of_typed (i := i)
      (a := active s.width m (f.inst i).mask 0) hcode hq (fun k => hm.inputs hargs s.width k 0)
      m.memory
    rw [← typeOf_input_zero hop] at hx
    refine ⟨_, (instr_eq_ok_iff (by omega) hop hquiet).mpr ⟨[x], ⟨hw.symm, fun l hl => ?_⟩, rfl⟩⟩
    obtain rfl : l = 0 := by omega
    exact hx

/-! ## An instance -/

/-- Counts up to the first parameter, and adds up in vain what depends on the others. -/
def countUndecided : Func where
  params := [.int 8, .int 8, .bool]
  retTy := .int 8
  blocks := #[
    { insts := [0, 1], term := .br 1 },
    { insts := [2, 3, 4, 5, 6], term := .brIf (.inst 6) 1 2 },
    { insts := [7], term := .ret (some (.inst 7)) }]
  insts := #[
    { op := .apply (.binary .and) [.param 2, .ofBool false], ty := .bool, block := 0 },
    { op := .apply .select [.param 2, .param 0, .param 0], ty := .int 8, block := 0 },
    { op := .phi [(0, .ofInt (.int 8) 0), (1, .inst 4)], ty := .int 8, block := 1 },
    { op := .phi [(0, .param 1), (1, .inst 5)], ty := .int 8, block := 1 },
    { op := .apply (.binary .add) [.inst 2, .ofInt (.int 8) 1], ty := .int 8, block := 1 },
    { op := .apply (.binary .add) [.inst 3, .inst 4], ty := .int 8, block := 1 },
    { op := .apply (.cmp .slt) [.inst 4, .inst 1], ty := .bool, block := 1 },
    { op := .apply .select [.inst 0, .inst 5, .inst 4], ty := .int 8, block := 2 }]
  layout := [0, 1, 2]

theorem argsTyped_countUndecided :
    ArgsTyped countUndecided [[.int 3], [.int 7], [.bool true]] :=
  argsTyped_of_forall₂ (by decide)

theorem exists_run_countUndecided : ∃ m, countUndecided.run { width := 1, limit := 9 }
    [[.int 3], [.undefined], [.undefined]] #[] = (.ok (some [.int 3]), m) := by
  have h : (countUndecided.run { width := 1, limit := 9 } [[.int 3], [.undefined], [.undefined]]
      #[]).1 = .ok (some [.int 3]) := by
    decide +kernel
  generalize countUndecided.run { width := 1, limit := 9 } _ #[] = r at h ⊢
  exact ⟨r.2, Prod.ext h rfl⟩

/-- What the second and third argument are plays no part, although they are added up, choose between
values and are combined with a truth value. -/
theorem exists_run_of_refinedBy_countUndecided : countUndecided.WellFormed ∧
    countUndecided.IsPlain ∧ countUndecided.AcceptsDefined { width := 1, limit := 9 } ∧ ∃ m m',
      countUndecided.run { width := 1, limit := 9 } [[.int 3], [.undefined], [.undefined]] #[] =
        (.ok (some [.int 3]), m) ∧
      countUndecided.run { width := 1, limit := 9 } [[.int 3], [.int 7], [.bool true]] #[] =
        (.ok (some [.int 3]), m') ∧ m'.trace = m.trace := by
  have hchecks : countUndecided.Checks := by decide +kernel
  have hq : ∀ b, ∀ i ∈ countUndecided.body b, (countUndecided.inst i).op.hasSideEffects = false :=
    fun _ i _ => forall_inst (P := fun d => d.op.hasSideEffects = false) (by decide) (by decide) i
  have hplain := hchecks.wellTyped.isPlain hq
  have haccepts : countUndecided.AcceptsDefined { width := 1, limit := 9 } :=
    hchecks.wellTyped.acceptsDefined rfl hq
  have hargs : List.Forall₂ Lanes.RefinedBy [[.int 3], [.undefined], [.undefined]]
      [[.int 3], [.int 7], [.bool true]] :=
    .cons ⟨_, _, rfl, rfl, .refl _⟩
      (.cons ⟨_, _, rfl, rfl, .inl rfl⟩ (.cons ⟨_, _, rfl, rfl, .inl rfl⟩ .nil))
  obtain ⟨m, e⟩ := exists_run_countUndecided
  obtain ⟨ret', m', e', htrace, hrel⟩ :=
    Func.exists_run_of_refinedBy rfl hplain haccepts hargs argsTyped_countUndecided e
  refine ⟨hchecks.wellFormed, hplain, haccepts, m, m', e, ?_, htrace⟩
  cases hrel with
  | some h =>
    obtain ⟨x, y, hx, rfl, hxy⟩ := h
    cases hx
    rw [e', hxy.eq nofun]

end Lockstep
