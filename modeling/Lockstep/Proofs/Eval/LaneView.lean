import Lockstep.Proofs.Eval.Frame

/-!
# What a single lane sees

`Machine.lane` is the machine of one of the lanes, with the scalars of that lane as its values. An
operation that neither stores nor calls computes each lane on its own (`operation_run`). The code of a
block therefore goes through with all lanes just if it does in each of them, and then does there what
a single lane does (`splits_work`).
-/

namespace Lockstep

/-- The setup of a run of a single lane. -/
def Setup.single (s : Setup) : Setup := { s with width := 1 }

/-- The machine that lane `l` sees. -/
def Machine.lane (m : Machine) (l : Nat) : Machine :=
  { m with
    params := m.params.map fun xs => [xs.lane l]
    values := m.values.map fun xs => [xs.lane l] }

namespace Machine

variable {m : Machine} {l width : Nat}

theorem value_lane (hl : l < width) (v : Value) :
    (m.lane l).value 1 v = [(m.value width v).lane l] := by
  cases v with
  | const c =>
    show [c.val] = [(Lanes.splat width c.val).lane l]
    rw [Lanes.lane_splat c.val hl]
  | param k =>
    show ((m.params.map fun xs => [xs.lane l])[k]?).getD [.undefined] = [(m.params[k]?.getD _).lane l]
    rw [List.getElem?_map]
    cases m.params[k]? with
    | none =>
      rw [Option.getD_none, Lanes.lane_splat _ hl]
      rfl
    | some xs => rfl
  | inst i =>
    show ((m.values.map fun xs => [xs.lane l])[i]?).getD [.undefined] = [(m.values[i]?.getD _).lane l]
    rw [Array.getElem?_map]
    cases m.values[i]? with
    | none =>
      rw [Option.getD_none, Lanes.lane_splat _ hl]
      rfl
    | some xs => rfl

theorem lane_setValue (m : Machine) (i : InstId) (xs : Lanes) (l : Nat) :
    (m.setValue i xs).lane l = (m.lane l).setValue i [xs.lane l] := by
  unfold setValue lane
  rw [Array.map_setIfInBounds]

theorem lane_setPhis (m : Machine) (new : List (InstId × Lanes)) (l : Nat) :
    (m.setPhis new).lane l = (m.lane l).setPhis (new.map fun e => (e.1, [e.2.lane l])) := by
  induction new generalizing m with
  | nil => rfl
  | cons e new ih =>
    show ((m.setValue e.1 e.2).setPhis new).lane l = _
    rw [ih, lane_setValue]
    rfl

end Machine

/-! ## Maps that may fail -/

variable {ε α β : Type}

theorem exists_mapM_eq_ok {f : α → Except ε β} {l : List α} (h : ∀ x ∈ l, ∃ y, f x = .ok y) :
    ∃ ys, l.mapM f = .ok ys := by
  induction l with
  | nil => exact ⟨[], rfl⟩
  | cons x l ih =>
    obtain ⟨y, hy⟩ := h x List.mem_cons_self
    obtain ⟨ys, hys⟩ := ih fun x hx => h x (List.mem_cons_of_mem _ hx)
    refine ⟨y :: ys, ?_⟩
    rw [List.mapM_cons, hy, hys]
    rfl

/-- Computing all lanes goes through if each lane does. -/
theorem mapM_range_eq_ok_iff {f : Nat → Except ε Scalar} {n : Nat} {xs : Lanes} :
    (List.range n).mapM f = .ok xs ↔ xs.length = n ∧ ∀ l < n, f l = .ok (xs.lane l) := by
  rw [mapM_eq_ok_iff, List.forall₂_iff_get]
  simp only [List.length_range, List.get_eq_getElem, List.getElem_range, Lanes.lane]
  constructor
  · rintro ⟨hlen, h⟩
    refine ⟨hlen.symm, fun l hl => ?_⟩
    rw [List.getElem?_eq_getElem (hlen ▸ hl)]
    exact h l hl (hlen ▸ hl)
  · rintro ⟨hlen, h⟩
    refine ⟨hlen.symm, fun l hl hl' => ?_⟩
    have := h l hl
    rwa [List.getElem?_eq_getElem hl'] at this

/-- A map that changes nothing and whose results can be computed from the state. -/
theorem mapM_run {σ : Type} {f : α → ExceptT ε (StateM σ) β} {g : α → Except ε β} {l : List α} {s : σ}
    (h : ∀ x, f x s = (g x, s)) : l.mapM f s = (l.mapM g, s) := by
  induction l with
  | nil => rfl
  | cons x l ih =>
    rw [List.mapM_cons, List.mapM_cons]
    cases hx : g x with
    | error e =>
      rw [bind_run_eq_error (by rw [h, hx])]
      rfl
    | ok y =>
      rw [bind_run_eq (by rw [h, hx])]
      cases hl : l.mapM g with
      | error e =>
        rw [bind_run_eq_error (by rw [ih, hl])]
        rfl
      | ok ys =>
        rw [bind_run_eq (by rw [ih, hl])]
        rfl

theorem mapM_mapError {δ : Type} {f : α → Except ε β} (g : ε → δ) (l : List α) :
    (l.mapM fun x => (f x).mapError g) = (l.mapM f).mapError g := by
  induction l with
  | nil => rfl
  | cons x l ih =>
    rw [List.mapM_cons, List.mapM_cons]
    cases f x with
    | error e => rfl
    | ok y =>
      show (l.mapM _ >>= fun ys => pure (y :: ys)) = Except.mapError g (l.mapM f >>= fun ys => pure (y :: ys))
      rw [ih]
      cases l.mapM f <;> rfl

namespace Run

/-! ## One lane of an operation -/

/-- What a lane loads. -/
def readLane (memory : Array Scalar) (address : Int64) : Except EvalError Scalar :=
  if 0 ≤ address.toInt ∧ address.toInt.toNat < memory.size then
    .ok (memory[address.toInt.toNat]?.getD .undefined)
  else .error (.outOfBounds address)

/-- What one lane computes by an operation that neither stores nor calls. -/
def laneOperation (i : InstId) (code : Opcode) (input : Nat → Scalar) (source ty : Ty) (active : Bool)
    (memory : Array Scalar) : Except EvalError Scalar :=
  match code with
  | .binary op => (op.eval (input 0) (input 1) ty).mapError (.unsupported i)
  | .cmp op => (op.eval (input 0) (input 1) source).mapError (.unsupported i)
  | .select => .ok ((input 0).choose (input 1) (input 2))
  | .cast op => (op.eval (input 0) source ty).mapError (.unsupported i)
  | .ptrOffset => .ok ((input 0).addOffset (input 1))
  | .load =>
    match input 0 with
    | .int address => if active then readLane memory address else .ok .undefined
    | _ => .ok .undefined
  | _ => .error (.unsupported i .aggregate)

theorem readCell_run (address : Int64) (m : Machine) :
    readCell address m = (readLane m.memory address, m) := by
  unfold readCell readLane
  by_cases h : 0 ≤ address.toInt ∧ address.toInt.toNat < m.memory.size
  · have hc : cellIndex address m = (.ok address.toInt.toNat, m) :=
      (bind_run_eq rfl).trans (congrFun (if_pos h) m)
    rw [if_pos h]
    exact bind_run_eq hc
  · have hc : cellIndex address m = (.error (.outOfBounds address), m) :=
      (bind_run_eq rfl).trans (congrFun (if_neg h) m)
    rw [if_neg h]
    exact bind_run_eq_error hc

theorem lanewise_run (width : Nat) (i : InstId) (f : Nat → Except Unsupported Scalar) (m : Machine) :
    lanewise width i f m =
      ((List.range width).mapM fun l => (f l).mapError (.unsupported i), m) := by
  unfold lanewise
  rw [mapM_mapError]
  cases (List.range width).mapM f <;> rfl

theorem load_run (width : Nat) (active : Nat → Bool) (addresses : Lanes) (m : Machine) :
    load width active addresses m = ((List.range width).mapM fun l =>
      match addresses.lane l with
      | .int address => if active l then readLane m.memory address else .ok .undefined
      | _ => .ok .undefined, m) := by
  unfold load
  refine mapM_run fun l => ?_
  cases addresses.lane l with
  | int address =>
    dsimp only
    split
    · exact readCell_run address m
    · rfl
  | _ => rfl

theorem mapM_range_error {n : Nat} (hn : 0 < n) (e : ε) :
    (List.range n).mapM (fun _ => (.error e : Except ε β)) = .error e := by
  obtain ⟨n, rfl⟩ := Nat.exists_eq_add_one_of_ne_zero (Nat.ne_of_gt hn)
  rw [List.range_succ_eq_map, List.mapM_cons]
  rfl

/-- An operation that neither stores nor calls computes each lane on its own, and changes nothing. -/
theorem operation_run {s : Setup} (hw : 0 < s.width) (i : InstId) {code : Opcode}
    (hc : code.isQuiet = true) (inputs : List Lanes) (source ty : Ty) (active : Nat → Bool)
    (m : Machine) :
    operation s i code inputs source ty active m = ((List.range s.width).mapM fun l =>
      laneOperation i code (fun k => (inputs[k]?.getD []).lane l) source ty (active l) m.memory, m) := by
  unfold operation
  cases code with
  | binary _ | cmp _ | cast _ => exact lanewise_run _ _ _ m
  | select | ptrOffset =>
    refine Prod.ext (Eq.symm (mapM_range_eq_ok_iff.mpr ⟨?_, fun l hl => ?_⟩)) rfl
    · rw [List.length_map, List.length_range]
    · simp [Lanes.lane, laneOperation, hl]
  | load => exact load_run _ _ _ m
  | store | call _ => cases hc
  | extractElement | insertElement | shuffleVector | extractValue _ | insertValue _ =>
    exact Prod.ext (mapM_range_error hw _).symm rfl

/-! ## Parts of a run in all lanes and in one -/

/-- From `m`, the part `x` of a run goes through with `width` lanes just if `y` does in each of them,
and then does there what `y` does. -/
structure Splits (width : Nat) (x y : Run Unit) (m : Machine) : Prop where
  lane : ∀ m', x m = (.ok (), m') → ∀ l < width, y (m.lane l) = (.ok (), m'.lane l)
  all : (∀ l < width, ∃ n, y (m.lane l) = (.ok (), n)) → ∃ m', x m = (.ok (), m')

variable {s : Setup} {f : Func} {m m' : Machine} {width : Nat} {x x' y y' : Run Unit}

theorem Splits.bind (h : Splits width x y m)
    (h' : ∀ m', x m = (.ok (), m') → Splits width x' y' m') :
    Splits width (x >>= fun _ => x') (y >>= fun _ => y') m where
  lane m' e l hl := by
    obtain ⟨_, m1, e1, e2⟩ := exists_of_bind_run_eq_ok e
    exact (bind_run_eq (h.lane m1 e1 l hl)).trans ((h' m1 e1).lane m' e2 l hl)
  all hall := by
    have hfirst : ∀ l < width, ∃ n, y (m.lane l) = (.ok (), n) := by
      intro l hl
      obtain ⟨n, e⟩ := hall l hl
      obtain ⟨_, n1, e1, -⟩ := exists_of_bind_run_eq_ok e
      exact ⟨n1, e1⟩
    obtain ⟨m1, e1⟩ := h.all hfirst
    have hsecond : ∀ l < width, ∃ n, y' (m1.lane l) = (.ok (), n) := by
      intro l hl
      obtain ⟨n, e⟩ := hall l hl
      rw [bind_run_eq (h.lane m1 e1 l hl)] at e
      exact ⟨n, e⟩
    obtain ⟨m2, e2⟩ := (h' m1 e1).all hsecond
    exact ⟨m2, (bind_run_eq e1).trans e2⟩

/-- What lane `l` computes by an instruction. -/
def laneResult (width : Nat) (f : Func) (i : InstId) (code : Opcode) (args : List Value) (m : Machine)
    (l : Nat) : Except EvalError Scalar :=
  laneOperation i code (fun k => ((args.map (m.value width))[k]?.getD []).lane l)
    (f.typeOf ((f.inst i).input 0)) (f.inst i).ty (active width m (f.inst i).mask l) m.memory

/-- A lane computes what it does on its own. -/
theorem laneResult_lane {l : Nat} (hl : l < width) (f : Func) (i : InstId) (code : Opcode)
    (args : List Value) (m : Machine) :
    laneResult 1 f i code args (m.lane l) 0 = laneResult width f i code args m l := by
  have hinput : (fun k : Nat => Lanes.lane ((args.map ((m.lane l).value 1))[k]?.getD []) 0) =
      fun k => Lanes.lane ((args.map (m.value width))[k]?.getD []) l := by
    funext k
    rw [List.getElem?_map, List.getElem?_map]
    cases args[k]? with
    | none => rfl
    | some v => simp [Machine.value_lane hl, Lanes.lane]
  have hactive : active 1 (m.lane l) (f.inst i).mask 0 = active width m (f.inst i).mask l := by
    unfold active
    cases (f.inst i).mask with
    | none => rfl
    | some v => simp [Machine.value_lane hl, Lanes.lane]
  unfold laneResult
  rw [hinput, hactive]
  rfl

theorem instr_eq_ok_iff (hw : 0 < s.width) {i : InstId} {code : Opcode} {args : List Value}
    (hop : (f.inst i).op = .apply code args) (hc : code.isQuiet = true) :
    instr s f i m = (.ok (), m') ↔ ∃ xs : Lanes, (xs.length = s.width ∧
      ∀ l < s.width, laneResult s.width f i code args m l = .ok (xs.lane l)) ∧ m' = m.setValue i xs := by
  rw [instr_apply hop]
  constructor
  · intro e
    obtain ⟨xs, m1, hx, e⟩ := exists_of_bind_run_eq_ok e
    rw [operation_run hw i hc] at hx
    cases e
    obtain ⟨hxs, rfl⟩ := Prod.mk.inj hx
    exact ⟨xs, mapM_range_eq_ok_iff.mp hxs, rfl⟩
  · rintro ⟨xs, hxs, rfl⟩
    have hx := operation_run hw i hc (args.map (m.value s.width)) (f.typeOf ((f.inst i).input 0))
      (f.inst i).ty (active s.width m (f.inst i).mask) m
    exact bind_run_eq (hx.trans (Prod.ext (mapM_range_eq_ok_iff.mpr hxs) rfl))

/-- An instruction that neither stores nor calls. -/
theorem splits_instr (hw : 0 < s.width) {i : InstId} (hq : (f.inst i).op.isQuiet = true)
    (m : Machine) : Splits s.width (instr s f i) (instr s.single f i) m := by
  cases hop : (f.inst i).op with
  | phi incoming =>
    have hfails : ∀ (s : Setup) (m m' : Machine), instr s f i m ≠ (.ok (), m') := by
      intro s m m' e
      obtain ⟨code, args, h⟩ := op_of_instr_eq_ok e
      rw [hop] at h
      cases h
    constructor
    · intro m' e
      exact absurd e (hfails s m m')
    · intro hall
      obtain ⟨n, e⟩ := hall 0 hw
      exact absurd e (hfails s.single (m.lane 0) n)
  | apply code args =>
    rw [hop] at hq
    have hone : ∀ {n n'}, instr s.single f i n = (.ok (), n') ↔ _ :=
      instr_eq_ok_iff (s := s.single) Nat.one_pos hop hq
    constructor
    · intro m' e l hl
      obtain ⟨xs, ⟨-, hxs⟩, rfl⟩ := (instr_eq_ok_iff hw hop hq).mp e
      refine hone.mpr ⟨[xs.lane l], ⟨rfl, fun j hj => ?_⟩, Machine.lane_setValue m i xs l⟩
      obtain rfl : j = 0 := Nat.lt_one_iff.mp hj
      exact (laneResult_lane hl f i code args m).trans (hxs l hl)
    · intro hall
      have hresult : ∀ l ∈ List.range s.width, ∃ x, laneResult s.width f i code args m l = .ok x := by
        intro l hl
        have hl := List.mem_range.mp hl
        obtain ⟨n, e⟩ := hall l hl
        obtain ⟨xs, ⟨-, hxs⟩, -⟩ := hone.mp e
        exact ⟨_, (laneResult_lane hl f i code args m).symm.trans (hxs 0 Nat.one_pos)⟩
      obtain ⟨xs, hxs⟩ := exists_mapM_eq_ok hresult
      exact ⟨_, (instr_eq_ok_iff hw hop hq).mpr ⟨xs, mapM_range_eq_ok_iff.mp hxs, rfl⟩⟩

theorem splits_instrs (hw : 0 < s.width) {l : List InstId}
    (hq : ∀ i ∈ l, (f.inst i).op.isQuiet = true) (m : Machine) :
    Splits s.width (l.forM (instr s f)) (l.forM (instr s.single f)) m := by
  induction l generalizing m with
  | nil =>
    constructor
    · intro m' e l _
      cases e
      rfl
    · intro _
      exact ⟨m, rfl⟩
  | cons i l ih =>
    exact (splits_instr hw (hq i List.mem_cons_self) m).bind fun m' _ =>
      ih (fun j hj => hq j (List.mem_cons_of_mem _ hj)) m'

/-- Which value a phi takes does not depend on the lane. -/
theorem splits_phis (hw : 0 < s.width) (pred : Option BlockId) (b : BlockId) (m : Machine) :
    Splits s.width (phis s f pred b) (phis s.single f pred b) m where
  lane m' e l hl := by
    obtain ⟨new, hnew, rfl⟩ := phis_eq_ok_iff.mp e
    refine phis_eq_ok_iff.mpr ⟨new.map fun e => (e.1, [e.2.lane l]), ?_, Machine.lane_setPhis m new l⟩
    refine List.forall₂_map_right_iff.mpr (hnew.imp ?_)
    rintro phi e ⟨v, hv, rfl⟩
    exact ⟨v, hv, Prod.ext rfl (Machine.value_lane hl v).symm⟩
  all hall := by
    obtain ⟨n, e⟩ := hall 0 hw
    obtain ⟨new, hnew, -⟩ := phis_eq_ok_iff.mp e
    have hwide : ∀ {l : List InstId} {new : List (InstId × Lanes)},
        List.Forall₂ (Incoming s.single f pred (m.lane 0)) l new →
          ∃ new', List.Forall₂ (Incoming s f pred m) l new' := by
      intro l new h
      induction h with
      | nil => exact ⟨[], .nil⟩
      | @cons phi e _ _ he _ ih =>
        obtain ⟨v, hv, -⟩ := he
        obtain ⟨new', hnew'⟩ := ih
        exact ⟨(phi, m.value s.width v) :: new', .cons ⟨v, hv, rfl⟩ hnew'⟩
    obtain ⟨new', hnew'⟩ := hwide hnew
    exact ⟨_, phis_eq_ok_iff.mpr ⟨new', hnew', rfl⟩⟩

/-! ## Blocks -/

/-- What a block does before control leaves it. -/
def work (s : Setup) (f : Func) (pred : Option BlockId) (b : BlockId) : Run Unit := do
  modify fun m => { m with path := b :: m.path }
  phis s f pred b
  (f.nonPhis b).forM (instr s f)

theorem block_eq_ok_iff_work {pred : Option BlockId} {b : BlockId} {r : BlockId ⊕ Option Lanes} :
    block s f pred b m = (.ok r, m') ↔
      work s f pred b m = (.ok (), m') ∧ wayOut s.width (f.term b) b m' = .ok r := by
  rw [block_eq_ok_iff]
  constructor
  · rintro ⟨m1, h1, h2, h3⟩
    exact ⟨(bind_run_eq rfl).trans ((bind_run_eq h1).trans h2), h3⟩
  · rintro ⟨h, h3⟩
    obtain ⟨_, m0, h0, h⟩ := exists_of_bind_run_eq_ok h
    cases h0
    obtain ⟨_, m1, h1, h2⟩ := exists_of_bind_run_eq_ok h
    exact ⟨m1, h1, h2, h3⟩

/-- The code of a block does in each lane what it does with a single lane. -/
theorem splits_work (hw : 0 < s.width) {pred : Option BlockId} {b : BlockId}
    (hq : ∀ i ∈ f.body b, (f.inst i).op.isQuiet = true) (m : Machine) :
    Splits s.width (work s f pred b) (work s.single f pred b) m := by
  have hvisit : Splits s.width (modify fun m => { m with path := b :: m.path })
      (modify fun m => { m with path := b :: m.path }) m := by
    constructor
    · intro m' e l _
      cases e
      rfl
    · intro _
      exact ⟨_, rfl⟩
  exact hvisit.bind fun m0 _ => (splits_phis hw pred b m0).bind fun m1 _ =>
    splits_instrs hw (fun i hi => hq i (Func.mem_body_of_mem_nonPhis hi)) m1

end Run

end Lockstep
