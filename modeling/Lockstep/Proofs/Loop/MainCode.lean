import Lockstep.Loop.Remainder
import Lockstep.Proofs.Eval.Soundness
import Lockstep.Proofs.Func.Append
import Lockstep.Proofs.Loop.MainBound

/-!
# The instructions of the main bound

The bound of the main loop is computed by twelve instructions at the end of the preheader
(`buildMainBound_eq`). In a single lane, from a start and a bound that are defined, they compute
what `MainBound.mainEnd` says, and change nothing else (`exists_run_mainBoundCode`).
-/

namespace Lockstep

namespace CountedLoop

/-- An operation without a mask. -/
def plainInstr (p : BlockId) (code : Opcode) (args : List Value) (ty : Ty) : Instr :=
  { op := .apply code args, ty, block := p }

/-- The instructions that compute the bound of the main loop, the first of which is `k`. The numbers
in them have the type `ty`; the types of start and bound are another matter unless the function is
well-typed. -/
def mainBoundCode (c : CountedLoop) (p : BlockId) (ty startTy boundTy : Ty) (width : Int64)
    (k : InstId) : List Instr :=
  let v (j : Nat) : Value := .inst (k + j)
  [plainInstr p (.cmp c.stayOp) [c.start, c.bound] .bool,
    plainInstr p (.binary .sub) [c.bound, c.start] boundTy,
    plainInstr p (.binary .sub) [v 1, .ofInt ty 1] boundTy,
    plainInstr p (.binary .udiv) [v 2, .ofInt ty c.step] boundTy,
    plainInstr p (.binary .add) [v 3, .ofInt ty 1] boundTy,
    plainInstr p .select [v 0, v 4, .ofInt ty 0] boundTy,
    plainInstr p (.binary .urem) [v 5, .ofInt ty width] boundTy,
    plainInstr p (.binary .sub) [v 5, v 6] boundTy,
    plainInstr p (.binary .mul) [v 7, .ofInt ty c.step] boundTy,
    plainInstr p (.binary .add) [c.start, v 8] startTy,
    plainInstr p (.cmp .eq) [v 6, .ofInt ty 0] .bool,
    plainInstr p .select [v 10, c.bound, v 9] boundTy]

/-! ## Building -/

section Build

variable {f : Func} {p : BlockId} {ds : List Instr} {x y z : Value} {ty : Ty}

/-- A builder that has appended instructions to a block. -/
def HasAppended (f : Func) (p : BlockId) (ds : List Instr) (b : Builder) : Prop :=
  b = { func := f.appendAll p ds, point := .blockEnd p }

theorem typeOf_appendAll_of_defines (hx : f.Defines x) :
    (f.appendAll p ds).typeOf x = f.typeOf x := by
  cases x with
  | const c => rfl
  | param k =>
    show (f.appendAll p ds).params[k]?.getD _ = _
    rw [Func.params_appendAll]
    rfl
  | inst i => exact congrArg Instr.ty (Func.inst_appendAll_of_lt hx)

theorem typeOf_appendAll {j : Nat} {d : Instr} (h : ds[j]? = some d) :
    (f.appendAll p ds).typeOf (.inst (f.insts.size + j)) = d.ty := by
  show ((f.appendAll p ds).inst _).ty = _
  rw [Func.inst_appendAll h]

theorem triple_apply (f : Func) (p : BlockId) (ds : List Instr) (code : Opcode) (args : List Value)
    (ty : Ty) : Triple (HasAppended f p ds) (Build.apply code args ty) fun v b =>
      HasAppended f p (ds ++ [plainInstr p code args ty]) b ∧
        v = .inst (f.insts.size + ds.length) := by
  rintro b v b' rfl e
  cases e
  constructor
  · unfold HasAppended Func.appendAll
    rw [List.foldl_append]
    rfl
  · rw [← Func.size_insts_appendAll (b := p)]

theorem triple_cmp (f : Func) (p : BlockId) (ds : List Instr) (op : CmpOp) (x y : Value) :
    Triple (HasAppended f p ds) (Build.cmp op x y) fun v b =>
      HasAppended f p (ds ++ [plainInstr p (.cmp op) [x, y] .bool]) b ∧
        v = .inst (f.insts.size + ds.length) :=
  triple_apply f p ds _ _ _

theorem triple_binary (op : BinOp) (h : (f.appendAll p ds).typeOf x = ty) :
    Triple (HasAppended f p ds) (Build.binary op x y) fun v b =>
      HasAppended f p (ds ++ [plainInstr p (.binary op) [x, y] ty]) b ∧
        v = .inst (f.insts.size + ds.length) := by
  rintro b v b' rfl e
  refine triple_apply f p ds (.binary op) [x, y] ty _ v b' rfl ?_
  rw [← h]
  exact e

theorem triple_select (hne : y ≠ z) (h : (f.appendAll p ds).typeOf y = ty) :
    Triple (HasAppended f p ds) (Build.select x y z) fun v b =>
      HasAppended f p (ds ++ [plainInstr p .select [x, y, z] ty]) b ∧
        v = .inst (f.insts.size + ds.length) := by
  rintro b v b' rfl e
  refine triple_apply f p ds .select [x, y, z] ty _ v b' rfl ?_
  rw [← h]
  unfold Build.select at e
  rw [if_neg hne] at e
  exact e

/-- Building the bound of the main loop appends its instructions. -/
theorem buildMainBound_eq (c : CountedLoop) (ty : Ty) (width : Int64) (hs : f.Defines c.start)
    (hb : f.Defines c.bound) :
    ∃ made, f.buildAt (.blockEnd p) (c.buildMainBound ty width) =
      ((.inst (f.insts.size + 11), made), f.appendAll p (c.mainBoundCode p ty (f.typeOf c.start)
        (f.typeOf c.bound) width f.insts.size)) := by
  have key : Triple (HasAppended f p []) (c.buildMainBound ty width) fun v b =>
      HasAppended f p (c.mainBoundCode p ty (f.typeOf c.start) (f.typeOf c.bound) width
        f.insts.size) b ∧ v.1 = .inst (f.insts.size + 11) := by
    have hsel : c.bound ≠ .inst (f.insts.size + 9) := by
      intro e
      rw [e] at hb
      exact Nat.not_lt.mpr (Nat.le_add_right _ _) hb
    refine Triple.bind (triple_cmp f p [] c.stayOp c.start c.bound) fun v0 => ?_
    refine Triple.assume ?_
    rintro rfl
    refine Triple.bind (triple_binary _ (typeOf_appendAll_of_defines hb)) fun v1 => ?_
    refine Triple.assume ?_
    rintro rfl
    refine Triple.bind (triple_binary _ (typeOf_appendAll rfl)) fun v2 => ?_
    refine Triple.assume ?_
    rintro rfl
    refine Triple.bind (triple_binary _ (typeOf_appendAll rfl)) fun v3 => ?_
    refine Triple.assume ?_
    rintro rfl
    refine Triple.bind (triple_binary _ (typeOf_appendAll rfl)) fun v4 => ?_
    refine Triple.assume ?_
    rintro rfl
    refine Triple.bind (triple_select (by intro e; cases e) (typeOf_appendAll rfl)) fun v5 => ?_
    refine Triple.assume ?_
    rintro rfl
    refine Triple.bind (triple_binary _ (typeOf_appendAll rfl)) fun v6 => ?_
    refine Triple.assume ?_
    rintro rfl
    refine Triple.bind (triple_binary _ (typeOf_appendAll rfl)) fun v7 => ?_
    refine Triple.assume ?_
    rintro rfl
    refine Triple.bind (triple_binary _ (typeOf_appendAll rfl)) fun v8 => ?_
    refine Triple.assume ?_
    rintro rfl
    refine Triple.bind (triple_binary _ (typeOf_appendAll_of_defines hs)) fun v9 => ?_
    refine Triple.assume ?_
    rintro rfl
    refine Triple.bind (triple_cmp f p _ _ _ _) fun v10 => ?_
    refine Triple.assume ?_
    rintro rfl
    refine Triple.bind (triple_select hsel (typeOf_appendAll_of_defines hb)) fun v11 => ?_
    refine Triple.assume ?_
    rintro rfl
    exact Triple.pure fun b hb => ⟨hb, rfl⟩
  rcases hrun : c.buildMainBound ty width { func := f, point := .blockEnd p } with ⟨⟨v, made⟩, b⟩
  obtain ⟨hb', hv⟩ := key _ _ b rfl hrun
  refine ⟨made, ?_⟩
  unfold Func.buildAt
  rw [hrun]
  cases hb'
  cases hv
  rfl

end Build

end CountedLoop

/-! ## Running in a single lane -/

/-- The machine `m'` is `m` after the instructions from `k` on have got the values `xs`. -/
structure Machine.Computed (k : InstId) (xs : List Scalar) (m m' : Machine) : Prop where
  params : m'.params = m.params
  memory : m'.memory = m.memory
  callLog : m'.callLog = m.callLog
  size : m'.values.size = m.values.size
  new : ∀ (j : Nat) x, xs[j]? = some x → m'.values[k + j]? = some [x]
  old : ∀ i, (∀ j < xs.length, i ≠ k + j) → m'.values[i]? = m.values[i]?

namespace Machine

variable {k : InstId} {xs : List Scalar} {m m' : Machine} {x : Scalar}

theorem Computed.refl (k : InstId) (m : Machine) : Computed k [] m m :=
  ⟨rfl, rfl, rfl, rfl, fun _ _ h => absurd h (by simp), fun _ _ => rfl⟩

theorem Computed.step (h : Computed k xs m m') (hk : k + xs.length < m.values.size) (x : Scalar) :
    Computed k (xs ++ [x]) m (m'.setValue (k + xs.length) [x]) where
  params := h.params
  memory := h.memory
  callLog := h.callLog
  size := by rw [size_setValue, h.size]
  new j y hy := by
    rw [getElem?_setValue, h.size]
    rcases Nat.lt_trichotomy j xs.length with hj | rfl | hj
    · rw [if_neg fun e => Nat.ne_of_gt hj (Nat.add_left_cancel e.1)]
      rw [List.getElem?_append_left hj] at hy
      exact h.new j y hy
    · rw [if_pos ⟨rfl, hk⟩]
      rw [List.getElem?_append_right (Nat.le_refl _), Nat.sub_self] at hy
      cases hy
      rfl
    · rw [List.getElem?_eq_none] at hy
      · cases hy
      · rw [List.length_append, List.length_singleton]
        exact hj
  old i hi := by
    rw [List.length_append, List.length_singleton] at hi
    rw [getElem?_setValue, if_neg fun e => hi xs.length (Nat.lt_succ_self _) e.1.symm]
    exact h.old i fun j hj => hi j (Nat.lt_succ_of_lt hj)

theorem Computed.value_new (h : Computed k xs m m') {j : Nat} (hj : xs[j]? = some x) :
    m'.value 1 (.inst (k + j)) = [x] := by
  show m'.values[k + j]?.getD _ = _
  rw [h.new j x hj]
  rfl

theorem Computed.value_old (h : Computed k xs m m') {v : Value}
    (hv : v.Within fun i => ∀ j < xs.length, i ≠ k + j) : m'.value 1 v = m.value 1 v := by
  cases v with
  | const c => rfl
  | param i =>
    show m'.params[i]?.getD _ = m.params[i]?.getD _
    rw [h.params]
  | inst i =>
    show m'.values[i]?.getD _ = m.values[i]?.getD _
    rw [h.old i hv]

end Machine

namespace Run

variable {s : Setup} {g : Func} {i : InstId} {p : BlockId} {m : Machine} {x y z : Value} {ty : Ty}
  {a b c r : Scalar}

theorem instr_plain {code : Opcode} {args : List Value} {xs : Lanes}
    (h : g.inst i = CountedLoop.plainInstr p code args ty)
    (hx : operation s i code (args.map (m.value s.width)) (g.typeOf (args[0]?.getD (.undefined .void)))
      ty (active s.width m none) m = (.ok xs, m)) :
    instr s g i m = (.ok (), m.setValue i xs) := by
  have hop : (g.inst i).op = .apply code args := by rw [h]; rfl
  rw [instr_apply hop]
  refine bind_run_eq (a := xs) ?_
  rw [h]
  exact hx

theorem instr_binary (hw : s.width = 1) {op : BinOp}
    (h : g.inst i = CountedLoop.plainInstr p (.binary op) [x, y] ty) (hx : m.value 1 x = [a])
    (hy : m.value 1 y = [b]) (hr : op.eval a b ty = .ok r) :
    instr s g i m = (.ok (), m.setValue i [r]) := by
  refine instr_plain h ?_
  unfold operation
  simp only [hw, List.map_cons, List.map_nil, hx, hy]
  exact lanewise_one hr

theorem instr_cmp (hw : s.width = 1) {op : CmpOp} {t : Ty}
    (h : g.inst i = CountedLoop.plainInstr p (.cmp op) [x, y] ty) (ht : g.typeOf x = t)
    (hx : m.value 1 x = [a]) (hy : m.value 1 y = [b]) (hr : op.eval a b t = .ok r) :
    instr s g i m = (.ok (), m.setValue i [r]) := by
  refine instr_plain h ?_
  unfold operation
  simp only [hw, List.map_cons, List.map_nil, hx, hy]
  refine lanewise_one ?_
  show op.eval a b (g.typeOf x) = _
  rw [ht, hr]

theorem instr_select (hw : s.width = 1)
    (h : g.inst i = CountedLoop.plainInstr p .select [z, x, y] ty) (hz : m.value 1 z = [c])
    (hx : m.value 1 x = [a]) (hy : m.value 1 y = [b]) :
    instr s g i m = (.ok (), m.setValue i [c.choose a b]) := by
  refine instr_plain h ?_
  unfold operation
  simp only [hw, List.map_cons, List.map_nil, hx, hy, hz]
  rfl

/-- Instructions that give one value after the other give all of them. -/
theorem exists_forM_of_computed {k : InstId} {xs : List Scalar}
    (hsize : k + xs.length ≤ m.values.size)
    (h : ∀ (j : Nat) (hj : j < xs.length) m', m.Computed k (xs.take j) m' →
      instr s g (k + j) m' = (.ok (), m'.setValue (k + j) [xs[j]])) :
    ∃ m', (List.range' k xs.length).forM (instr s g) m = (.ok (), m') ∧ m.Computed k xs m' := by
  induction xs using List.reverseRecOn with
  | nil => exact ⟨m, rfl, .refl k m⟩
  | append_singleton xs x ih =>
    rw [List.length_append, List.length_singleton] at hsize
    obtain ⟨m', hrun, hm'⟩ := ih (Nat.le_of_succ_le hsize) fun j hj m' hm' => by
      have hj' : j < (xs ++ [x]).length := by
        rw [List.length_append]
        exact Nat.lt_add_right _ hj
      have h := h j hj' m' (by rwa [List.take_append_of_le_length (Nat.le_of_lt hj)])
      rwa [List.getElem_append_left hj] at h
    have hlast := h xs.length (by simp) m' (by rwa [List.take_left])
    rw [List.getElem_concat_length rfl] at hlast
    refine ⟨_, ?_, hm'.step hsize x⟩
    rw [List.length_append, List.length_singleton, List.range'_concat, Nat.one_mul]
    exact forM_append_eq_ok.mpr ⟨m', hrun, bind_run_eq hlast⟩

end Run

namespace CountedLoop

open Run

/-- The values that the instructions of the bound of the main loop give, from a start and a bound;
`any` says whether the loop goes on from the start. -/
def mainBoundValues (c : CountedLoop) (w : Nat) (width start bound : Int64) (any : Bool) :
    List Scalar :=
  let step := Word.signExtend c.step w
  let trip := MainBound.trip c.stayOp w start bound step
  let rem := MainBound.remTrips c.stayOp w start bound step (Word.signExtend width w)
  let main := Word.wrap w (trip.toInt - rem.toInt)
  [.bool any,
    .int (Word.wrap w (bound.toInt - start.toInt)),
    .int (MainBound.lastOffset w start bound),
    .int (Word.wrap w
      (Word.unsigned w (MainBound.lastOffset w start bound) / Word.unsigned w step : Nat)),
    .int (MainBound.tripIfAny w start bound step),
    .int trip,
    .int rem,
    .int main,
    .int (Word.wrap w (main.toInt * step.toInt)),
    .int (MainBound.partialEnd c.stayOp w start bound step (Word.signExtend width w)),
    .bool (decide (rem = Word.signExtend 0 w)),
    .int (MainBound.mainEnd c.stayOp w start bound step (Word.signExtend width w))]

theorem choose_trip {op : CmpOp} {w : Nat} {start bound step : Int64} {any : Bool}
    (h : op.onInts w start bound = some any) :
    (Scalar.bool any).choose (.int (MainBound.tripIfAny w start bound step))
      (.int (Word.signExtend 0 w)) = .int (MainBound.trip op w start bound step) := by
  unfold Scalar.choose MainBound.trip
  rw [h]
  cases any <;> simp [Word.signExtend]

theorem choose_mainEnd (op : CmpOp) (w : Nat) (start bound step width : Int64) :
    (Scalar.bool (decide (MainBound.remTrips op w start bound step width =
        Word.signExtend 0 w))).choose (.int bound)
      (.int (MainBound.partialEnd op w start bound step width)) =
      .int (MainBound.mainEnd op w start bound step width) := by
  rw [show Word.signExtend 0 w = 0 from Word.wrap_zero w]
  unfold Scalar.choose MainBound.mainEnd
  by_cases h : MainBound.remTrips op w start bound step width = 0 <;> simp [h]

/-- In a single lane, the instructions of the bound of the main loop give the end of the main
loop. -/
theorem exists_run_mainBoundCode {s : Setup} (hw : s.width = 1) {g : Func} {c : CountedLoop}
    {p : BlockId} {w : Nat} {width : Int64} {k : InstId} {m : Machine} {n0 nb : Int64} {hi : Bool}
    (hcode : ∀ (j : Nat) d, (c.mainBoundCode p (.int w) (.int w) (.int w) width k)[j]? = some d →
      g.inst (k + j) = d)
    (hsize : k + 12 ≤ m.values.size) (hst : g.typeOf c.start = .int w)
    (hs : c.start.Within (· < k)) (hb : c.bound.Within (· < k))
    (hs0 : m.value 1 c.start = [.int n0]) (hb0 : m.value 1 c.bound = [.int nb])
    (hhi : c.stayOp.onInts w n0 nb = some hi) :
    ∃ m' xs, (List.range' k 12).forM (instr s g) m = (.ok (), m') ∧ m.Computed k xs m' ∧
      xs.length = 12 ∧ m'.value 1 (.inst (k + 11)) =
        [.int (MainBound.mainEnd c.stayOp w n0 nb (Word.signExtend c.step w)
          (Word.signExtend width w))] := by
  have hold : ∀ {v : Value} {xs : List Scalar} {m' : Machine}, v.Within (· < k) →
      m.Computed k xs m' → m'.value 1 v = m.value 1 v := fun hv h =>
    h.value_old (hv.mono fun i hi j _ => Nat.ne_of_lt (Nat.lt_of_lt_of_le hi (Nat.le_add_right k j)))
  have hstart := fun {xs m'} (h : m.Computed k xs m') => (hold hs h).trans hs0
  have hbound := fun {xs m'} (h : m.Computed k xs m') => (hold hb h).trans hb0
  have hconst : ∀ (m : Machine) (x : Int64),
      m.value 1 (.ofInt (.int w) x) = [.int (Word.signExtend x w)] := fun _ _ => rfl
  have ht6 : g.typeOf (.inst (k + 6)) = .int w := congrArg Instr.ty (hcode 6 _ rfl)
  have hlength : (c.mainBoundValues w width n0 nb hi).length = 12 := rfl
  suffices h : ∀ (j : Nat) (hj : j < (c.mainBoundValues w width n0 nb hi).length) m',
      m.Computed k ((c.mainBoundValues w width n0 nb hi).take j) m' →
      instr s g (k + j) m' =
        (.ok (), m'.setValue (k + j) [(c.mainBoundValues w width n0 nb hi)[j]]) by
    obtain ⟨m', hrun, hm'⟩ := exists_forM_of_computed hsize h
    exact ⟨m', _, hrun, hm', hlength, hm'.value_new (j := 11) rfl⟩
  intro j hj m' h
  match j, hj with
  | 0, _ => exact instr_cmp hw (hcode 0 _ rfl) hst (hstart h) (hbound h) (CmpOp.eval_ints hhi)
  | 1, _ =>
    exact instr_binary hw (hcode 1 _ rfl) (hbound h) (hstart h) (BinOp.eval_ints rfl)
  | 2, _ =>
    exact instr_binary hw (hcode 2 _ rfl) (h.value_new (j := 1) rfl) (hconst _ 1)
      (BinOp.eval_ints rfl)
  | 3, _ =>
    exact instr_binary hw (hcode 3 _ rfl) (h.value_new (j := 2) rfl) (hconst _ c.step)
      (BinOp.eval_ints rfl)
  | 4, _ =>
    exact instr_binary hw (hcode 4 _ rfl) (h.value_new (j := 3) rfl) (hconst _ 1)
      (BinOp.eval_ints rfl)
  | 5, _ =>
    refine (instr_select hw (hcode 5 _ rfl) (h.value_new (j := 0) rfl)
      (h.value_new (j := 4) rfl) (hconst _ 0)).trans ?_
    rw [choose_trip hhi]
    rfl
  | 6, _ =>
    exact instr_binary hw (hcode 6 _ rfl) (h.value_new (j := 5) rfl) (hconst _ width)
      (BinOp.eval_ints rfl)
  | 7, _ =>
    exact instr_binary hw (hcode 7 _ rfl) (h.value_new (j := 5) rfl) (h.value_new (j := 6) rfl)
      (BinOp.eval_ints rfl)
  | 8, _ =>
    exact instr_binary hw (hcode 8 _ rfl) (h.value_new (j := 7) rfl) (hconst _ c.step)
      (BinOp.eval_ints rfl)
  | 9, _ =>
    exact instr_binary hw (hcode 9 _ rfl) (hstart h) (h.value_new (j := 8) rfl)
      (BinOp.eval_ints rfl)
  | 10, _ =>
    exact instr_cmp hw (hcode 10 _ rfl) ht6 (h.value_new (j := 6) rfl) (hconst _ 0)
      (CmpOp.eval_ints rfl)
  | 11, _ =>
    refine (instr_select hw (hcode 11 _ rfl) (h.value_new (j := 10) rfl) (hbound h)
      (h.value_new (j := 9) rfl)).trans ?_
    rw [choose_mainEnd]
    rfl

end CountedLoop

end Lockstep
