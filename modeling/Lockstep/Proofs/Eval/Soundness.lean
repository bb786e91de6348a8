import Lockstep.Proofs.Eval.Rename
import Lockstep.Proofs.Func.Typed

/-!
# Runs of well-typed functions

`Run.Arrives` says where control gets to in a run, and with which machine. All values that a run of
a function computes have their types, if the types of its instructions go together, if its arguments
have theirs and if loads and calls, whose results come from outside the function, give values of
their types.
-/

namespace Lockstep

/-! ## Where a run gets to -/

namespace Run

/-- Control comes from one block to another with a machine. -/
inductive Arrives (s : Setup) (f : Func) (start : Machine) :
    Option BlockId → BlockId → Machine → Prop
  | entry : Arrives s f start none f.entry start
  | next {pred : Option BlockId} {b c : BlockId} {m m' : Machine}
      (h : Arrives s f start pred b m) (e : block s f pred b m = (.ok (.inl c), m')) :
      Arrives s f start (some b) c m'

/-- An operation is about to run, with a machine. -/
def Executes (s : Setup) (f : Func) (start : Machine) (i : InstId) (m : Machine) : Prop :=
  ∃ pred b ma mb before after, Arrives s f start pred b ma ∧
    phis s f pred b { ma with path := b :: ma.path } = (.ok (), mb) ∧
      f.nonPhis b = before ++ i :: after ∧ before.forM (instr s f) mb = (.ok (), m)

/-- Loads and calls give values of their types. -/
def OutsideTyped (s : Setup) (f : Func) (start : Machine) : Prop :=
  ∀ i m m', Executes s f start i m → (f.inst i).op.hasSideEffects = true →
    instr s f i m = (.ok (), m') → ∀ l, ((m'.value s.width (.inst i)).lane l).HasTy (f.inst i).ty

variable {s : Setup} {f : Func} {start m : Machine} {pred : Option BlockId} {b c : BlockId}

theorem target_of_wayOut {t : Terminator} {width : Nat}
    (h : wayOut width t b m = .ok (.inl c)) : c ∈ t.targets := by
  cases t with
  | unreachable | ret _ => cases h
  | br target =>
    cases h
    exact List.mem_singleton_self _
  | brIf cond onTrue onFalse =>
    unfold wayOut at h
    dsimp only at h
    split at h
    · cases h
    · cases h
    · rename_i taken _
      cases h
      cases taken
      · exact List.mem_cons_of_mem _ (List.mem_singleton_self _)
      · exact List.mem_cons_self

/-- Control leaves the function with the value that the block returns. -/
theorem ret_of_wayOut {t : Terminator} {width : Nat} {ret : Option Lanes}
    (h : wayOut width t b m = .ok (.inr ret)) :
    ∃ v, t = .ret v ∧ ret = v.map (m.value width) := by
  cases t with
  | ret v =>
    cases h
    exact ⟨v, rfl, rfl⟩
  | unreachable | br target => cases h
  | brIf cond onTrue onFalse =>
    unfold wayOut at h
    dsimp only at h
    split at h <;> cases h

theorem target_of_block {m' : Machine} (e : block s f pred b m = (.ok (.inl c), m')) :
    c ∈ (f.term b).targets := by
  obtain ⟨-, -, -, hway⟩ := block_eq_ok_iff.mp e
  exact target_of_wayOut hway

theorem Arrives.reachable (h : Arrives s f start pred b m) : f.Reachable b := by
  induction h with
  | entry => exact .refl _
  | next h e ih => exact ih.step (target_of_block e)

/-- Control comes along an edge. -/
theorem Arrives.mem_targets (h : Arrives s f start pred b m) :
    ∀ p, pred = some p → b ∈ (f.term p).targets := by
  cases h with
  | entry => nofun
  | next h e =>
    rintro _ ⟨⟩
    exact target_of_block e

end Run

/-! ## Typed machines -/

/-- All values have their types in all lanes. -/
structure Machine.Typed (f : Func) (m : Machine) : Prop where
  params : ∀ (k : Nat) xs, m.params[k]? = some xs → ∀ l, (xs.lane l).HasTy (f.typeOf (.param k))
  insts : ∀ (i : InstId) xs, m.values[i]? = some xs → ∀ l, (xs.lane l).HasTy (f.inst i).ty

theorem Lanes.hasTy_splat {x : Scalar} {ty : Ty} (h : x.HasTy ty) (width l : Nat) :
    ((Lanes.splat width x).lane l).HasTy ty := by
  unfold Lanes.lane Lanes.splat
  rw [List.getElem?_replicate]
  split
  · exact h
  · exact Scalar.hasTy_undefined ty

namespace Machine

variable {f : Func} {m : Machine}

theorem Typed.value (h : m.Typed f) {v : Value} (hv : v.IsTyped) (width l : Nat) :
    ((m.value width v).lane l).HasTy (f.typeOf v) := by
  cases v with
  | const c => exact Lanes.hasTy_splat hv width l
  | param k =>
    show ((m.params[k]?.getD _).lane l).HasTy _
    cases hk : m.params[k]? with
    | none => exact Lanes.hasTy_splat (Scalar.hasTy_undefined _) width l
    | some xs => exact h.params k xs hk l
  | inst i =>
    show ((m.values[i]?.getD _).lane l).HasTy _
    cases hi : m.values[i]? with
    | none => exact Lanes.hasTy_splat (Scalar.hasTy_undefined _) width l
    | some xs => exact h.insts i xs hi l

/-- The operands of an operation have their types. -/
theorem Typed.inputs (h : m.Typed f) {args : List Value} (hargs : ∀ v ∈ args, v.IsTyped)
    (width k l : Nat) : (Lanes.lane ((args.map (m.value width))[k]?.getD []) l).HasTy
      ((args.map f.typeOf)[k]?.getD .void) := by
  rw [List.getElem?_map, List.getElem?_map]
  cases hk : args[k]? with
  | none => exact Scalar.hasTy_undefined _
  | some v => exact h.value (hargs v (List.mem_of_getElem? hk)) width l

theorem Typed.setValue (h : m.Typed f) {i : InstId} {xs : Lanes}
    (hx : ∀ l, (xs.lane l).HasTy (f.inst i).ty) : (m.setValue i xs).Typed f where
  params := h.params
  insts j ys hj := by
    rw [getElem?_setValue] at hj
    split at hj
    · rename_i e
      cases hj
      rw [← e.1]
      exact hx
    · exact h.insts j ys hj

theorem Typed.ofEq {m' : Machine} (h : m.Typed f) (hp : m'.params = m.params)
    (hv : m'.values = m.values) : m'.Typed f where
  params k xs hk := h.params k xs (hp ▸ hk)
  insts i xs hi := h.insts i xs (hv ▸ hi)

theorem Typed.setPhis (h : m.Typed f) {new : List (InstId × Lanes)}
    (hnew : ∀ e ∈ new, ∀ l, (e.2.lane l).HasTy (f.inst e.1).ty) : (m.setPhis new).Typed f := by
  induction new generalizing m with
  | nil => exact h
  | cons e new ih =>
    exact ih (h.setValue (hnew e List.mem_cons_self)) fun e he =>
      hnew e (List.mem_cons_of_mem _ he)

end Machine

namespace Run

variable {s : Setup} {f : Func} {start m m' : Machine} {pred : Option BlockId} {b c : BlockId}

/-! ## Operations -/

theorem hasTy_lanewise {width : Nat} {i : InstId} {g : Nat → Except Unsupported Scalar} {xs : Lanes}
    {ty : Ty} (h : lanewise width i g m = (.ok xs, m')) (hg : ∀ l x, g l = .ok x → x.HasTy ty)
    (l : Nat) : (xs.lane l).HasTy ty := by
  unfold lanewise at h
  cases hm : (List.range width).mapM g with
  | error e =>
    rw [hm] at h
    cases h
  | ok ys =>
    rw [hm] at h
    cases h
    unfold Lanes.lane
    cases hx : xs[l]? with
    | none => exact Scalar.hasTy_undefined ty
    | some x =>
      obtain ⟨k, -, hk⟩ := exists_of_mem_mapM hm x (List.mem_of_getElem? hx)
      exact hg k x hk

theorem hasTy_map_range {width : Nat} {g : Nat → Scalar} {ty : Ty} (hg : ∀ l, (g l).HasTy ty)
    (l : Nat) : (Lanes.lane ((List.range width).map g) l).HasTy ty := by
  unfold Lanes.lane
  cases hx : ((List.range width).map g)[l]? with
  | none => exact Scalar.hasTy_undefined ty
  | some x =>
    obtain ⟨k, -, rfl⟩ := List.mem_map.mp (List.mem_of_getElem? hx)
    exact hg k

/-- An operation on operands of the right types gives a value of its type, if it does not come from
outside. -/
theorem hasTy_operation {i : InstId} {code : Opcode} {inputs : List Lanes} {source ty : Ty}
    {tys : List Ty} {active : Nat → Bool} {xs : Lanes}
    (h : operation s i code inputs source ty active m = (.ok xs, m'))
    (ht : code.TypesAgree tys ty) (hs : source = tys[0]?.getD .void)
    (hin : ∀ k l : Nat, (Lanes.lane (inputs[k]?.getD []) l).HasTy (tys[k]?.getD .void))
    (he : code.hasSideEffects = false) (l : Nat) : (xs.lane l).HasTy ty := by
  unfold operation at h
  cases code with
  | binary op =>
    obtain rfl : tys = [ty, ty] := ht
    exact hasTy_lanewise h (fun k x hx => BinOp.hasTy_eval (hin 0 k) (hin 1 k) hx) l
  | cmp op =>
    obtain ⟨s, rfl, hty⟩ := ht
    refine hasTy_lanewise h (fun k x hx => ?_) l
    by_cases hp : ty.IsPlain
    · rw [hty hp]
      exact CmpOp.hasTy_eval hx
    · exact Scalar.hasTy_of_not_isPlain hp x
  | select =>
    obtain ⟨c, rfl⟩ := ht
    cases h
    exact hasTy_map_range (fun k => Scalar.hasTy_choose (hin 1 k) (hin 2 k)) l
  | cast op =>
    obtain ⟨s, rfl, hop⟩ := ht
    refine hasTy_lanewise h (fun k x hx => ?_) l
    rw [hs] at hx
    exact CastOp.hasTy_eval hop (hin 0 k) hx
  | ptrOffset =>
    obtain ⟨s, rfl, hty⟩ := ht
    cases h
    refine hasTy_map_range (fun k => ?_) l
    by_cases hp : ty.IsPlain
    · cases ty with
      | ptr e => exact Scalar.hasTy_addOffset _ _ e
      | _ => cases hty hp
    · exact Scalar.hasTy_of_not_isPlain hp _
  | load | store | call _ => cases he
  | extractElement | insertElement | shuffleVector | extractValue _ | insertValue _ => cases h

theorem instr_eq_ok {i : InstId} (h : instr s f i m = (.ok (), m')) :
    ∃ code args xs m1, (f.inst i).op = .apply code args ∧
      operation s i code (args.map (m.value s.width)) (f.typeOf ((f.inst i).input 0)) (f.inst i).ty
        (active s.width m (f.inst i).mask) m = (.ok xs, m1) ∧
      m.Beside m m1 m1 ∧ m' = m1.setValue i xs := by
  obtain ⟨code, args, hop⟩ := op_of_instr_eq_ok h
  rw [instr_apply hop] at h
  obtain ⟨xs, m1, hx, h⟩ := exists_of_bind_run_eq_ok h
  cases h
  exact ⟨code, args, xs, m1, hop, hx, beside_of_operation hx, rfl⟩

theorem typeOf_input_zero {i : InstId} {code : Opcode} {args : List Value}
    (hop : (f.inst i).op = .apply code args) :
    f.typeOf ((f.inst i).input 0) = (args.map f.typeOf)[0]?.getD .void := by
  unfold Instr.input
  rw [inputs_of_op hop, List.getElem?_map]
  cases args[0]? <;> rfl

/-- An operation leaves a typed machine typed. -/
theorem typed_instr {i : InstId} (hi : (f.inst i).TypesAgree f) (hm : m.Typed f)
    (h : instr s f i m = (.ok (), m'))
    (hout : (f.inst i).op.hasSideEffects = true →
      ∀ l, ((m'.value s.width (.inst i)).lane l).HasTy (f.inst i).ty) : m'.Typed f := by
  obtain ⟨code, args, xs, m1, hop, hx, hb, rfl⟩ := instr_eq_ok h
  have hm1 : m1.Typed f := hm.ofEq hb.params hb.values
  by_cases hlt : i < m1.values.size
  · refine hm1.setValue ?_
    cases he : code.hasSideEffects with
    | true =>
      have hv : (m1.setValue i xs).value s.width (.inst i) = xs := by
        show ((m1.setValue i xs).values[i]?).getD _ = _
        rw [Machine.getElem?_setValue, if_pos ⟨rfl, hlt⟩]
        rfl
      rw [hv] at hout
      exact hout (by rw [hop]; exact he)
    | false =>
      have hargs : ∀ v ∈ args, v.IsTyped := fun v hv =>
        hi.inputs v (by rw [inputs_of_op hop]; exact hv)
      exact hasTy_operation hx (hi.apply code args hop) (typeOf_input_zero hop)
        (hm.inputs hargs s.width) he
  · have e : m1.setValue i xs = m1 := by
      unfold Machine.setValue
      rw [Array.setIfInBounds_eq_of_size_le (Nat.le_of_not_lt hlt)]
    rw [e]
    exact hm1

/-! ## Runs -/

theorem forM_append_eq_ok {l l' : List InstId} :
    (l ++ l').forM (instr s f) m = (.ok (), m') ↔
      ∃ m1, l.forM (instr s f) m = (.ok (), m1) ∧ l'.forM (instr s f) m1 = (.ok (), m') := by
  induction l generalizing m with
  | nil =>
    constructor
    · exact fun h => ⟨m, rfl, h⟩
    · rintro ⟨m1, h1, h⟩
      cases h1
      exact h
  | cons i l ih =>
    show (instr s f i >>= fun _ => (l ++ l').forM (instr s f)) m = _ ↔
      ∃ m1, (instr s f i >>= fun _ => l.forM (instr s f)) m = _ ∧ _
    constructor
    · intro h
      obtain ⟨_, m1, h1, h⟩ := exists_of_bind_run_eq_ok h
      obtain ⟨m2, h2, h3⟩ := ih.mp h
      exact ⟨m2, by rw [bind_run_eq h1]; exact h2, h3⟩
    · rintro ⟨m2, h2, h3⟩
      obtain ⟨_, m1, h1, h2⟩ := exists_of_bind_run_eq_ok h2
      rw [bind_run_eq h1]
      exact ih.mpr ⟨m2, h2, h3⟩

theorem op_of_mem_incoming {d : Instr} {e : BlockId × Value} (h : e ∈ d.incoming) :
    ∃ incoming, d.op = .phi incoming ∧ e ∈ incoming := by
  unfold Instr.incoming at h
  split at h
  · exact ⟨_, ‹_›, h⟩
  · cases h

/-- What a phi takes is one of its inputs. -/
theorem mem_inputs_of_incomingValue? {phi : InstId} {q : BlockId} {v : Value}
    (h : f.incomingValue? phi q = some v) : v ∈ (f.inst phi).inputs := by
  obtain ⟨incoming, hop, hmem⟩ := op_of_mem_incoming (Func.mem_incoming h)
  rw [Instr.inputs, hop]
  exact List.mem_map_of_mem hmem

/-- Phis leave a typed machine typed. -/
theorem typed_phis (hf : f.TypesAgree) (hm : m.Typed f) (h : phis s f pred b m = (.ok (), m')) :
    m'.Typed f := by
  obtain ⟨new, hnew, rfl⟩ := phis_eq_ok_iff.mp h
  refine hm.setPhis fun e he l => ?_
  have hphi : e.1 ∈ f.phis b := by
    rw [← map_fst_of_incoming hnew]
    exact List.mem_map_of_mem he
  obtain ⟨phi, -, v, hv, rfl⟩ := exists_mem_of_forall₂ hnew he
  obtain ⟨p, -, hv⟩ := Option.bind_eq_some_iff.mp hv
  have ht := hf b phi (Func.mem_body_of_mem_phis hphi)
  obtain ⟨incoming, hop, hmem⟩ := op_of_mem_incoming (Func.mem_incoming hv)
  have hty := ht.phi incoming hop _ hmem
  show ((m.value s.width v).lane l).HasTy (f.inst phi).ty
  rw [← hty]
  exact hm.value (ht.inputs v (mem_inputs_of_incomingValue? hv)) s.width l

/-- After some operations of a block a machine is still typed. -/
theorem typed_before (hf : f.TypesAgree) (ho : OutsideTyped s f start)
    (ha : Arrives s f start pred b m) (hm : m.Typed f) {m1 : Machine}
    (hp : phis s f pred b { m with path := b :: m.path } = (.ok (), m1))
    {before after : List InstId} (e : f.nonPhis b = before ++ after)
    (h : before.forM (instr s f) m1 = (.ok (), m')) : m'.Typed f := by
  induction before using List.reverseRecOn generalizing after m' with
  | nil =>
    cases h
    have hm : ({ m with path := b :: m.path } : Machine).Typed f := hm.ofEq rfl rfl
    exact typed_phis hf hm hp
  | append_singleton before i ih =>
    rw [List.append_assoc] at e
    obtain ⟨m2, h2, h3⟩ := forM_append_eq_ok.mp h
    have h3 : instr s f i m2 = (.ok (), m') := by
      obtain ⟨_, m3, h3, h4⟩ := exists_of_bind_run_eq_ok h3
      cases h4
      exact h3
    have hi : i ∈ f.body b := Func.mem_body_of_mem_nonPhis (by rw [e]; simp)
    refine typed_instr (hf b i hi) (ih e h2) h3 fun he => ?_
    exact ho i m2 m' ⟨pred, b, m, m1, before, after, ha, hp, e, h2⟩ he h3

/-- All machines of a run are typed. -/
theorem Arrives.typed (hf : f.TypesAgree) (ho : OutsideTyped s f start) (hs : start.Typed f)
    (h : Arrives s f start pred b m) : m.Typed f := by
  induction h with
  | entry => exact hs
  | next h e ih =>
    obtain ⟨m1, h1, h2, -⟩ := block_eq_ok_iff.mp e
    exact typed_before hf ho h ih h1 (List.append_nil _).symm h2

/-! ## What is executed -/

/-- Whether `p` holds of each of some operations and of the machine with which it runs. -/
def holdsOfInstrs (p : InstId → Machine → Bool) (s : Setup) (f : Func) :
    List InstId → Machine → Bool
  | [], _ => true
  | i :: l, m => p i m && match instr s f i m with
    | (.ok _, m') => holdsOfInstrs p s f l m'
    | (.error _, _) => true

/-- Whether `p` holds of each operation that is executed, and of the machine with which it runs. Says
no if control has not left the function when the steps are used up. -/
def holdsOfBlocks (p : InstId → Machine → Bool) (s : Setup) (f : Func) :
    (steps : Nat) → (pred : Option BlockId) → BlockId → Machine → Bool
  | 0, _, _, _ => false
  | steps + 1, pred, b, m =>
    (match phis s f pred b { m with path := b :: m.path } with
      | (.ok _, m') => holdsOfInstrs p s f (f.nonPhis b) m'
      | (.error _, _) => true) &&
    match block s f pred b m with
    | (.ok (.inl c), m') => holdsOfBlocks p s f steps (some b) c m'
    | _ => true

variable {p : InstId → Machine → Bool}

theorem holdsOfInstrs_of_append {before l : List InstId} (h : holdsOfInstrs p s f (before ++ l) m = true)
    (e : before.forM (instr s f) m = (.ok (), m')) : holdsOfInstrs p s f l m' = true := by
  induction before generalizing m with
  | nil =>
    cases e
    exact h
  | cons i before ih =>
    obtain ⟨_, m1, e1, e⟩ := exists_of_bind_run_eq_ok e
    have h := (Bool.and_eq_true_iff.mp h).2
    rw [e1] at h
    exact ih h e

theorem holdsOfInstrs_append {before l : List InstId} (h : holdsOfInstrs p s f before m = true)
    (e : before.forM (instr s f) m = (.ok (), m')) (h' : holdsOfInstrs p s f l m' = true) :
    holdsOfInstrs p s f (before ++ l) m = true := by
  induction before generalizing m with
  | nil =>
    cases e
    exact h'
  | cons i before ih =>
    obtain ⟨_, m1, e1, e⟩ := exists_of_bind_run_eq_ok e
    obtain ⟨hi, h⟩ := Bool.and_eq_true_iff.mp h
    rw [e1] at h
    refine Bool.and_eq_true_iff.mpr ⟨hi, ?_⟩
    rw [e1]
    exact ih h e

/-- Wherever control gets to, `p` holds from there on. -/
theorem Arrives.holdsOfBlocks {steps : Nat}
    (h : Run.holdsOfBlocks p s f steps none f.entry start = true) (ha : Arrives s f start pred b m) :
    ∃ steps, Run.holdsOfBlocks p s f steps pred b m = true := by
  induction ha with
  | entry => exact ⟨steps, h⟩
  | next _ e ih =>
    obtain ⟨steps, ih⟩ := ih
    cases steps with
    | zero => cases ih
    | succ steps =>
      have hnext := (Bool.and_eq_true_iff.mp ih).2
      rw [e] at hnext
      exact ⟨steps, hnext⟩

theorem Executes.holds {steps : Nat} (h : holdsOfBlocks p s f steps none f.entry start = true)
    {i : InstId} (hx : Executes s f start i m) : p i m = true := by
  obtain ⟨pred, b, ma, mb, before, after, ha, hphis, hl, hbefore⟩ := hx
  obtain ⟨steps, h⟩ := ha.holdsOfBlocks h
  cases steps with
  | zero => cases h
  | succ steps =>
    have hinstrs := (Bool.and_eq_true_iff.mp h).1
    rw [hphis] at hinstrs
    dsimp only at hinstrs
    rw [hl] at hinstrs
    exact (Bool.and_eq_true_iff.mp (holdsOfInstrs_of_append hinstrs hbefore)).1

end Run

end Lockstep
