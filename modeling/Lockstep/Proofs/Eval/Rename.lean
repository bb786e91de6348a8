import Lockstep.Proofs.Eval.Effects
import Lockstep.Proofs.Func.WellFormed

/-!
# Running copies of instructions

Instructions are copied under a renaming `ρ`: the copy of `i` is `ρ i`, and uses the copies of what
`i` uses. Machines agree on a set of instructions if each of these has the value that its copy has,
and if parameters, memory and calls are the same. If machines agree on what an instruction uses,
then they still agree after the instruction has run in one of them and its copy in the other
(`simulates_instr`), and agree on the instruction as well. Sequences of instructions, the phis of a
block and its terminator follow.
-/

namespace Lockstep

/-- The value that stands for a value after a renaming of instructions. -/
def Value.rename (ρ : InstId → InstId) : Value → Value
  | .inst i => .inst (ρ i)
  | v => v

@[simp] theorem Value.rename_id (v : Value) : v.rename id = v := by
  cases v <;> rfl

theorem Value.Within.rename {P Q : InstId → Prop} {ρ : InstId → InstId} {v : Value} (h : v.Within P)
    (hs : ∀ i, P i → Q (ρ i)) : (v.rename ρ).Within Q := by
  cases v with
  | inst i => exact hs i h
  | const _ | param _ => trivial

/-- A renaming of the instructions of a function to those of another. -/
structure Renaming (f g : Func) (ρ : InstId → InstId) : Prop where
  params : g.params = f.params
  lt : ∀ i < f.insts.size, ρ i < g.insts.size
  injective : ∀ i < f.insts.size, ∀ j < f.insts.size, ρ i = ρ j → i = j
  ty : ∀ i < f.insts.size, (g.inst (ρ i)).ty = (f.inst i).ty

theorem Renaming.typeOf {f g : Func} {ρ : InstId → InstId} (h : Renaming f g ρ) {v : Value}
    (hv : f.Defines v) : g.typeOf (v.rename ρ) = f.typeOf v := by
  cases v with
  | const c => rfl
  | param k =>
    show g.params[k]?.getD .void = f.params[k]?.getD .void
    rw [h.params]
  | inst i => exact h.ty i hv

/-- The copy of an operation does the same to the copies of its operands. -/
structure Copied (f g : Func) (ρ : InstId → InstId) (i : InstId) : Prop where
  op : ∀ code args, (f.inst i).op = .apply code args →
    (g.inst (ρ i)).op = .apply code (args.map (·.rename ρ))
  mask : (g.inst (ρ i)).mask = (f.inst i).mask.map (·.rename ρ)

namespace Machine

/-- Instructions in `S` have the values of their copies. -/
structure Agrees (f g : Func) (ρ : InstId → InstId) (S : InstId → Prop) (m m' : Machine) :
    Prop where
  size : m.values.size = f.insts.size
  size' : m'.values.size = g.insts.size
  within : ∀ i, S i → i < f.insts.size
  params : m'.params = m.params
  memory : m'.memory = m.memory
  callLog : m'.callLog = m.callLog
  values : ∀ i, S i → m'.values[ρ i]? = m.values[i]?

variable {f g : Func} {ρ : InstId → InstId} {S S' : InstId → Prop} {m m' : Machine}

theorem Agrees.value (h : Agrees f g ρ S m m') {v : Value} (hv : v.Within S) (width : Nat) :
    m'.value width (v.rename ρ) = m.value width v := by
  cases v with
  | const c => rfl
  | param k =>
    show m'.params[k]?.getD _ = m.params[k]?.getD _
    rw [h.params]
  | inst i =>
    show m'.values[ρ i]?.getD _ = m.values[i]?.getD _
    rw [h.values i hv]

theorem Agrees.value_id (h : Agrees f g id S m m') {v : Value} (hv : v.Within S) (width : Nat) :
    m'.value width v = m.value width v := by
  have hvalue := h.value hv width
  rwa [Value.rename_id] at hvalue

/-- Machines agree on fewer instructions. -/
theorem Agrees.mono (h : Agrees f g ρ S m m') (hs : ∀ i, S' i → S i) : Agrees f g ρ S' m m' where
  size := h.size
  size' := h.size'
  within i hi := h.within i (hs i hi)
  params := h.params
  memory := h.memory
  callLog := h.callLog
  values i hi := h.values i (hs i hi)

/-- The names of the copies matter only for the instructions on which machines agree. -/
theorem Agrees.congr {ρ' : InstId → InstId} (h : Agrees f g ρ S m m') (hρ : ∀ i, S i → ρ' i = ρ i) :
    Agrees f g ρ' S m m' where
  size := h.size
  size' := h.size'
  within := h.within
  params := h.params
  memory := h.memory
  callLog := h.callLog
  values i hi := by rw [hρ i hi]; exact h.values i hi

theorem getElem?_setValue (m : Machine) (i j : InstId) (xs : Lanes) :
    (m.setValue i xs).values[j]? =
      if i = j ∧ i < m.values.size then some xs else m.values[j]? := by
  show (m.values.setIfInBounds i xs)[j]? = _
  rw [Array.getElem?_setIfInBounds]
  by_cases h : i = j
  · subst h
    by_cases hi : i < m.values.size
    · simp [hi]
    · simp [hi]
  · simp [h]

@[simp] theorem size_setValue (m : Machine) (i : InstId) (xs : Lanes) :
    (m.setValue i xs).values.size = m.values.size := Array.size_setIfInBounds

/-- Values set on both sides. -/
theorem Agrees.setValue (hρ : Renaming f g ρ) (h : Agrees f g ρ S m m') {i : InstId}
    (hi : i < f.insts.size) (xs : Lanes) :
    Agrees f g ρ (fun j => S j ∨ j = i) (m.setValue i xs) (m'.setValue (ρ i) xs) where
  size := by rw [size_setValue, h.size]
  size' := by rw [size_setValue, h.size']
  within j hj := by
    rcases hj with hj | rfl
    · exact h.within j hj
    · exact hi
  params := h.params
  memory := h.memory
  callLog := h.callLog
  values j hj := by
    rw [getElem?_setValue, getElem?_setValue, h.size, h.size']
    by_cases hij : i = j
    · subst hij
      rw [if_pos ⟨rfl, hρ.lt i hi⟩, if_pos ⟨rfl, hi⟩]
    · have hj : S j := hj.resolve_right fun e => hij e.symm
      have hne : ρ i ≠ ρ j := fun e => hij (hρ.injective i hi j (h.within j hj) e)
      rw [if_neg fun e => hne e.1, if_neg fun e => hij e.1]
      exact h.values j hj

/-- A value set on one side, of an instruction that is no copy. -/
theorem Agrees.setValue_right (h : Agrees f g ρ S m m') {k : InstId} (hk : ∀ i, S i → ρ i ≠ k)
    (xs : Lanes) : Agrees f g ρ S m (m'.setValue k xs) where
  size := h.size
  size' := by rw [size_setValue, h.size']
  within := h.within
  params := h.params
  memory := h.memory
  callLog := h.callLog
  values i hi := by
    rw [getElem?_setValue, if_neg fun e => hk i hi e.1.symm]
    exact h.values i hi

theorem Agrees.ofBeside {n n' : Machine} (h : Agrees f g ρ S n n') (hb : n.Beside n' m m') :
    Agrees f g ρ S m m' where
  size := by rw [hb.values, h.size]
  size' := by rw [hb.values', h.size']
  within := h.within
  params := by rw [hb.params, hb.params', h.params]
  memory := hb.memory
  callLog := hb.callLog
  values i hi := by rw [hb.values, hb.values']; exact h.values i hi

end Machine

namespace Run

variable {f g : Func} {ρ : InstId → InstId} {S : InstId → Prop} {s s' : Setup}

/-! ## Operations -/

/-- The lanes that take part in an instruction. -/
def active (width : Nat) (m : Machine) (mask : Option Value) (l : Nat) : Bool :=
  (mask.map (m.value width)).all fun xs => (xs.lane l).isTrue

theorem instr_apply {i : InstId} {code : Opcode} {args : List Value}
    (h : (f.inst i).op = .apply code args) (m : Machine) :
    instr s f i m = (operation s i code (args.map (m.value s.width))
      (f.typeOf ((f.inst i).input 0)) (f.inst i).ty (active s.width m (f.inst i).mask) >>= fun xs =>
        modify fun m => m.setValue i xs) m := by
  unfold instr
  refine (bind_run_eq rfl).trans ?_
  rw [h]
  rfl

theorem op_of_instr_eq_ok {i : InstId} {m m1 : Machine} (h : instr s f i m = (.ok (), m1)) :
    ∃ code args, (f.inst i).op = .apply code args := by
  cases hop : (f.inst i).op with
  | apply code args => exact ⟨code, args, rfl⟩
  | phi incoming =>
    unfold instr at h
    obtain ⟨a, s1, ha, h⟩ := exists_of_bind_run_eq_ok h
    dsimp only at h
    rw [hop] at h
    cases h

theorem inputs_of_op {d : Instr} {code : Opcode} {args : List Value}
    (h : d.op = .apply code args) : d.inputs = args := by
  unfold Instr.inputs
  rw [h]
  rfl

/-- Instructions with the same operation do the same from the same inputs. -/
theorem exists_instr_of_inputs (hs : s.Alike s') {i i' : InstId} (hu : s.CallsAlike s' i i')
    {code : Opcode} {args args' : List Value} (hop : (f.inst i).op = .apply code args)
    (hop' : (g.inst i').op = .apply code args') (hty : (g.inst i').ty = (f.inst i).ty)
    {m m' m1 : Machine} (hmem : m'.memory = m.memory) (hcalls : m'.callLog = m.callLog)
    (hinputs : args'.map (m'.value s.width) = args.map (m.value s.width))
    (hsource : g.typeOf ((g.inst i').input 0) = f.typeOf ((f.inst i).input 0))
    (hactive : active s.width m' (g.inst i').mask = active s.width m (f.inst i).mask)
    (e : instr s f i m = (.ok (), m1)) :
    ∃ xs n n', m.Beside m' n n' ∧ m1 = n.setValue i xs ∧
      instr s' g i' m' = (.ok (), n'.setValue i' xs) := by
  rw [instr_apply hop] at e
  obtain ⟨xs, n, hx, e⟩ := exists_of_bind_run_eq_ok e
  cases e
  obtain ⟨ys, n', hy, rfl, hb⟩ := simulates_operation hs hu code _ _ _ _ m m' m m' xs n
    (.refl hmem hcalls) hx
  refine ⟨ys, n, n', hb, rfl, ?_⟩
  rw [instr_apply hop', hs.width, hinputs, hsource, hty, hactive]
  exact bind_run_eq hy

/-- Instructions with the same operation do the same from operands that have the same values. -/
theorem exists_instr_of_values (hs : s.Alike s') {i i' : InstId} (hu : s.CallsAlike s' i i')
    {σ : Value → Value} {code : Opcode} {args : List Value} (hop : (f.inst i).op = .apply code args)
    (hop' : (g.inst i').op = .apply code (args.map σ))
    (hmask : (g.inst i').mask = (f.inst i).mask.map σ) (hty : (g.inst i').ty = (f.inst i).ty)
    {m m' m1 : Machine} (hmem : m'.memory = m.memory) (hcalls : m'.callLog = m.callLog)
    (hvalue : ∀ v ∈ (f.inst i).uses, m'.value s.width (σ v) = m.value s.width v)
    (htypeOf : ∀ v ∈ (f.inst i).inputs, g.typeOf (σ v) = f.typeOf v)
    (e : instr s f i m = (.ok (), m1)) :
    ∃ xs n n', m.Beside m' n n' ∧ m1 = n.setValue i xs ∧
      instr s' g i' m' = (.ok (), n'.setValue i' xs) := by
  have hargs := inputs_of_op hop
  have hinputs : (args.map σ).map (m'.value s.width) = args.map (m.value s.width) := by
    rw [List.map_map]
    exact List.map_congr_left fun v hv => hvalue v (List.mem_append_left _ (hargs ▸ hv))
  have hsource : g.typeOf ((g.inst i').input 0) = f.typeOf ((f.inst i).input 0) := by
    unfold Instr.input
    rw [hargs, inputs_of_op hop', List.getElem?_map]
    cases h0 : args[0]? with
    | none => rfl
    | some v => exact htypeOf v (hargs ▸ List.mem_of_getElem? h0)
  have hactive : active s.width m' (g.inst i').mask = active s.width m (f.inst i).mask := by
    funext l
    unfold active
    rw [hmask, Option.map_map]
    refine congrArg (Option.all _) (Option.map_congr fun v hv => ?_)
    exact hvalue v (List.mem_append_right _ (Option.mem_toList.mpr hv))
  exact exists_instr_of_inputs hs hu hop hop' hty hmem hcalls hinputs hsource hactive e

/-- An instruction does what its copy does, if they use the same. -/
theorem simulates_instr (hs : s.Alike s') (hρ : Renaming f g ρ) {i : InstId}
    (hi : i < f.insts.size) (hcalls : s.CallsAlike s' i (ρ i)) (hc : Copied f g ρ i)
    (hu : ∀ v ∈ (f.inst i).uses, v.Within S) (hin : ∀ v ∈ (f.inst i).inputs, f.Defines v) :
    Simulates (Machine.Agrees f g ρ S) (instr s f i) (instr s' g (ρ i))
      fun _ _ => Machine.Agrees f g ρ fun j => S j ∨ j = i := by
  intro m m' a m1 hm e
  obtain ⟨code, args, hop⟩ := op_of_instr_eq_ok e
  obtain ⟨xs, n, n', hb, rfl, h⟩ := exists_instr_of_values hs hcalls hop (hc.op code args hop)
    hc.mask (hρ.ty i hi) hm.memory hm.callLog (fun v hv => hm.value (hu v hv) s.width)
    (fun v hv => hρ.typeOf (hin v hv)) e
  exact ⟨(), _, h, (hm.ofBeside hb).setValue hρ hi xs⟩

/-- Operations in a row do what their copies do. -/
theorem simulates_instrs (hs : s.Alike s') (hρ : Renaming f g ρ)
    (hf : f.Coherent) {l : List InstId} (hcalls : ∀ i ∈ l, s.CallsAlike s' i (ρ i))
    (hl : ∀ i ∈ l, i < f.insts.size ∧ Copied f g ρ i)
    (hu : ∀ pre i post, l = pre ++ i :: post →
      ∀ v ∈ (f.inst i).uses, v.Within fun j => S j ∨ j ∈ pre) :
    Simulates (Machine.Agrees f g ρ S) (l.forM (instr s f)) ((l.map ρ).forM (instr s' g))
      fun _ _ => Machine.Agrees f g ρ fun j => S j ∨ j ∈ l := by
  induction l generalizing S with
  | nil => exact Simulates.pure fun _ _ h => h.mono fun i hi => hi.resolve_right List.not_mem_nil
  | cons i l ih =>
    obtain ⟨hi, hc⟩ := hl i List.mem_cons_self
    show Simulates _ (instr s f i >>= fun _ => l.forM (instr s f))
      (instr s' g (ρ i) >>= fun _ => (l.map ρ).forM (instr s' g)) _
    have hfirst : ∀ v ∈ (f.inst i).uses, v.Within S := fun v hv =>
      (hu [] i l rfl v hv).mono fun j hj => hj.resolve_right List.not_mem_nil
    have hi' := simulates_instr hs hρ hi (hcalls i List.mem_cons_self) hc hfirst (hf.inputs i)
    refine Simulates.bind hi' fun _ _ => ?_
    refine (ih (fun j hj => hcalls j (List.mem_cons_of_mem _ hj))
      (fun j hj => hl j (List.mem_cons_of_mem _ hj)) fun pre j post e v hv => ?_).mono
      (fun _ _ h => h) fun _ _ _ _ h => h.mono fun j hj => ?_
    · refine (hu (i :: pre) j post (by rw [e]; rfl) v hv).mono fun k hk => ?_
      rcases hk with hk | hk
      · exact .inl (.inl hk)
      · rcases List.mem_cons.mp hk with rfl | hk
        · exact .inl (.inr rfl)
        · exact .inr hk
    · rcases hj with hj | hj
      · exact .inl (.inl hj)
      · rcases List.mem_cons.mp hj with rfl | hj
        · exact .inl (.inr rfl)
        · exact .inr hj

end Run

/-! ## Phis -/

/-- Sets the values of the phis of a block. -/
def Machine.setPhis (m : Machine) (new : List (InstId × Lanes)) : Machine :=
  new.foldl (fun m (phi, xs) => m.setValue phi xs) m

theorem Machine.Agrees.setPhis {f g : Func} {ρ : InstId → InstId} {S : InstId → Prop}
    {m m' : Machine} (hρ : Renaming f g ρ) (h : Agrees f g ρ S m m') (new : List (InstId × Lanes))
    (hlt : ∀ e ∈ new, e.1 < f.insts.size) :
    Agrees f g ρ (fun j => S j ∨ j ∈ new.map Prod.fst) (m.setPhis new)
      (m'.setPhis (new.map fun e => (ρ e.1, e.2))) := by
  induction new generalizing S m m' with
  | nil => exact h.mono fun i hi => hi.resolve_right List.not_mem_nil
  | cons e new ih =>
    refine (ih (h.setValue hρ (hlt e List.mem_cons_self) e.2)
      fun e he => hlt e (List.mem_cons_of_mem _ he)).mono fun j hj => ?_
    rcases hj with hj | hj
    · exact .inl (.inl hj)
    · rcases List.mem_cons.mp hj with rfl | hj
      · exact .inl (.inr rfl)
      · exact .inr hj

namespace Run

variable {f g : Func} {ρ : InstId → InstId} {S : InstId → Prop} {s s' : Setup}

/-- What the phis of a block become on entry from `pred`. -/
def Incoming (s : Setup) (f : Func) (pred : Option BlockId) (m : Machine) (phi : InstId)
    (e : InstId × Lanes) : Prop :=
  ∃ v, pred.bind (f.incomingValue? phi) = some v ∧ e = (phi, m.value s.width v)

/-- What reading the incoming value of a phi gives. -/
theorem phi_eq_ok_iff {pred : Option BlockId} {phi : InstId} {m m1 : Machine}
    {e : InstId × Lanes} :
    ((match pred.bind (f.incomingValue? phi) with
      | some v => return (phi, m.value s.width v)
      | none => throw (EvalError.missingIncoming phi pred)) : Run (InstId × Lanes)) m = (.ok e, m1) ↔
        Incoming s f pred m phi e ∧ m1 = m := by
  unfold Incoming
  cases pred.bind (f.incomingValue? phi) with
  | none =>
    constructor
    · intro h
      cases h
    · rintro ⟨⟨v, h, -⟩, -⟩
      cases h
  | some v =>
    constructor
    · intro h
      cases h
      exact ⟨⟨v, rfl, rfl⟩, rfl⟩
    · rintro ⟨⟨v', h, rfl⟩, rfl⟩
      cases h
      rfl

theorem phis_eq_ok_iff {pred : Option BlockId} {b : BlockId} {m m1 : Machine} :
    phis s f pred b m = (.ok (), m1) ↔
      ∃ new, List.Forall₂ (Incoming s f pred m) (f.phis b) new ∧ m1 = m.setPhis new := by
  unfold phis
  constructor
  · intro h
    obtain ⟨m0, s0, h0, h1⟩ := exists_of_bind_run_eq_ok h
    cases h0
    obtain ⟨new, s1, hnew, h2⟩ := exists_of_bind_run_eq_ok h1
    obtain ⟨hnew, e⟩ := (mapM_run_eq_ok_iff fun x _ y m1 h => (phi_eq_ok_iff.mp h).2).mp hnew
    subst e
    cases h2
    exact ⟨new, hnew.imp fun x y h => (phi_eq_ok_iff.mp h).1, rfl⟩
  · rintro ⟨new, hnew, rfl⟩
    have hmap := (mapM_run_eq_ok_iff fun x _ y m1 h => (phi_eq_ok_iff.mp h).2).mpr
      ⟨hnew.imp fun x y h => phi_eq_ok_iff.mpr ⟨h, rfl⟩, rfl⟩
    exact (bind_run_eq rfl).trans (bind_run_eq hmap)

theorem map_fst_of_incoming {pred : Option BlockId} {m : Machine} {l : List InstId}
    {new : List (InstId × Lanes)} (h : List.Forall₂ (Incoming s f pred m) l new) :
    new.map Prod.fst = l := by
  induction h with
  | nil => rfl
  | cons he _ ih =>
    obtain ⟨v, -, rfl⟩ := he
    rw [List.map_cons, ih]

/-- The phis of a block become what their copies become, if the edges on which control comes
give the same values. -/
theorem exists_run_phis (hs : s.Alike s') (hρ : Renaming f g ρ) {b b' : BlockId}
    {pred pred' : Option BlockId} (hb : g.phis b' = (f.phis b).map ρ)
    (hlt : ∀ phi ∈ f.phis b, phi < f.insts.size) {m m' m1 : Machine}
    (hin : ∀ phi ∈ f.phis b, ∀ v, pred.bind (f.incomingValue? phi) = some v →
      ∃ v', pred'.bind (g.incomingValue? (ρ phi)) = some v' ∧
        m'.value s.width v' = m.value s.width v)
    (hm : m.Agrees f g ρ S m') (e : phis s f pred b m = (.ok (), m1)) :
    ∃ m1', phis s' g pred' b' m' = (.ok (), m1') ∧
      m1.Agrees f g ρ (fun j => S j ∨ j ∈ f.phis b) m1' := by
  obtain ⟨new, hnew, rfl⟩ := phis_eq_ok_iff.mp e
  have hfst := map_fst_of_incoming hnew
  refine ⟨m'.setPhis (new.map fun e => (ρ e.1, e.2)), phis_eq_ok_iff.mpr ⟨_, ?_, rfl⟩, ?_⟩
  · rw [hb]
    refine List.forall₂_map_left_iff.mpr (List.forall₂_map_right_iff.mpr ?_)
    refine ((List.forall₂_and_left _ _).mpr ⟨hin, hnew⟩).imp ?_
    rintro phi e ⟨hphi, v, hv, rfl⟩
    obtain ⟨v', hv', hval⟩ := hphi v hv
    exact ⟨v', hv', by rw [hs.width, hval]⟩
  · have h := hm.setPhis hρ new fun e he =>
      hlt e.1 (by rw [← hfst]; exact List.mem_map_of_mem he)
    rw [hfst] at h
    exact h

/-! ## Blocks -/

/-- Where control goes at the end of a block. -/
def wayOut (width : Nat) (t : Terminator) (b : BlockId) (m : Machine) :
    Except EvalError (BlockId ⊕ Option Lanes) :=
  match t with
  | .unreachable => .error (.unreachable b)
  | .ret v => .ok (.inr (v.map (m.value width)))
  | .br target => .ok (.inl target)
  | .brIf cond onTrue onFalse =>
    match agree (m.value width cond) with
    | none => .error (.divergentBranch b)
    | some none => .error (.undefBranch b)
    | some (some taken) => .ok (.inl (if taken then onTrue else onFalse))

theorem leave_apply (s : Setup) (f : Func) (b : BlockId) (m : Machine) :
    leave s f b m = (wayOut s.width (f.term b) b m, m) := by
  unfold leave
  refine (bind_run_eq rfl).trans ?_
  unfold wayOut
  cases f.term b with
  | brIf cond onTrue onFalse =>
    dsimp only
    cases agree (m.value s.width cond) with
    | none => rfl
    | some r => cases r <;> rfl
  | _ => rfl

/-- A terminator whose values and targets are renamed leaves the same way, if the values that it uses
are what they were. -/
theorem wayOut_map_of_value {m m' : Machine} {width : Nat} {t : Terminator} {σ : Value → Value}
    (h : ∀ v ∈ t.uses, m'.value width (σ v) = m.value width v) {b : BlockId}
    {r : BlockId ⊕ Option Lanes} (hr : wayOut width t b m = .ok r) (β : BlockId → BlockId)
    (b' : BlockId) : wayOut width (t.map β σ) b' m' = .ok (r.map β id) := by
  cases t with
  | unreachable => cases hr
  | ret v =>
    cases hr
    show Except.ok (Sum.inr ((v.map σ).map (m'.value width))) = _
    rw [Option.map_map]
    refine congrArg (fun x => Except.ok (Sum.inr x)) (Option.map_congr fun v hv => ?_)
    exact h v (Option.mem_toList.mpr hv)
  | br target =>
    cases hr
    rfl
  | brIf cond onTrue onFalse =>
    unfold wayOut at hr
    unfold Terminator.map wayOut
    dsimp only at hr ⊢
    rw [h cond (List.mem_singleton_self cond)]
    cases ha : agree (m.value width cond) with
    | none =>
      rw [ha] at hr
      cases hr
    | some a =>
      rw [ha] at hr
      cases a with
      | none => cases hr
      | some taken =>
        cases hr
        cases taken <;> rfl

/-- Machines that agree on what a terminator uses leave the same way, up to the names of blocks. -/
theorem wayOut_map {m m' : Machine} (h : m.Agrees f g ρ S m') {width : Nat} {t : Terminator}
    (hu : ∀ v ∈ t.uses, v.Within S) {b : BlockId} {r : BlockId ⊕ Option Lanes}
    (hr : wayOut width t b m = .ok r) (β : BlockId → BlockId) (b' : BlockId) :
    wayOut width (t.map β (·.rename ρ)) b' m' = .ok (r.map β id) :=
  wayOut_map_of_value (fun v hv => h.value (hu v hv) width) hr β b'

/-- A block runs its phis, then its operations, and then its terminator. -/
theorem block_eq_ok_iff {pred : Option BlockId} {b : BlockId} {m m' : Machine}
    {r : BlockId ⊕ Option Lanes} : block s f pred b m = (.ok r, m') ↔
      ∃ m1, phis s f pred b { m with path := b :: m.path } = (.ok (), m1) ∧
        (f.nonPhis b).forM (instr s f) m1 = (.ok (), m') ∧
          wayOut s.width (f.term b) b m' = .ok r := by
  unfold block
  constructor
  · intro h
    obtain ⟨_, m0, h0, h⟩ := exists_of_bind_run_eq_ok h
    cases h0
    obtain ⟨_, m1, h1, h⟩ := exists_of_bind_run_eq_ok h
    obtain ⟨_, m2, h2, h⟩ := exists_of_bind_run_eq_ok h
    rw [leave_apply] at h
    cases hw : wayOut s.width (f.term b) b m2 with
    | error e =>
      rw [hw] at h
      cases h
    | ok r' =>
      rw [hw] at h
      cases h
      exact ⟨m1, h1, h2, hw⟩
  · rintro ⟨m1, h1, h2, h3⟩
    refine (bind_run_eq rfl).trans ?_
    refine (bind_run_eq h1).trans ?_
    refine (bind_run_eq h2).trans ?_
    rw [leave_apply, h3]

end Run

/-! ## Copies of blocks -/

/-- A block that starts with the copies of the phis and operations of another, and has some more
operations behind them. -/
structure CopiedBlock (f g : Func) (ρ : InstId → InstId) (b b' : BlockId)
    (extra : List InstId) : Prop where
  phis : g.phis b' = (f.phis b).map ρ
  nonPhis : g.nonPhis b' = (f.nonPhis b).map ρ ++ extra
  ops : ∀ i ∈ f.nonPhis b, Copied f g ρ i

theorem span_map_append {p q : InstId → Bool} {ρ : InstId → InstId} {l extra : List InstId}
    (hl : ∀ i ∈ l, p (ρ i) = q i) (he : ∀ i ∈ extra, p i = false) :
    (l.map ρ ++ extra).takeWhile p = (l.takeWhile q).map ρ ∧
      (l.map ρ ++ extra).dropWhile p = (l.dropWhile q).map ρ ++ extra := by
  induction l with
  | nil =>
    cases extra with
    | nil => exact ⟨rfl, rfl⟩
    | cons i extra =>
      have hi : ¬ p i = true := Bool.not_eq_true _ ▸ he i List.mem_cons_self
      exact ⟨List.takeWhile_cons_of_neg hi, List.dropWhile_cons_of_neg hi⟩
  | cons i l ih =>
    have hi := hl i List.mem_cons_self
    have ih := ih fun j hj => hl j (List.mem_cons_of_mem _ hj)
    rw [List.map_cons, List.cons_append]
    cases hq : q i with
    | true =>
      rw [hq] at hi
      rw [List.takeWhile_cons_of_pos hi, List.takeWhile_cons_of_pos hq, List.map_cons,
        List.dropWhile_cons_of_pos hi, List.dropWhile_cons_of_pos hq, ih.1]
      exact ⟨rfl, ih.2⟩
    | false =>
      have hi : ¬ p (ρ i) = true := by rw [hi, hq]; exact Bool.false_ne_true
      have hq : ¬ q i = true := by rw [hq]; exact Bool.false_ne_true
      rw [List.takeWhile_cons_of_neg hi, List.takeWhile_cons_of_neg hq,
        List.dropWhile_cons_of_neg hi, List.dropWhile_cons_of_neg hq]
      exact ⟨rfl, rfl⟩

/-- The phis and operations of a block that lists copies, and operations behind them. -/
theorem phis_of_body_eq {f g : Func} {ρ : InstId → InstId} {b c : BlockId} {e : List InstId}
    (h : g.body c = (f.body b).map ρ ++ e) (hp : ∀ i ∈ f.body b, g.isPhi (ρ i) = f.isPhi i)
    (he : ∀ i ∈ e, g.isPhi i = false) :
    g.phis c = (f.phis b).map ρ ∧ g.nonPhis c = (f.nonPhis b).map ρ ++ e := by
  unfold Func.phis Func.nonPhis
  rw [h]
  exact span_map_append hp he

/-- Values do not depend on the blocks passed. -/
theorem Machine.value_visit (m : Machine) (path : List BlockId) (width : Nat) (v : Value) :
    ({ m with path := path } : Machine).value width v = m.value width v := by
  cases v <;> rfl

theorem Machine.Agrees.visit {f g : Func} {ρ : InstId → InstId} {S : InstId → Prop}
    {m m' : Machine} (h : m.Agrees f g ρ S m') (b b' : BlockId) :
    ({ m with path := b :: m.path } : Machine).Agrees f g ρ S { m' with path := b' :: m'.path } :=
  { h with }

namespace Run

variable {f g : Func} {ρ : InstId → InstId} {s s' : Setup} {D : BlockId → Prop} {b b' : BlockId}

/-- The phis and operations of a block do what their copies do, if machines agree on the blocks that
have been passed on the way to the block, and the phis take the same values. -/
theorem exists_run_copiedBlock (hs : s.Alike s') (hw : s.width = 1) (hρ : Renaming f g ρ)
    (hf : f.WellFormed) {extra : List InstId} (hb : CopiedBlock f g ρ b b' extra)
    (hr : f.Reachable b) (hp : f.Path D f.entry b) {pred pred' : Option BlockId}
    {m m' m1 m2 : Machine}
    (hin : ∀ phi ∈ f.phis b, ∀ v, pred.bind (f.incomingValue? phi) = some v →
      ∃ v', pred'.bind (g.incomingValue? (ρ phi)) = some v' ∧
        m'.value s.width v' = m.value s.width v)
    (hm : m.Agrees f g ρ (f.DefinedIn D) m')
    (h1 : phis s f pred b { m with path := b :: m.path } = (.ok (), m1))
    (h2 : (f.nonPhis b).forM (instr s f) m1 = (.ok (), m2)) :
    ∃ m1' m2', phis s' g pred' b' { m' with path := b' :: m'.path } = (.ok (), m1') ∧
      ((f.nonPhis b).map ρ).forM (instr s' g) m1' = (.ok (), m2') ∧
        m2.Agrees f g ρ (f.DefinedIn fun d => D d ∨ d = b) m2' := by
  have hlt : ∀ i ∈ f.body b, i < f.insts.size := hf.body_lt b
  have hvisit : ∀ phi ∈ f.phis b, ∀ v, pred.bind (f.incomingValue? phi) = some v →
      ∃ v', pred'.bind (g.incomingValue? (ρ phi)) = some v' ∧
        Machine.value { m' with path := b' :: m'.path } s.width v' =
          Machine.value { m with path := b :: m.path } s.width v := by
    intro phi hphi v hv
    obtain ⟨v', hv', hval⟩ := hin phi hphi v hv
    exact ⟨v', hv', (m'.value_visit _ _ v').trans (hval.trans (m.value_visit _ _ v).symm)⟩
  obtain ⟨m1', h1', hm1⟩ := exists_run_phis hs hρ hb.phis
    (fun phi hphi => hlt phi (Func.mem_body_of_mem_phis hphi)) hvisit (hm.visit b b') h1
  have hops := simulates_instrs (S := fun j => f.DefinedIn D j ∨ j ∈ f.phis b) hs hρ
    hf.toCoherent (fun _ _ => .inl hw) (fun i hi => ⟨hlt i (Func.mem_body_of_mem_nonPhis hi), hb.ops i hi⟩)
    fun before i after e v hv => hf.ssa.within_inst hr hp e hv
  obtain ⟨_, m2', h2', hm2⟩ := hops m1 m1' () m2 hm1 h2
  refine ⟨m1', m2', h1', h2', hm2.mono fun j hj => ?_⟩
  obtain ⟨d, hd | rfl, hj⟩ := hj
  · exact .inl (.inl ⟨d, hd, hj⟩)
  · rw [← Func.phis_append_nonPhis] at hj
    rcases List.mem_append.mp hj with hj | hj
    · exact .inl (.inr hj)
    · exact .inr hj

/-- What flows into the phis of a block is the same, if the edges on which control comes give copies
of the same values, and machines agree on the blocks passed. -/
theorem exists_incoming_copy (hf : f.WellFormed) (hr : f.Reachable b) {pred pred' : Option BlockId}
    (hpred : ∀ q, pred = some q → D q ∧ f.Path D f.entry q)
    (hin : ∀ phi ∈ f.phis b, ∀ q v, pred = some q → f.incomingValue? phi q = some v →
      pred'.bind (g.incomingValue? (ρ phi)) = some (v.rename ρ))
    {m m' : Machine} (hm : m.Agrees f g ρ (f.DefinedIn D) m') (width : Nat) :
    ∀ phi ∈ f.phis b, ∀ v, pred.bind (f.incomingValue? phi) = some v →
      ∃ v', pred'.bind (g.incomingValue? (ρ phi)) = some v' ∧
        m'.value width v' = m.value width v := by
  intro phi hphi v hv
  obtain ⟨q, rfl, hv⟩ := Option.bind_eq_some_iff.mp hv
  obtain ⟨hq, hpq⟩ := hpred q rfl
  have hwithin := (hf.phi b hr phi hphi _ (Func.mem_incoming hv)
    (Cfg.reachable_of_path hpq)).within_end hpq hq
  exact ⟨_, hin phi hphi q v rfl hv, hm.value hwithin width⟩

end Run

end Lockstep
