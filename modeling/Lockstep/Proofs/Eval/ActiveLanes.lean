import Lockstep.Proofs.Eval.Frame

/-!
# Effects happen in the active lanes

A load, store or call acts in the lanes in which its mask is true, and in no others
(`actsWithin_instr`): a cell that is written, a call that is made and an address that is out of
bounds belong to such a lane, and a lane that takes no part gets an undefined value.
-/

namespace Lockstep

variable {σ ε α β : Type}

/-- What each step of a map gives, the results have. -/
theorem forall₂_of_mapM_run {f : α → ExceptT ε (StateM σ) β} {R : α → β → Prop} {l : List α}
    {ys : List β} {s s' : σ} (h : ∀ a s b s', f a s = (.ok b, s') → R a b)
    (e : l.mapM f s = (.ok ys, s')) : List.Forall₂ R l ys := by
  induction l generalizing ys s with
  | nil =>
    rw [List.mapM_nil] at e
    cases e
    exact .nil
  | cons x l ih =>
    rw [List.mapM_cons] at e
    obtain ⟨y, s1, hy, e⟩ := exists_of_bind_run_eq_ok e
    obtain ⟨zs, s2, hzs, e⟩ := exists_of_bind_run_eq_ok e
    cases e
    exact .cons (h x s y s1 hy) (ih hzs)

/-- A list with one element for each number below its length. -/
theorem Lanes.of_forall₂_range {R : Nat → Scalar → Prop} {width : Nat} {xs : Lanes}
    (h : List.Forall₂ R (List.range width) xs) {l : Nat} (hl : l < width) : R l (xs.lane l) := by
  have hlen : l < xs.length := by rwa [← h.length_eq, List.length_range]
  have hget := h.get (i := l) (by rwa [List.length_range]) hlen
  rw [List.get_eq_getElem, List.get_eq_getElem, List.getElem_range] at hget
  rwa [Lanes.lane, List.getElem?_eq_getElem hlen]

/-- The lanes in which a value is true. -/
def Machine.IsTrueIn (m : Machine) (width : Nat) (v : Value) (l : Nat) : Prop :=
  ((m.value width v).lane l).isTrue = true

/-- A constant is true in every lane or in none. -/
theorem Machine.isTrueIn_of_bool? {m : Machine} {width : Nat} {v : Value} (h : v.bool? = some true)
    {l : Nat} (hl : l < width) : m.IsTrueIn width v l := by
  cases v with
  | const c =>
    obtain ⟨ty, val⟩ := c
    cases val <;> cases h
    show ((Lanes.splat width (.bool true)).lane l).isTrue = true
    rw [Lanes.lane_splat _ hl]
    rfl
  | _ => cases h

namespace Run

/-! ## Lanes that may act -/

/-- An address that a lane with `S` uses. -/
def Addressed (width : Nat) (S : Nat → Prop) (inputs : List Lanes) (address : Int64) : Prop :=
  ∃ l < width, S l ∧ Lanes.lane (inputs[0]?.getD []) l = .int address

/-- From `m` to `n` lanes with `S` have written and called, and no others. -/
structure Confined (width : Nat) (S : Nat → Prop) (inputs : List Lanes) (m n : Machine) :
    Prop where
  memory : ∀ k, n.memory[k]? ≠ m.memory[k]? →
    ∃ address, Addressed width S inputs address ∧ address.toInt.toNat = k
  calls : ∃ new, n.callLog = new ++ m.callLog ∧
    ∀ call ∈ new, ∃ l < width, S l ∧ call.args = inputs.map (·.lane l)

/-- A failure by which lanes without `S` have done nothing, and which is none of theirs. -/
structure FailsWithin (width : Nat) (S : Nat → Prop) (inputs : List Lanes) (m : Machine)
    (e : EvalError) (n : Machine) : Prop where
  confined : Confined width S inputs m n
  bounds : ∀ address, e = .outOfBounds address → Addressed width S inputs address

/-- An instruction run from `m` acts in lanes with `S` only. -/
structure ActsWithin (s : Setup) (f : Func) (i : InstId) (S : Nat → Prop) (m : Machine) : Prop where
  ok : ∀ n, instr s f i m = (.ok (), n) →
    Confined s.width S ((f.inst i).inputs.map (m.value s.width)) m n ∧
      ((f.inst i).callee?.bind s.marker? = none → s.isUniform i = false →
        ∀ l < s.width, ¬ S l → (n.value s.width (.inst i)).lane l = .undefined)
  error : ∀ e n, instr s f i m = (.error e, n) →
    FailsWithin s.width S ((f.inst i).inputs.map (m.value s.width)) m e n

variable {width : Nat} {S S' : Nat → Prop} {inputs : List Lanes} {m n : Machine}

theorem Addressed.mono {address : Int64} (h : Addressed width S inputs address)
    (hS : ∀ l < width, S l → S' l) : Addressed width S' inputs address := by
  obtain ⟨l, hl, hSl, ha⟩ := h
  exact ⟨l, hl, hS l hl hSl, ha⟩

theorem Confined.mono (h : Confined width S inputs m n) (hS : ∀ l < width, S l → S' l) :
    Confined width S' inputs m n where
  memory k hk := by
    obtain ⟨address, ha, e⟩ := h.memory k hk
    exact ⟨address, ha.mono hS, e⟩
  calls := by
    obtain ⟨new, e, hnew⟩ := h.calls
    refine ⟨new, e, fun call hcall => ?_⟩
    obtain ⟨l, hl, hSl, hargs⟩ := hnew call hcall
    exact ⟨l, hl, hS l hl hSl, hargs⟩

theorem ActsWithin.mono {s : Setup} {f : Func} {i : InstId} (h : ActsWithin s f i S m)
    (hS : ∀ l < s.width, S l → S' l) : ActsWithin s f i S' m where
  ok n e := by
    obtain ⟨hc, hu⟩ := h.ok n e
    exact ⟨hc.mono hS, fun h1 h2 l hl hSl => hu h1 h2 l hl fun h => hSl (hS l hl h)⟩
  error e n h' := by
    have hf := h.error e n h'
    exact ⟨hf.confined.mono hS, fun address ha => (hf.bounds address ha).mono hS⟩

theorem Confined.refl (m : Machine) : Confined width S inputs m m :=
  ⟨fun _ h => absurd rfl h, [], rfl, fun _ h => absurd h List.not_mem_nil⟩

/-- Only memory and calls matter. -/
theorem Confined.setValue (h : Confined width S inputs m n) (i : InstId) (xs : Lanes) :
    Confined width S inputs m (n.setValue i xs) :=
  ⟨h.memory, h.calls⟩

theorem Confined.write (h : Confined width S inputs m n) {address : Int64}
    (ha : Addressed width S inputs address) (x : Scalar) :
    Confined width S inputs m
      { n with memory := n.memory.setIfInBounds address.toInt.toNat x } where
  memory k hk := by
    have hk : (n.memory.setIfInBounds address.toInt.toNat x)[k]? ≠ m.memory[k]? := hk
    rw [Array.getElem?_setIfInBounds] at hk
    by_cases he : address.toInt.toNat = k
    · exact ⟨address, ha, he⟩
    · rw [if_neg he] at hk
      exact h.memory k hk
  calls := h.calls

theorem Confined.call (h : Confined width S inputs m n) {l : Nat} (hl : l < width) (hS : S l)
    {call : HostCall} (hc : call.args = inputs.map (·.lane l)) :
    Confined width S inputs m { n with callLog := call :: n.callLog } where
  memory := h.memory
  calls := by
    obtain ⟨new, e, hnew⟩ := h.calls
    refine ⟨call :: new, congrArg (call :: ·) e, fun c hc' => ?_⟩
    rcases List.mem_cons.mp hc' with rfl | hc'
    · exact ⟨l, hl, hS, hc⟩
    · exact hnew c hc'

/-! ## Operations -/

/-- Only lanes with `S` act, whether the run succeeds or fails. -/
abbrev Confines (width : Nat) (S : Nat → Prop) (inputs : List Lanes) (m : Machine) {α : Type}
    (x : Run α) : Prop :=
  TripleAll (Confined width S inputs m) x (fun _ => Confined width S inputs m)
    (FailsWithin width S inputs m)

theorem confines_cellIndex {address : Int64} (ha : Addressed width S inputs address) :
    TripleAll (Confined width S inputs m) (cellIndex address)
      (fun k n => Confined width S inputs m n ∧ k = address.toInt.toNat)
      (FailsWithin width S inputs m) := by
  unfold cellIndex
  refine TripleAll.bind TripleAll.get fun n => ?_
  split
  · exact TripleAll.pure fun n' hn => ⟨hn.2, rfl⟩
  · refine TripleAll.throw fun n' hn => ⟨hn.2, fun address' e => ?_⟩
    cases e
    exact ha

theorem confines_readCell {address : Int64} (ha : Addressed width S inputs address) :
    Confines width S inputs m (readCell address) := by
  unfold readCell
  refine TripleAll.bind (confines_cellIndex ha) fun k => ?_
  exact TripleAll.bind TripleAll.get fun n => TripleAll.pure fun n' hn => hn.2.1

theorem confines_writeCell {address : Int64} (ha : Addressed width S inputs address) (x : Scalar) :
    Confines width S inputs m (writeCell address x) := by
  unfold writeCell
  refine TripleAll.bind (confines_cellIndex ha) fun k => TripleAll.modify ?_
  rintro n ⟨hn, rfl⟩
  exact hn.write ha x

theorem confines_callHost {host : Host} {call : HostCall} {l : Nat} (hl : l < width) (hS : S l)
    (hc : call.args = inputs.map (·.lane l)) :
    Confines width S inputs m (callHost host call) := by
  unfold callHost
  refine TripleAll.bind TripleAll.get fun n => ?_
  refine TripleAll.bind (R := fun _ => Confined width S inputs m) (TripleAll.modify ?_) fun _ =>
    TripleAll.pure fun n' hn => hn
  rintro n' ⟨rfl, hn⟩
  exact hn.call hl hS hc

section Effects

variable {active : Nat → Bool} (hact : ∀ l < width, active l = true → S l)

include hact

theorem confines_load : Confines width S inputs m (load width active (inputs[0]?.getD [])) := by
  unfold load
  refine TripleAll.mapM (J := fun _ _ => Confined width S inputs m) _ (fun l rest done hl => ?_) []
  have hl := List.mem_range.mp hl
  cases ha : Lanes.lane (inputs[0]?.getD []) l with
  | int address =>
    dsimp only
    split
    · rename_i h
      exact confines_readCell ⟨l, hl, hact l hl h, ha⟩
    · exact TripleAll.pure fun n hn => hn
  | _ => exact TripleAll.pure fun n hn => hn

theorem confines_store (xs : Lanes) :
    Confines width S inputs m (store width active (inputs[0]?.getD []) xs) := by
  unfold store
  refine TripleAll.forM (J := fun _ => Confined width S inputs m) _ fun l rest hl => ?_
  have hl := List.mem_range.mp hl
  cases ha : Lanes.lane (inputs[0]?.getD []) l with
  | int address =>
    dsimp only
    split
    · rename_i h
      exact confines_writeCell ⟨l, hl, hact l hl h, ha⟩ _
    · exact TripleAll.pure fun n hn => hn
  | _ => exact TripleAll.pure fun n hn => hn

theorem confines_callLanes {host : Host} {callee : FuncId} :
    Confines width S inputs m
      (callLanes host width active fun l => { callee, args := inputs.map (·.lane l) }) := by
  unfold callLanes
  refine TripleAll.mapM (J := fun _ _ => Confined width S inputs m) _ (fun l rest done hl => ?_) []
  have hl := List.mem_range.mp hl
  split
  · rename_i h
    exact confines_callHost hl (hact l hl h) rfl
  · exact TripleAll.pure fun n hn => hn

theorem confines_callOnce {host : Host} {callee : FuncId} :
    Confines width S inputs m
      (callOnce host width active fun l => { callee, args := inputs.map (·.lane l) }) := by
  unfold callOnce
  split
  · rename_i l h
    have hl := List.mem_range.mp (List.mem_of_find?_eq_some h)
    refine TripleAll.bind (confines_callHost hl (hact l hl (List.find?_some h)) rfl) fun x => ?_
    exact TripleAll.pure fun n hn => hn
  · exact TripleAll.pure fun n hn => hn

end Effects

variable {s : Setup} {f : Func} {i : InstId} {active : Nat → Bool} {code : Opcode} {source ty : Ty}

theorem confines_operation (hc : code.hasSideEffects = true)
    (hact : ∀ l < s.width, active l = true → S l) :
    Confines s.width S inputs m (operation s i code inputs source ty active) := by
  unfold operation
  cases code with
  | load => exact confines_load hact
  | store => exact TripleAll.bind (confines_store hact _) fun _ => TripleAll.pure fun n hn => hn
  | call callee =>
    dsimp only
    split
    · exact TripleAll.pure fun n hn => hn
    · split
      · exact TripleAll.throw fun n hn => ⟨hn, fun address e => by cases e⟩
      · split
        · exact confines_callOnce hact
        · exact confines_callLanes hact
  | _ => cases hc

/-- A lane that takes no part gets an undefined value. -/
theorem lane_operation_of_inactive (hc : code.hasSideEffects = true) {xs : Lanes}
    (h : operation s i code inputs source ty active m = (.ok xs, n))
    (hcall : ∀ callee, code = .call callee → s.marker? callee = none) (hu : s.isUniform i = false)
    {l : Nat} (hl : l < s.width) (hact : active l = false) : xs.lane l = .undefined := by
  unfold operation at h
  cases code with
  | load =>
    refine Lanes.of_forall₂_range (R := fun l x => active l = false → x = .undefined)
      (forall₂_of_mapM_run (fun l n x n' e hact => ?_) h) hl hact
    cases ha : Lanes.lane (inputs[0]?.getD []) l with
    | int address =>
      rw [ha] at e
      dsimp only at e
      rw [hact] at e
      cases e
      rfl
    | _ =>
      rw [ha] at e
      cases e
      rfl
  | store =>
    obtain ⟨_, n', -, h⟩ := exists_of_bind_run_eq_ok h
    cases h
    exact Lanes.lane_splat _ hl
  | call callee =>
    dsimp only at h
    rw [hcall callee rfl] at h
    cases hh : s.host with
    | none =>
      rw [hh] at h
      cases h
    | some host =>
      rw [hh] at h
      dsimp only at h
      rw [hu] at h
      refine Lanes.of_forall₂_range (R := fun l x => active l = false → x = .undefined)
        (forall₂_of_mapM_run (fun l n x n' e hact => ?_) h) hl hact
      rw [hact] at e
      cases e
      rfl
  | _ => cases hc

/-! ## Instructions -/

/-- An effect happens in the lanes in which the mask of its instruction is true. -/
theorem actsWithin_instr (hd : (f.inst i).op.hasSideEffects = true) (m : Machine) :
    ActsWithin s f i (fun l => Run.active s.width m (f.inst i).mask l = true) m := by
  obtain ⟨code, args, hop⟩ : ∃ code args, (f.inst i).op = .apply code args := by
    cases hop : (f.inst i).op with
    | apply code args => exact ⟨code, args, rfl⟩
    | phi incoming =>
      rw [hop] at hd
      cases hd
  have hcode : code.hasSideEffects = true := by rwa [hop] at hd
  have hinputs : (f.inst i).inputs = args := inputs_of_op hop
  have hrun : Confines s.width (fun l => Run.active s.width m (f.inst i).mask l = true)
      (args.map (m.value s.width)) m (operation s i code (args.map (m.value s.width))
        (f.typeOf ((f.inst i).input 0)) (f.inst i).ty (Run.active s.width m (f.inst i).mask)) :=
    confines_operation hcode fun l _ h => h
  have hinstr := TripleAll.bind hrun fun xs => TripleAll.modify
    (Q := fun _ n => Confined s.width (fun l => Run.active s.width m (f.inst i).mask l = true)
      (args.map (m.value s.width)) m n) (g := fun n => n.setValue i xs) fun n hn => hn.setValue i xs
  constructor
  · intro n e
    rw [hinputs]
    refine ⟨hinstr.ok m () n (.refl m) ((instr_apply hop m).symm.trans e), fun hmark hu l hl hS => ?_⟩
    rw [instr_apply hop] at e
    obtain ⟨xs, n', hx, e⟩ := exists_of_bind_run_eq_ok e
    cases e
    show ((n'.setValue i xs).values[i]?.getD _).lane l = _
    rw [Machine.getElem?_setValue]
    split
    · refine lane_operation_of_inactive hcode hx (fun callee hc => ?_) hu hl (by simpa using hS)
      unfold Instr.callee? at hmark
      rw [hop, hc] at hmark
      exact hmark
    · rename_i hout
      rw [Array.getElem?_eq_none (Nat.le_of_not_lt fun h => hout ⟨rfl, h⟩)]
      exact Lanes.lane_splat _ hl
  · intro e n h
    rw [hinputs]
    exact hinstr.error m e n (.refl m) ((instr_apply hop m).symm.trans h)

/-- A masked effect happens in the lanes in which the mask is true. -/
theorem actsWithin_of_mask {mask : Value} (hd : (f.inst i).op.hasSideEffects = true)
    (hm : (f.inst i).mask = some mask) (m : Machine) : ActsWithin s f i (m.IsTrueIn s.width mask) m := by
  refine (actsWithin_instr hd m).mono fun l _ h => ?_
  rw [hm] at h
  exact h

/-- Where a value is always true, every effect happens in the lanes in which it is. -/
theorem actsWithin_of_bool? {v : Value} (hd : (f.inst i).op.hasSideEffects = true)
    (hv : v.bool? = some true) (m : Machine) : ActsWithin s f i (m.IsTrueIn s.width v) m :=
  (actsWithin_instr hd m).mono fun _ hl _ => Machine.isTrueIn_of_bool? hv hl

end Run

end Lockstep
