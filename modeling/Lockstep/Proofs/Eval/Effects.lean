import Lockstep.Eval.Run
import Lockstep.Proofs.Eval.Simulation

/-!
# What operations do to a machine

An operation reads its inputs, and beyond them nothing but memory and the calls made before; it
changes nothing else. Two runs with the same inputs, memory and calls therefore do the same
(`simulates_operation`), if they make calls alike. In a single lane they do, since there it makes no
difference whether a call is known to be uniform.
-/

namespace Lockstep

/-- Setups that differ at most in the step limit and in what is known to be uniform. -/
structure Setup.Alike (s s' : Setup) : Prop where
  width : s'.width = s.width
  marker : s'.marker? = s.marker?
  host : s'.host = s.host

/-- Two instructions make their calls in the same way: once for each lane, or once for all. -/
def Setup.CallsAlike (s s' : Setup) (i i' : InstId) : Prop :=
  s.width = 1 ∨ s'.isUniform i' = s.isUniform i

/-- The machines `m` and `m'` are `n` and `n'` but for memory and calls, which are the same. -/
structure Machine.Beside (n n' m m' : Machine) : Prop where
  memory : m'.memory = m.memory
  callLog : m'.callLog = m.callLog
  params : m.params = n.params
  params' : m'.params = n'.params
  values : m.values = n.values
  values' : m'.values = n'.values
  path : m.path = n.path
  path' : m'.path = n'.path

theorem Machine.Beside.refl {n n' : Machine} (hm : n'.memory = n.memory)
    (hc : n'.callLog = n.callLog) : Beside n n' n n' :=
  ⟨hm, hc, rfl, rfl, rfl, rfl, rfl, rfl⟩

namespace Run

variable {n n' : Machine} {α : Type}

/-! ## Parts of a run that only read inputs -/

/-- A run that does the same wherever memory and calls are the same. -/
def Local (x : Run α) : Prop :=
  ∀ n n' : Machine, Simulates (n.Beside n') x x fun a b m m' => b = a ∧ n.Beside n' m m'

theorem Local.pure (a : α) : Local (Pure.pure a) :=
  fun _ _ => Simulates.pure fun _ _ h => ⟨rfl, h⟩

theorem Local.throw (e : EvalError) : Local (MonadExcept.throw e : Run α) :=
  fun _ _ => Simulates.throw

theorem Local.bind {β : Type} {x : Run α} {k : α → Run β} (hx : x.Local) (hk : ∀ a, Local (k a)) :
    Local (x >>= k) := by
  intro n n'
  refine Simulates.bind (hx n n') fun a b => Simulates.assume ?_
  rintro rfl
  exact hk _ n n'

theorem Local.mapM {β : Type} {f : α → Run β} (hf : ∀ a, Local (f a)) (l : List α) :
    Local (l.mapM f) := by
  induction l with
  | nil =>
    rw [List.mapM_nil]
    exact Local.pure _
  | cons a l ih =>
    rw [List.mapM_cons]
    exact (hf a).bind fun _ => ih.bind fun _ => Local.pure _

theorem Local.forM {f : α → Run PUnit} (hf : ∀ a, Local (f a)) (l : List α) :
    Local (l.forM f) := by
  induction l with
  | nil => exact Local.pure _
  | cons a l ih => exact (hf a).bind fun _ => ih

theorem local_cellIndex (address : Int64) : Local (cellIndex address) := by
  intro n n'
  unfold cellIndex
  refine Simulates.bind Simulates.get ?_
  rintro m m' s t a s' ⟨⟨rfl, rfl⟩, h⟩ e
  have hm := h.memory
  split at e
  · rename_i hc
    cases e
    rw [hm, if_pos hc]
    exact ⟨_, _, rfl, rfl, h⟩
  · cases e

theorem local_readCell (address : Int64) : Local (readCell address) := by
  unfold readCell
  refine (local_cellIndex address).bind fun k => ?_
  intro n n'
  refine Simulates.bind Simulates.get ?_
  rintro m m' s t a s' ⟨⟨rfl, rfl⟩, h⟩ e
  cases e
  exact ⟨_, _, rfl, by rw [h.memory], h⟩

theorem local_writeCell (address : Int64) (x : Scalar) : Local (writeCell address x) := by
  unfold writeCell
  refine (local_cellIndex address).bind fun k => ?_
  intro n n'
  refine Simulates.modify fun m m' h => ⟨rfl, ?_⟩
  exact { h with memory := congrArg (·.setIfInBounds k x) h.memory }

theorem local_lanewise (width : Nat) (i : InstId) (f : Nat → Except Unsupported Scalar) :
    Local (lanewise width i f) := by
  unfold lanewise
  split
  · exact Local.pure _
  · exact Local.throw _

theorem local_load (width : Nat) (active : Nat → Bool) (addresses : Lanes) :
    Local (load width active addresses) := by
  refine Local.mapM (fun l => ?_) _
  split
  · split
    · exact local_readCell _
    · exact Local.pure _
  · exact Local.pure _

theorem local_store (width : Nat) (active : Nat → Bool) (addresses xs : Lanes) :
    Local (store width active addresses xs) := by
  refine Local.forM (fun l => ?_) _
  split
  · split
    · exact local_writeCell _ _
    · exact Local.pure _
  · exact Local.pure _

theorem local_callHost (host : Host) (call : HostCall) : Local (callHost host call) := by
  intro n n'
  unfold callHost
  refine Simulates.bind Simulates.get ?_
  rintro m m' s t a s' ⟨⟨rfl, rfl⟩, h⟩ e
  cases e
  refine ⟨_, _, rfl, by rw [h.callLog], ?_⟩
  exact { h with callLog := congrArg (call :: ·) h.callLog }

theorem local_callLanes (host : Host) (width : Nat) (active : Nat → Bool)
    (call : Nat → HostCall) : Local (callLanes host width active call) := by
  refine Local.mapM (fun l => ?_) _
  split
  · exact local_callHost _ _
  · exact Local.pure _

theorem local_callOnce (host : Host) (width : Nat) (active : Nat → Bool)
    (call : Nat → HostCall) : Local (callOnce host width active call) := by
  unfold callOnce
  split
  · exact (local_callHost _ _).bind fun _ => Local.pure _
  · exact Local.pure _

/-- A single lane makes a call once in any case. -/
theorem callOnce_one (host : Host) (active : Nat → Bool) (call : Nat → HostCall) :
    callOnce host 1 active call = callLanes host 1 active call := by
  have hr : List.range 1 = [0] := rfl
  unfold callOnce callLanes
  rw [hr, List.mapM_cons, List.mapM_nil]
  by_cases h : active 0 = true
  · simp only [List.find?_cons, h, if_true, pure_bind]
    rfl
  · simp only [List.find?_cons, h, pure_bind, List.find?_nil]
    rfl

/-! ## Operations -/

theorem lanewise_of_ok {width : Nat} {i : InstId} {f : Nat → Except Unsupported Scalar}
    {m m1 : Machine} {xs : Lanes} (h : lanewise width i f m = (.ok xs, m1)) (i' : InstId) :
    lanewise width i' f m = (.ok xs, m1) := by
  unfold lanewise at h ⊢
  cases hf : (List.range width).mapM f with
  | ok ys =>
    rw [hf] at h
    exact h
  | error e =>
    rw [hf] at h
    cases h

/-- A single lane is computed once. -/
theorem lanewise_one {i : InstId} {f : Nat → Except Unsupported Scalar} {r : Scalar} {m : Machine}
    (h : f 0 = .ok r) :
    lanewise 1 i f m = (.ok [r], m) := by
  have hm : (List.range 1).mapM f = .ok [r] := by
    show (do let y ← f 0; let ys ← pure []; pure (y :: ys)) = _
    rw [h]
    rfl
  unfold lanewise
  rw [hm]
  rfl

theorem lanewise_one_eq_ok {i : InstId} {f : Nat → Except Unsupported Scalar} {xs : Lanes}
    {m m1 : Machine} (h : lanewise 1 i f m = (.ok xs, m1)) : ∃ r, f 0 = .ok r ∧ xs = [r] := by
  cases hf : f 0 with
  | ok r =>
    rw [lanewise_one hf] at h
    cases h
    exact ⟨r, rfl, rfl⟩
  | error e =>
    have hm : (List.range 1).mapM f = .error e := by
      show (do let y ← f 0; let ys ← pure []; pure (y :: ys)) = _
      rw [hf]
      rfl
    unfold lanewise at h
    rw [hm] at h
    cases h

/-- An operation does the same whichever instruction it belongs to, if calls are made alike. -/
theorem operation_of_alike {s s' : Setup} (h : s.Alike s') {i i' : InstId} (hc : s.CallsAlike s' i i')
    {code : Opcode} {inputs : List Lanes} {source ty : Ty} {active : Nat → Bool} {m m1 : Machine}
    {xs : Lanes} (hx : operation s i code inputs source ty active m = (.ok xs, m1)) :
    operation s' i' code inputs source ty active m = (.ok xs, m1) := by
  have hcall : ∀ host call, (if s'.isUniform i' then callOnce host s.width active call
      else callLanes host s.width active call) =
      if s.isUniform i then callOnce host s.width active call
      else callLanes host s.width active call := by
    intro host call
    rcases hc with hw | hu
    · simp only [hw, callOnce_one, ite_self]
    · rw [hu]
  unfold operation at hx ⊢
  simp only [h.width, h.marker, h.host, hcall]
  cases code with
  | binary _ | cmp _ | cast _ => exact lanewise_of_ok hx i'
  | select | ptrOffset | load | store | call _ => exact hx
  | _ => cases hx

theorem local_operation (s : Setup) (i : InstId) (code : Opcode) (inputs : List Lanes)
    (source ty : Ty) (active : Nat → Bool) :
    Local (operation s i code inputs source ty active) := by
  unfold operation
  dsimp only
  split
  · exact local_lanewise _ _ _
  · exact local_lanewise _ _ _
  · exact Local.pure _
  · exact local_lanewise _ _ _
  · exact Local.pure _
  · exact local_load _ _ _
  · exact (local_store _ _ _ _).bind fun _ => Local.pure _
  · split
    · exact Local.pure _
    · split
      · exact Local.throw _
      · split
        · exact local_callOnce _ _ _ _
        · exact local_callLanes _ _ _ _
  all_goals exact Local.throw _

/-- An operation changes at most memory and calls. -/
theorem beside_of_operation {s : Setup} {i : InstId} {code : Opcode} {inputs : List Lanes}
    {source ty : Ty} {active : Nat → Bool} {m m1 : Machine} {xs : Lanes}
    (h : operation s i code inputs source ty active m = (.ok xs, m1)) : m.Beside m m1 m1 := by
  obtain ⟨ys, m1', h', -, hb⟩ :=
    local_operation s i code inputs source ty active m m m m xs m1 (.refl rfl rfl) h
  rw [h] at h'
  cases h'
  exact hb

/-- Runs of an operation on the same inputs, memory and calls do the same. -/
theorem simulates_operation {s s' : Setup} (h : s.Alike s') {i i' : InstId}
    (hc : s.CallsAlike s' i i') (code : Opcode) (inputs : List Lanes) (source ty : Ty) (active : Nat → Bool) (n n' : Machine) :
    Simulates (n.Beside n') (operation s i code inputs source ty active)
      (operation s' i' code inputs source ty active) fun xs ys m m' => ys = xs ∧ n.Beside n' m m' := by
  intro m m' xs m1 hm hx
  obtain ⟨ys, m1', hy, rfl, hm1⟩ :=
    local_operation s i code inputs source ty active n n' m m' xs m1 hm hx
  exact ⟨ys, m1', operation_of_alike h hc hy, rfl, hm1⟩

end Run

end Lockstep
