import Lockstep.Proofs.Eval.Soundness

/-!
# Every value has all its lanes

A machine is full if each of its values has as many lanes as the run is wide. The machine that a run
starts with is full, and instructions and phis leave a full machine full. In a single lane a branch
condition is therefore one truth value (`eq_of_agree`).
-/

namespace Lockstep

variable {σ ε α β : Type}

/-- A map gives one result for each element. -/
theorem length_of_mapM_eq_ok {f : α → Except ε β} {l : List α} {ys : List β}
    (h : l.mapM f = .ok ys) : ys.length = l.length := by
  induction l generalizing ys with
  | nil =>
    rw [List.mapM_nil] at h
    cases h
    rfl
  | cons x l ih =>
    rw [List.mapM_cons] at h
    obtain ⟨y, -, h⟩ := exists_of_bind_eq_ok h
    obtain ⟨zs, hzs, h⟩ := exists_of_bind_eq_ok h
    cases h
    rw [List.length_cons, List.length_cons, ih hzs]

theorem length_of_mapM_run_eq_ok {f : α → ExceptT ε (StateM σ) β} {l : List α} {ys : List β}
    {s s' : σ} (h : l.mapM f s = (.ok ys, s')) : ys.length = l.length := by
  induction l generalizing ys s with
  | nil =>
    rw [List.mapM_nil] at h
    cases h
    rfl
  | cons x l ih =>
    rw [List.mapM_cons] at h
    obtain ⟨y, s1, -, h⟩ := exists_of_bind_run_eq_ok h
    obtain ⟨zs, s2, hzs, h⟩ := exists_of_bind_run_eq_ok h
    cases h
    rw [List.length_cons, List.length_cons, ih hzs]

/-! ## Full machines -/

namespace Machine

/-- All values have `width` lanes. -/
structure Full (width : Nat) (m : Machine) : Prop where
  params : ∀ xs ∈ m.params, xs.length = width
  values : ∀ (i : InstId) xs, m.values[i]? = some xs → xs.length = width

variable {width : Nat} {m : Machine}

theorem Full.value (h : m.Full width) (v : Value) : (m.value width v).length = width := by
  cases v with
  | const c => exact Lanes.length_splat width c.val
  | param k =>
    show (m.params[k]?.getD _).length = _
    cases hk : m.params[k]? with
    | none => exact Lanes.length_splat width _
    | some xs => exact h.params xs (List.mem_of_getElem? hk)
  | inst i =>
    show (m.values[i]?.getD _).length = _
    cases hi : m.values[i]? with
    | none => exact Lanes.length_splat width _
    | some xs => exact h.values i xs hi

theorem Full.setValue (h : m.Full width) (i : InstId) {xs : Lanes} (hx : xs.length = width) :
    (m.setValue i xs).Full width where
  params := h.params
  values j ys hj := by
    rw [getElem?_setValue] at hj
    split at hj
    · cases hj
      exact hx
    · exact h.values j ys hj

theorem Full.ofEq {m' : Machine} (h : m.Full width) (hp : m'.params = m.params)
    (hv : m'.values = m.values) : m'.Full width where
  params xs hx := h.params xs (hp ▸ hx)
  values i xs hi := h.values i xs (hv ▸ hi)

theorem Full.setPhis (h : m.Full width) {new : List (InstId × Lanes)}
    (hnew : ∀ e ∈ new, e.2.length = width) : (m.setPhis new).Full width := by
  induction new generalizing m with
  | nil => exact h
  | cons e new ih =>
    exact ih (h.setValue e.1 (hnew e List.mem_cons_self)) fun e he =>
      hnew e (List.mem_cons_of_mem _ he)

end Machine

namespace Run

variable {s : Setup} {f : Func} {m m' : Machine} {xs : Lanes}

theorem length_lanewise {width : Nat} {i : InstId} {g : Nat → Except Unsupported Scalar}
    (h : lanewise width i g m = (.ok xs, m')) : xs.length = width := by
  unfold lanewise at h
  cases hm : (List.range width).mapM g with
  | error e =>
    rw [hm] at h
    cases h
  | ok ys =>
    rw [hm] at h
    cases h
    rw [length_of_mapM_eq_ok hm, List.length_range]

theorem length_evalMarker (k : Marker) (width : Nat) {args : List Lanes}
    (h : ∀ ys ∈ args, ys.length = width) : (k.eval width args).length = width := by
  cases k with
  | align =>
    show (args[0]?.getD _).length = _
    cases ha : args[0]? with
    | none => exact Lanes.length_splat width _
    | some ys => exact h ys (List.mem_of_getElem? ha)
  | extract =>
    unfold Marker.eval
    dsimp only
    split <;> exact Lanes.length_splat width _
  | _ => exact Lanes.length_splat width _

theorem length_callHosts {host : Host} {width : Nat} {active : Nat → Bool} {call : Nat → HostCall}
    (h : callLanes host width active call m = (.ok xs, m')) : xs.length = width := by
  rw [length_of_mapM_run_eq_ok h, List.length_range]

theorem length_callOnce {host : Host} {width : Nat} {active : Nat → Bool} {call : Nat → HostCall}
    (h : callOnce host width active call m = (.ok xs, m')) : xs.length = width := by
  unfold callOnce at h
  cases hf : (List.range width).find? active with
  | none =>
    rw [hf] at h
    cases h
    exact Lanes.length_splat width _
  | some l =>
    rw [hf] at h
    obtain ⟨x, m1, -, h⟩ := exists_of_bind_run_eq_ok h
    cases h
    exact Lanes.length_splat width x

/-- An operation on full operands has a full result. -/
theorem length_operation {i : InstId} {code : Opcode} {inputs : List Lanes} {source ty : Ty}
    {active : Nat → Bool} (h : operation s i code inputs source ty active m = (.ok xs, m'))
    (hin : ∀ ys ∈ inputs, ys.length = s.width) : xs.length = s.width := by
  unfold operation at h
  cases code with
  | binary op => exact length_lanewise h
  | cmp op => exact length_lanewise h
  | cast op => exact length_lanewise h
  | select =>
    cases h
    rw [List.length_map, List.length_range]
  | ptrOffset =>
    cases h
    rw [List.length_map, List.length_range]
  | load => rw [length_of_mapM_run_eq_ok h, List.length_range]
  | store =>
    obtain ⟨_, m1, -, h⟩ := exists_of_bind_run_eq_ok h
    cases h
    exact Lanes.length_splat _ _
  | call callee =>
    dsimp only at h
    cases hk : s.marker? callee with
    | some k =>
      rw [hk] at h
      cases h
      exact length_evalMarker k _ hin
    | none =>
      rw [hk] at h
      cases hh : s.host with
      | none =>
        rw [hh] at h
        cases h
      | some host =>
        rw [hh] at h
        dsimp only at h
        split at h
        · exact length_callOnce h
        · exact length_callHosts h
  | _ => cases h

theorem full_instr {i : InstId} (hm : m.Full s.width) (h : instr s f i m = (.ok (), m')) :
    m'.Full s.width := by
  obtain ⟨code, args, xs, m1, -, hx, hb, rfl⟩ := instr_eq_ok h
  refine (hm.ofEq hb.params hb.values).setValue i (length_operation hx fun ys hy => ?_)
  obtain ⟨v, -, rfl⟩ := List.mem_map.mp hy
  exact hm.value v

theorem full_instrs {l : List InstId} (hm : m.Full s.width)
    (h : l.forM (instr s f) m = (.ok (), m')) : m'.Full s.width := by
  induction l generalizing m with
  | nil =>
    cases h
    exact hm
  | cons i l ih =>
    obtain ⟨_, m1, h1, h⟩ := exists_of_bind_run_eq_ok h
    exact ih (full_instr hm h1) h

theorem full_phis {pred : Option BlockId} {b : BlockId} (hm : m.Full s.width)
    (h : phis s f pred b m = (.ok (), m')) : m'.Full s.width := by
  obtain ⟨new, hnew, rfl⟩ := phis_eq_ok_iff.mp h
  refine hm.setPhis fun e he => ?_
  obtain ⟨phi, -, v, -, rfl⟩ := exists_mem_of_forall₂ hnew he
  exact hm.value v

/-- All machines of a run that starts with a full one are full. -/
theorem Arrives.full {start : Machine} {pred : Option BlockId} {b : BlockId}
    (hs : start.Full s.width) (h : Arrives s f start pred b m) : m.Full s.width := by
  induction h with
  | entry => exact hs
  | next h e ih =>
    obtain ⟨m1, h1, h2, -⟩ := block_eq_ok_iff.mp e
    refine full_instrs (full_phis ?_ h1) h2
    exact ih.ofEq rfl rfl

/-- A run has at least one lane, and not too many. -/
theorem width_of_arguments {args params : List Lanes} (h : arguments s f args = .ok params) :
    0 < s.width ∧ s.width ≤ Lanes.maxCount := by
  unfold arguments at h
  split at h
  · cases h
  · rename_i hw
    rw [not_or, Nat.not_lt, Nat.not_lt] at hw
    exact hw

/-- The arguments of a run have all their lanes. -/
theorem length_of_mem_arguments {args params : List Lanes}
    (h : arguments s f args = .ok params) : ∀ xs ∈ params, xs.length = s.width := by
  unfold arguments at h
  split at h
  · cases h
  split at h
  · cases h
  intro xs hx
  obtain ⟨ys, -, hy⟩ := exists_of_mem_mapM h xs hx
  unfold argument at hy
  split at hy
  · cases hy
    exact Lanes.length_splat _ _
  · split at hy
    · cases hy
      assumption
    · cases hy

theorem full_start {params : List Lanes} {width : Nat} (hp : ∀ xs ∈ params, xs.length = width)
    (n : Nat) (memory : Array Scalar) : Machine.Full width
      { params, values := Array.replicate n (.splat width .undefined), memory } where
  params := hp
  values i xs hi := by
    rw [Array.getElem?_replicate] at hi
    split at hi
    · cases hi
      exact Lanes.length_splat _ _
    · cases hi

/-- A single lane that agrees on a way is one truth value. -/
theorem eq_of_agree {b : Bool} (hx : xs.length = 1) (h : agree xs = some (some b)) :
    xs = [.bool b] := by
  obtain ⟨x, rfl⟩ := List.length_eq_one_iff.mp hx
  cases x with
  | bool c =>
    cases h
    rfl
  | _ => cases h

end Run

end Lockstep
