import Lockstep.Proofs.Eval.Soundness

/-!
# What a step leaves as it is

An instruction changes its own value and no other, and the phis of a block change only their own
values. Neither touches the list of the blocks passed so far. Memory and calls change only where a
block stores or calls (`effects_block`).
-/

namespace Lockstep

/-- An operation that neither stores nor calls. -/
def Opcode.isQuiet : Opcode → Bool
  | .store | .call _ => false
  | _ => true

/-- An instruction that neither stores nor calls. -/
def Op.isQuiet : Op → Bool
  | .phi _ => true
  | .apply code _ => code.isQuiet

namespace Machine

variable {m : Machine} {v : Value} {width : Nat}

theorem value_setValue_of_ne {i : InstId} (xs : Lanes) (hv : v ≠ .inst i) :
    (m.setValue i xs).value width v = m.value width v := by
  cases v with
  | inst j =>
    show ((m.setValue i xs).values[j]?).getD _ = _
    rw [getElem?_setValue, if_neg fun e => hv (congrArg Value.inst e.1.symm)]
    rfl
  | _ => rfl

theorem value_setValue_self {i : InstId} (xs : Lanes) (hi : i < m.values.size) :
    (m.setValue i xs).value width (.inst i) = xs := by
  show ((m.setValue i xs).values[i]?).getD _ = _
  rw [getElem?_setValue, if_pos ⟨rfl, hi⟩]
  rfl

theorem value_setPhis_of_ne {new : List (InstId × Lanes)} (hv : ∀ e ∈ new, v ≠ .inst e.1) :
    (m.setPhis new).value width v = m.value width v := by
  induction new generalizing m with
  | nil => rfl
  | cons e new ih =>
    exact (ih fun e he => hv e (List.mem_cons_of_mem _ he)).trans
      (value_setValue_of_ne _ (hv e List.mem_cons_self))

@[simp] theorem path_setPhis (new : List (InstId × Lanes)) : (m.setPhis new).path = m.path := by
  induction new generalizing m with
  | nil => rfl
  | cons e new ih => exact ih

@[simp] theorem params_setPhis (new : List (InstId × Lanes)) :
    (m.setPhis new).params = m.params := by
  induction new generalizing m with
  | nil => rfl
  | cons e new ih => exact ih

theorem effects_setPhis (new : List (InstId × Lanes)) :
    (m.setPhis new).memory = m.memory ∧ (m.setPhis new).callLog = m.callLog := by
  induction new generalizing m with
  | nil => exact ⟨rfl, rfl⟩
  | cons e new ih => exact ih

@[simp] theorem size_setPhis (new : List (InstId × Lanes)) :
    (m.setPhis new).values.size = m.values.size := by
  induction new generalizing m with
  | nil => rfl
  | cons e new ih => exact ih.trans (size_setValue m e.1 e.2)

theorem value_setPhis_of_mem {new : List (InstId × Lanes)} (hn : (new.map Prod.fst).Nodup)
    {e : InstId × Lanes} (he : e ∈ new) (hlt : e.1 < m.values.size) :
    (m.setPhis new).value width (.inst e.1) = e.2 := by
  induction new generalizing m with
  | nil => cases he
  | cons e' new ih =>
    obtain ⟨hout, hn⟩ := List.nodup_cons.mp hn
    rcases List.mem_cons.mp he with rfl | he
    · show ((m.setValue e.1 e.2).setPhis new).value width _ = _
      rw [value_setPhis_of_ne fun e' he' h => ?_, value_setValue_self e.2 hlt]
      exact hout (Value.inst.inj h ▸ List.mem_map_of_mem he')
    · exact ih hn he (by rw [size_setValue]; exact hlt)

end Machine

namespace Run

variable {s : Setup} {f : Func} {m m' : Machine} {v : Value}

theorem value_instr_of_ne {i : InstId} (h : instr s f i m = (.ok (), m')) (hv : v ≠ .inst i)
    (width : Nat) : m'.value width v = m.value width v := by
  obtain ⟨code, args, xs, m1, -, -, hb, rfl⟩ := instr_eq_ok h
  rw [Machine.value_setValue_of_ne xs hv]
  cases v with
  | const c => rfl
  | param k =>
    show m1.params[k]?.getD _ = _
    rw [hb.params]
    rfl
  | inst j =>
    show m1.values[j]?.getD _ = _
    rw [hb.values]
    rfl

theorem value_instrs_of_ne {l : List InstId} (h : l.forM (instr s f) m = (.ok (), m'))
    (hv : ∀ i ∈ l, v ≠ .inst i) (width : Nat) : m'.value width v = m.value width v := by
  induction l generalizing m with
  | nil =>
    cases h
    rfl
  | cons i l ih =>
    obtain ⟨_, m1, h1, h⟩ := exists_of_bind_run_eq_ok h
    rw [ih h fun j hj => hv j (List.mem_cons_of_mem _ hj),
      value_instr_of_ne h1 (hv i List.mem_cons_self)]

theorem value_phis_of_ne {pred : Option BlockId} {b : BlockId}
    (h : phis s f pred b m = (.ok (), m')) (hv : ∀ i ∈ f.phis b, v ≠ .inst i) (width : Nat) :
    m'.value width v = m.value width v := by
  obtain ⟨new, hnew, rfl⟩ := phis_eq_ok_iff.mp h
  refine Machine.value_setPhis_of_ne fun e he => hv e.1 ?_
  rw [← map_fst_of_incoming hnew]
  exact List.mem_map_of_mem he

/-- A phi takes the value that comes along the edge. -/
theorem exists_value_of_phis {pred : Option BlockId} {b : BlockId}
    (h : phis s f pred b m = (.ok (), m')) (hn : (f.phis b).Nodup) {phi : InstId}
    (hphi : phi ∈ f.phis b) (hlt : phi < m.values.size) :
    ∃ v, pred.bind (f.incomingValue? phi) = some v ∧
      m'.value s.width (.inst phi) = m.value s.width v := by
  obtain ⟨new, hnew, rfl⟩ := phis_eq_ok_iff.mp h
  rw [← map_fst_of_incoming hnew] at hn hphi
  obtain ⟨e, he, rfl⟩ := List.mem_map.mp hphi
  obtain ⟨phi', -, v, hv, rfl⟩ := exists_mem_of_forall₂ hnew he
  exact ⟨v, hv, Machine.value_setPhis_of_mem hn he hlt⟩

/-- A block changes only the values of its instructions. -/
theorem value_block_of_ne {pred : Option BlockId} {b : BlockId} {r : BlockId ⊕ Option Lanes}
    (h : block s f pred b m = (.ok r, m')) (hv : ∀ i ∈ f.body b, v ≠ .inst i) (width : Nat) :
    m'.value width v = m.value width v := by
  obtain ⟨m1, h1, h2, -⟩ := block_eq_ok_iff.mp h
  rw [value_instrs_of_ne h2 fun i hi => hv i (Func.mem_body_of_mem_nonPhis hi),
    value_phis_of_ne h1 fun i hi => hv i (Func.mem_body_of_mem_phis hi), Machine.value_visit]

/-! ## The number of values -/

theorem size_instr {i : InstId} (h : instr s f i m = (.ok (), m')) :
    m'.values.size = m.values.size := by
  obtain ⟨code, args, xs, m1, -, -, hb, rfl⟩ := instr_eq_ok h
  rw [Machine.size_setValue, hb.values]

theorem size_instrs {l : List InstId} (h : l.forM (instr s f) m = (.ok (), m')) :
    m'.values.size = m.values.size := by
  induction l generalizing m with
  | nil =>
    cases h
    rfl
  | cons i l ih =>
    obtain ⟨_, m1, h1, h⟩ := exists_of_bind_run_eq_ok h
    rw [ih h, size_instr h1]

theorem size_phis {pred : Option BlockId} {b : BlockId} (h : phis s f pred b m = (.ok (), m')) :
    m'.values.size = m.values.size := by
  obtain ⟨new, -, rfl⟩ := phis_eq_ok_iff.mp h
  exact Machine.size_setPhis new

/-- Among instructions that run in a row each has its say once: it reads what is there when its turn
comes, and its value stays. -/
theorem exists_operation {l : List InstId} {i : InstId} (h : l.forM (instr s f) m = (.ok (), m'))
    (hn : l.Nodup) (hi : i ∈ l) (hlt : i < m.values.size) :
    ∃ before after ma mb code args xs mc, l = before ++ i :: after ∧
      before.forM (instr s f) m = (.ok (), ma) ∧ instr s f i ma = (.ok (), mb) ∧
      (f.inst i).op = .apply code args ∧
      operation s i code (args.map (ma.value s.width)) (f.typeOf ((f.inst i).input 0))
        (f.inst i).ty (active s.width ma (f.inst i).mask) ma = (.ok xs, mc) ∧
      mb.value s.width (.inst i) = xs ∧ m'.value s.width (.inst i) = xs ∧
      ∀ v : Value, (∀ k ∈ l, v ≠ .inst k) → ma.value s.width v = m.value s.width v := by
  obtain ⟨before, after, rfl⟩ := List.append_of_mem hi
  obtain ⟨ma, ha, h⟩ := forM_append_eq_ok.mp h
  obtain ⟨_, mb, hb, h⟩ := exists_of_bind_run_eq_ok h
  obtain ⟨code, args, xs, mc, hop, hx, hmc, rfl⟩ := instr_eq_ok hb
  have hself : (mc.setValue i xs).value s.width (.inst i) = xs :=
    Machine.value_setValue_self xs (by rw [hmc.values, size_instrs ha]; exact hlt)
  refine ⟨before, after, ma, _, code, args, xs, mc, rfl, ha, hb, hop, hx, hself, ?_, fun v hv => ?_⟩
  · have hafter : i ∉ after := (List.nodup_cons.mp (List.nodup_append.mp hn).2.1).1
    rw [value_instrs_of_ne h (v := .inst i) fun k hk e => hafter (Value.inst.inj e ▸ hk)]
    exact hself
  · exact value_instrs_of_ne ha (fun k hk => hv k (List.mem_append_left _ hk)) _

theorem Arrives.size {start : Machine} {pred : Option BlockId} {b : BlockId}
    (h : Arrives s f start pred b m) : m.values.size = start.values.size := by
  induction h with
  | entry => rfl
  | next h e ih =>
    obtain ⟨m1, h1, h2, -⟩ := block_eq_ok_iff.mp e
    rw [size_instrs h2, size_phis h1, ← ih]

/-! ## The blocks passed -/

theorem path_instr {i : InstId} (h : instr s f i m = (.ok (), m')) : m'.path = m.path := by
  obtain ⟨code, args, xs, m1, -, -, hb, rfl⟩ := instr_eq_ok h
  exact hb.path

theorem path_instrs {l : List InstId} (h : l.forM (instr s f) m = (.ok (), m')) :
    m'.path = m.path := by
  induction l generalizing m with
  | nil =>
    cases h
    rfl
  | cons i l ih =>
    obtain ⟨_, m1, h1, h⟩ := exists_of_bind_run_eq_ok h
    rw [ih h, path_instr h1]

theorem path_block {pred : Option BlockId} {b : BlockId} {r : BlockId ⊕ Option Lanes}
    (h : block s f pred b m = (.ok r, m')) : m'.path = b :: m.path := by
  obtain ⟨m1, h1, h2, -⟩ := block_eq_ok_iff.mp h
  obtain ⟨new, -, rfl⟩ := phis_eq_ok_iff.mp h1
  rw [path_instrs h2, Machine.path_setPhis]

theorem trace_block {pred : Option BlockId} {b : BlockId} {r : BlockId ⊕ Option Lanes}
    (h : block s f pred b m = (.ok r, m')) : m'.trace = m.trace ++ [b] := by
  unfold Machine.trace
  rw [path_block h, List.reverse_cons]

/-- A block without phis. -/
theorem block_of_ops {pred : Option BlockId} {b : BlockId} {r : BlockId ⊕ Option Lanes}
    (hp : f.phis b = [])
    (hn : (f.nonPhis b).forM (instr s f) { m with path := b :: m.path } = (.ok (), m'))
    (hr : wayOut s.width (f.term b) b m' = .ok r) : block s f pred b m = (.ok r, m') := by
  refine block_eq_ok_iff.mpr ⟨_, phis_eq_ok_iff.mpr ⟨[], ?_, rfl⟩, hn, hr⟩
  rw [hp]
  exact .nil

/-- A block without code. -/
theorem block_of_empty {pred : Option BlockId} {b n : BlockId} (hp : f.phis b = [])
    (hn : f.nonPhis b = []) (ht : f.term b = .br n) :
    block s f pred b m = (.ok (.inl n), { m with path := b :: m.path }) := by
  refine block_of_ops hp ?_ ?_
  · rw [hn]
    rfl
  · rw [ht]
    rfl

/-! ## Memory and calls -/

theorem readCell_eq_ok {address : Int64} {x : Scalar} (h : readCell address m = (.ok x, m')) :
    m' = m := by
  unfold readCell at h
  obtain ⟨k, m1, h1, h⟩ := exists_of_bind_run_eq_ok h
  cases h
  unfold cellIndex at h1
  obtain ⟨n, m2, h2, h1⟩ := exists_of_bind_run_eq_ok h1
  cases h2
  split at h1
  · cases h1
    rfl
  · cases h1

theorem lanewise_eq_ok {width : Nat} {i : InstId} {g : Nat → Except Unsupported Scalar} {xs : Lanes}
    (h : lanewise width i g m = (.ok xs, m')) : m' = m := by
  unfold lanewise at h
  cases hg : (List.range width).mapM g with
  | ok ys =>
    rw [hg] at h
    cases h
    rfl
  | error e =>
    rw [hg] at h
    cases h

theorem load_eq_ok {width : Nat} {active : Nat → Bool} {addresses xs : Lanes}
    (h : load width active addresses m = (.ok xs, m')) : m' = m := by
  refine ((mapM_run_eq_ok_iff fun l _ x m1 h => ?_).mp h).2
  cases ha : addresses.lane l with
  | int address =>
    rw [ha] at h
    by_cases hl : active l = true
    · exact readCell_eq_ok ((congrFun (if_pos hl) m).symm.trans h)
    · cases (congrFun (if_neg hl) m).symm.trans h
      rfl
  | _ =>
    rw [ha] at h
    cases h
    rfl

/-- An operation that neither stores nor calls leaves the machine as it is. -/
theorem operation_eq_ok {i : InstId} {code : Opcode} {inputs : List Lanes} {source ty : Ty}
    {active : Nat → Bool} {xs : Lanes} (hc : code.isQuiet = true)
    (h : operation s i code inputs source ty active m = (.ok xs, m')) : m' = m := by
  unfold operation at h
  cases code with
  | binary _ | cmp _ | cast _ => exact lanewise_eq_ok h
  | select | ptrOffset =>
    cases h
    rfl
  | load => exact load_eq_ok h
  | store | call _ => cases hc
  | extractElement | insertElement | shuffleVector | extractValue _ | insertValue _ => cases h

theorem effects_instrs {l : List InstId} (h : l.forM (instr s f) m = (.ok (), m'))
    (hq : ∀ i ∈ l, (f.inst i).op.isQuiet = true) :
    m'.memory = m.memory ∧ m'.callLog = m.callLog := by
  induction l generalizing m with
  | nil =>
    cases h
    exact ⟨rfl, rfl⟩
  | cons i l ih =>
    obtain ⟨_, m1, h1, h⟩ := exists_of_bind_run_eq_ok h
    obtain ⟨code, args, xs, m2, hop, hx, -, rfl⟩ := instr_eq_ok h1
    have hi := hq i List.mem_cons_self
    rw [hop] at hi
    have h : l.forM (instr s f) (m2.setValue i xs) = (.ok (), m') := h
    rw [operation_eq_ok hi hx] at h
    have heffects := ih h fun j hj => hq j (List.mem_cons_of_mem _ hj)
    exact heffects

/-- A block without stores and calls leaves memory and calls as they are. -/
theorem effects_block {pred : Option BlockId} {b : BlockId} {r : BlockId ⊕ Option Lanes}
    (h : block s f pred b m = (.ok r, m')) (hq : ∀ i ∈ f.nonPhis b, (f.inst i).op.isQuiet = true) :
    m'.memory = m.memory ∧ m'.callLog = m.callLog := by
  obtain ⟨m1, h1, h2, -⟩ := block_eq_ok_iff.mp h
  obtain ⟨new, -, rfl⟩ := phis_eq_ok_iff.mp h1
  have h3 := effects_instrs h2 hq
  have h4 := Machine.effects_setPhis (m := { m with path := b :: m.path }) new
  exact ⟨h3.1.trans h4.1, h3.2.trans h4.2⟩

theorem params_instrs {l : List InstId} (h : l.forM (instr s f) m = (.ok (), m')) :
    m'.params = m.params := by
  induction l generalizing m with
  | nil =>
    cases h
    rfl
  | cons i l ih =>
    obtain ⟨_, m1, h1, h⟩ := exists_of_bind_run_eq_ok h
    obtain ⟨code, args, xs, m2, -, -, hb, rfl⟩ := instr_eq_ok h1
    exact (ih h).trans hb.params

theorem params_phis {pred : Option BlockId} {b : BlockId}
    (h : phis s f pred b m = (.ok (), m')) : m'.params = m.params := by
  obtain ⟨new, -, rfl⟩ := phis_eq_ok_iff.mp h
  exact Machine.params_setPhis new

theorem params_block {pred : Option BlockId} {b : BlockId} {r : BlockId ⊕ Option Lanes}
    (h : block s f pred b m = (.ok r, m')) : m'.params = m.params := by
  obtain ⟨m1, h1, h2, -⟩ := block_eq_ok_iff.mp h
  rw [params_instrs h2, params_phis h1]

theorem Arrives.params {start : Machine} {pred : Option BlockId} {b : BlockId}
    (h : Arrives s f start pred b m) : m.params = start.params := by
  induction h with
  | entry => rfl
  | next h e ih => rw [params_block e, ih]

/-- Wherever an operation runs, the parameters are those of the run. -/
theorem Executes.params {start : Machine} {i : InstId} (h : Executes s f start i m) :
    m.params = start.params := by
  obtain ⟨pred, b, ma, mb, before, after, ha, hphis, -, hbefore⟩ := h
  rw [params_instrs hbefore, params_phis hphis]
  exact ha.params

theorem size_block {pred : Option BlockId} {b : BlockId} {r : BlockId ⊕ Option Lanes}
    (h : block s f pred b m = (.ok r, m')) : m'.values.size = m.values.size := by
  obtain ⟨m1, h1, h2, -⟩ := block_eq_ok_iff.mp h
  rw [size_instrs h2, size_phis h1]

/-! ## Several blocks -/

/-- A run goes through `k` blocks. -/
inductive Passes (s : Setup) (f : Func) : (k : Nat) → Option BlockId → BlockId → Machine →
    Option BlockId → BlockId → Machine → Prop
  | refl (pred : Option BlockId) (b : BlockId) (m : Machine) : Passes s f 0 pred b m pred b m
  | step {k : Nat} {pred pred' : Option BlockId} {b b' c : BlockId} {m m1 m' : Machine}
      (e : block s f pred b m = (.ok (.inl c), m1)) (h : Passes s f k (some b) c m1 pred' b' m') :
      Passes s f (k + 1) pred b m pred' b' m'

theorem Passes.trans {j k : Nat} {pred p q : Option BlockId} {b c d : BlockId} {m m1 m2 : Machine}
    (h : Passes s f j pred b m p c m1) (h' : Passes s f k p c m1 q d m2) :
    Passes s f (j + k) pred b m q d m2 := by
  induction h with
  | refl =>
    rw [Nat.zero_add]
    exact h'
  | step e _ ih =>
    rw [Nat.add_right_comm]
    exact .step e (ih h')

theorem Passes.blocks_eq {k : Nat} {pred pred' : Option BlockId} {b b' : BlockId}
    (h : Passes s f k pred b m pred' b' m') (steps : Nat) :
    blocks s f (steps + k) pred b m = blocks s f steps pred' b' m' := by
  induction h with
  | refl => rfl
  | step e _ ih => exact (bind_run_eq e).trans ih

/-- One more block. -/
theorem Passes.tail {k : Nat} {pred p : Option BlockId} {b c d : BlockId} {m1 m2 : Machine}
    (h : Passes s f k pred b m p c m1) (e : block s f p c m1 = (.ok (.inl d), m2)) :
    Passes s f (k + 1) pred b m (some c) d m2 :=
  h.trans (.step e (.refl _ _ _))

/-- Where control is after `k` blocks, if it does not leave the function before. -/
def walk (s : Setup) (f : Func) : (k : Nat) → Option BlockId → BlockId → Machine →
    Option (Option BlockId × BlockId × Machine)
  | 0, pred, b, m => some (pred, b, m)
  | k + 1, pred, b, m =>
    match block s f pred b m with
    | (.ok (.inl c), m1) => walk s f k (some b) c m1
    | _ => none

theorem passes_of_walk {k : Nat} {pred pred' : Option BlockId} {b b' : BlockId}
    (h : walk s f k pred b m = some (pred', b', m')) : Passes s f k pred b m pred' b' m' := by
  induction k generalizing pred b m with
  | zero =>
    cases h
    exact .refl _ _ _
  | succ k ih =>
    unfold walk at h
    split at h
    · exact .step ‹_› (ih h)
    · cases h

theorem Arrives.passes {start : Machine} {k : Nat} {pred pred' : Option BlockId} {b b' : BlockId}
    (h : Arrives s f start pred b m) (hp : Passes s f k pred b m pred' b' m') :
    Arrives s f start pred' b' m' := by
  induction hp with
  | refl => exact h
  | step e _ ih => exact ih (h.next e)

/-- From every block that control gets to, a run that returns goes on and returns. -/
theorem Arrives.exists_blocks {start m1 : Machine} {steps : Nat} {ret : Option Lanes}
    (e : blocks s f steps none f.entry start = (.ok ret, m1)) {pred : Option BlockId} {b : BlockId}
    (h : Arrives s f start pred b m) : ∃ k, blocks s f k pred b m = (.ok ret, m1) := by
  induction h with
  | entry => exact ⟨steps, e⟩
  | next h e' ih =>
    obtain ⟨k, hk⟩ := ih
    cases k with
    | zero => cases hk
    | succ k =>
      obtain ⟨r, m2, e2, hk⟩ := exists_of_bind_run_eq_ok hk
      cases e'.symm.trans e2
      exact ⟨k, hk⟩

/-- A run that returns gets through every block that control gets to. -/
theorem Arrives.exists_block {start m1 : Machine} {steps : Nat} {ret : Option Lanes}
    (e : blocks s f steps none f.entry start = (.ok ret, m1)) {pred : Option BlockId} {b : BlockId}
    (h : Arrives s f start pred b m) : ∃ r m', block s f pred b m = (.ok r, m') := by
  obtain ⟨k, hk⟩ := h.exists_blocks e
  cases k with
  | zero => cases hk
  | succ k =>
    obtain ⟨r, m2, e2, -⟩ := exists_of_bind_run_eq_ok hk
    exact ⟨r, m2, e2⟩

end Run

end Lockstep
