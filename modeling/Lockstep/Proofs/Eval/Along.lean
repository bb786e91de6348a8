import Lockstep.Proofs.Eval.Frame

/-!
# Runs through copies of blocks

`Along f g σ D pred b m pred' m'` says that control comes to the block `b` of `f` with the machine
`m`, and to a copy of it with the machine `m'`: the values computed in the blocks `D`, which have
been passed, agree with their copies, and the phis of the block and of the copy take the same
values. Such machines go through the blocks alike (`Along.exists_block`), and come to copies of the
same block (`Along.next`).
-/

namespace Lockstep

open Run

/-! ## Starting -/

/-- The machine with which a run starts. -/
def startMachine (s : Setup) (f : Func) (params : List Lanes) (memory : Array Scalar) : Machine :=
  { params, values := Array.replicate f.insts.size (Lanes.splat s.width .undefined), memory }

theorem Func.run_eq {s : Setup} {f : Func} {args params : List Lanes} {memory : Array Scalar}
    (hp : arguments s f args = .ok params) :
    f.run s args memory = Run.blocks s f s.limit none f.entry (startMachine s f params memory) := by
  unfold Func.run
  rw [hp]
  rfl

theorem Func.exists_arguments {s : Setup} {f : Func} {args : List Lanes} {memory : Array Scalar}
    {ret : Option Lanes} {m : Machine} (e : f.run s args memory = (.ok ret, m)) :
    ∃ params, arguments s f args = .ok params := by
  unfold Func.run at e
  cases hp : arguments s f args with
  | ok params => exact ⟨params, rfl⟩
  | error err =>
    rw [hp] at e
    cases e

/-- The arguments of a single lane are taken as they are. -/
theorem Run.arguments_one {s : Setup} {f : Func} {args params : List Lanes} (hw : s.width = 1)
    (h : arguments s f args = .ok params) : params = args := by
  have hone : ∀ xs ys, argument 1 xs = .ok ys → ys = xs := by
    intro xs ys h
    unfold argument at h
    split at h
    · cases h
      rfl
    · split at h
      · cases h
        rfl
      · cases h
  unfold arguments at h
  split at h
  · cases h
  split at h
  · cases h
  rw [hw] at h
  clear * - h hone
  induction args generalizing params with
  | nil =>
    cases h
    rfl
  | cons xs args ih =>
    rw [List.mapM_cons] at h
    obtain ⟨ys, hy, h⟩ := exists_of_bind_eq_ok h
    obtain ⟨zs, hz, h⟩ := exists_of_bind_eq_ok h
    cases h
    rw [hone xs ys hy, ih hz]

/-! ## Blocks and their copies -/

/-- What is left as it is on one side can be changed on the other. -/
theorem Machine.Agrees.left {f g : Func} {σ : InstId → InstId} {S : InstId → Prop}
    {m m' n : Machine} (h : m.Agrees f g σ S m') (hsize : n.values.size = m.values.size)
    (hp : n.params = m.params) (hm : n.memory = m.memory) (hc : n.callLog = m.callLog)
    (hv : ∀ i, S i → ∀ width, n.value width (.inst i) = m.value width (.inst i)) :
    n.Agrees f g σ S m' where
  size := hsize.trans h.size
  size' := h.size'
  within := h.within
  params := h.params.trans hp.symm
  memory := h.memory.trans hm.symm
  callLog := h.callLog.trans hc.symm
  values i hi := by
    have hlt := h.within i hi
    rw [h.values i hi]
    have hm : i < m.values.size := h.size.symm ▸ hlt
    have hn : i < n.values.size := hsize.symm ▸ hm
    have e : (n.values[i]?).getD _ = (m.values[i]?).getD _ := hv i hi 0
    rw [Array.getElem?_eq_getElem hm, Array.getElem?_eq_getElem hn] at e ⊢
    exact congrArg some e.symm

/-- Values that are no copies can be set. -/
theorem Machine.Agrees.right {f g : Func} {σ : InstId → InstId} {S : InstId → Prop}
    {m m' n' : Machine} (h : m.Agrees f g σ S m') (hsize : n'.values.size = m'.values.size)
    (hp : n'.params = m'.params) (hm : n'.memory = m'.memory) (hc : n'.callLog = m'.callLog)
    (hv : ∀ i, S i → n'.values[σ i]? = m'.values[σ i]?) : m.Agrees f g σ S n' where
  size := h.size
  size' := hsize.trans h.size'
  within := h.within
  params := hp.trans h.params
  memory := hm.trans h.memory
  callLog := hc.trans h.callLog
  values i hi := (hv i hi).trans (h.values i hi)

/-- Control comes to a block and to its copy, after the blocks `D`. -/
structure Along (f g : Func) (σ : InstId → InstId) (D : BlockId → Prop) (pred : Option BlockId)
    (b : BlockId) (m : Machine) (pred' : Option BlockId) (m' : Machine) : Prop where
  agrees : m.Agrees f g σ (f.DefinedIn D) m'
  path : f.Path D f.entry b
  incoming : ∀ phi ∈ f.phis b, ∀ v, pred.bind (f.incomingValue? phi) = some v →
    ∃ v', pred'.bind (g.incomingValue? (σ phi)) = some v' ∧ m'.value 1 v' = m.value 1 v

namespace Along

variable {f g : Func} {σ : InstId → InstId} {D : BlockId → Prop} {pred pred' : Option BlockId}
  {b b' n q : BlockId} {m m' m2 m2' : Machine} {s s' : Setup} {extra : List InstId}
  {r : BlockId ⊕ Option Lanes}

theorem reachable (h : Along f g σ D pred b m pred' m') : f.Reachable b :=
  Cfg.reachable_of_path h.path

section

variable (hs : s.Alike s') (hw : s.width = 1) (hσ : Renaming f g σ) (hf : f.WellFormed)

include hs hw hσ hf

/-- The phis and operations of a block do what their copies do. What is no copy keeps its value. -/
theorem exists_ops (h : Along f g σ D pred b m pred' m') (hb : CopiedBlock f g σ b b' extra)
    (e : block s f pred b m = (.ok r, m2)) : ∃ m1' m2',
      phis s' g pred' b' { m' with path := b' :: m'.path } = (.ok (), m1') ∧
      ((f.nonPhis b).map σ).forM (instr s' g) m1' = (.ok (), m2') ∧
      m2.Agrees f g σ (f.DefinedIn fun d => D d ∨ d = b) m2' ∧ m2'.path = b' :: m'.path ∧
      ∀ v, (∀ i ∈ f.body b, v ≠ .inst (σ i)) → m2'.value 1 v = m'.value 1 v := by
  obtain ⟨m1, h1, h2, -⟩ := block_eq_ok_iff.mp e
  have hin := h.incoming
  rw [← hw] at hin
  obtain ⟨m1', m2', h1', h2', hm2⟩ :=
    exists_run_copiedBlock hs hw hσ hf hb h.reachable h.path hin h.agrees h1 h2
  refine ⟨m1', m2', h1', h2', hm2, ?_, fun v hv => ?_⟩
  · obtain ⟨new, -, rfl⟩ := phis_eq_ok_iff.mp h1'
    rw [path_instrs h2', Machine.path_setPhis]
  · rw [value_instrs_of_ne h2' fun i hi => ?_, value_phis_of_ne h1' fun i hi => ?_]
    · exact m'.value_visit _ 1 v
    · rw [hb.phis] at hi
      obtain ⟨k, hk, rfl⟩ := List.mem_map.mp hi
      exact hv k (Func.mem_body_of_mem_phis hk)
    · obtain ⟨k, hk, rfl⟩ := List.mem_map.mp hi
      exact hv k (Func.mem_body_of_mem_nonPhis hk)

omit hσ hs in
/-- The copy of a terminator leads to where the terminator leads. -/
theorem wayOut_copy (h : Along f g σ D pred b m pred' m')
    (hm : m2.Agrees f g σ (f.DefinedIn fun d => D d ∨ d = b) m2')
    (e : block s f pred b m = (.ok r, m2)) (τ : BlockId → BlockId) (b' : BlockId) :
    wayOut 1 ((f.term b).map τ (·.rename σ)) b' m2' = .ok (r.map τ id) := by
  obtain ⟨-, -, -, hway⟩ := block_eq_ok_iff.mp e
  rw [hw] at hway
  have hp : f.Path (fun d => D d ∨ d = b) f.entry b := h.path.mono fun _ => .inl
  exact wayOut_map hm (fun v hv => (hf.exit b h.reachable v hv).within_end hp (.inr rfl)) hway τ b'

/-- A block does what its copy does. -/
theorem exists_block (h : Along f g σ D pred b m pred' m') (hb : CopiedBlock f g σ b b' [])
    {τ : BlockId → BlockId} (ht : g.term b' = (f.term b).map τ (·.rename σ))
    (e : block s f pred b m = (.ok r, m2)) : ∃ m2',
      block s' g pred' b' m' = (.ok (r.map τ id), m2') ∧
      m2.Agrees f g σ (f.DefinedIn fun d => D d ∨ d = b) m2' ∧
      ∀ v, (∀ i ∈ f.body b, v ≠ .inst (σ i)) → m2'.value 1 v = m'.value 1 v := by
  obtain ⟨m1', m2', h1', h2', hm2, -, hkept⟩ := h.exists_ops hs hw hσ hf hb e
  refine ⟨m2', block_eq_ok_iff.mpr ⟨m1', h1', ?_, ?_⟩, hm2, hkept⟩
  · rw [hb.nonPhis, List.append_nil]
    exact h2'
  · rw [hs.width, hw, ht]
    exact h.wayOut_copy hw hf hm2 e τ b'

end

/-- Control starts alike, since nothing has been computed. -/
theorem start (f g : Func) (σ : InstId → InstId) (s s' : Setup) (params : List Lanes)
    (memory : Array Scalar) : Along f g σ (fun _ => False) none f.entry
      (startMachine s f params memory) none (startMachine s' g params memory) where
  agrees :=
    { size := Array.size_replicate
      size' := Array.size_replicate
      within := fun _ ⟨_, hd, _⟩ => hd.elim
      params := rfl
      memory := rfl
      callLog := rfl
      values := fun _ ⟨_, hd, _⟩ => hd.elim }
  path := .refl _
  incoming := nofun

/-- Control comes to copies of the same block, if the phis there name copies. -/
theorem next (hf : f.WellFormed) (h : Along f g σ D pred b m pred' m')
    (hm : m2.Agrees f g σ (f.DefinedIn fun d => D d ∨ d = b) m2') (hn : n ∈ (f.term b).targets)
    (hin : ∀ phi ∈ f.phis n, ∀ v, f.incomingValue? phi b = some v →
      g.incomingValue? (σ phi) q = some (v.rename σ)) :
    Along f g σ (fun d => D d ∨ d = b) (some b) n m2 (some q) m2' := by
  have hp : f.Path (fun d => D d ∨ d = b) f.entry b := h.path.mono fun _ => .inl
  refine ⟨hm, hp.tail (.inr rfl) hn, ?_⟩
  refine exists_incoming_copy hf (h.reachable.step hn) ?_ ?_ hm 1
  · rintro _ ⟨⟩
    exact ⟨.inr rfl, hp⟩
  · rintro phi hphi _ v ⟨⟩ hv
    exact hin phi hphi v hv

end Along

/-! ## The same function -/

theorem Terminator.map_rename_id (t : Terminator) : t.map id (·.rename id) = t := by
  cases t with
  | ret v => cases v <;> simp [Terminator.map]
  | _ => simp [Terminator.map]

theorem renaming_id (f : Func) : Renaming f f id :=
  ⟨rfl, fun _ hi => hi, fun _ _ _ _ e => e, fun _ _ => rfl⟩

theorem copiedBlock_id (f : Func) (b : BlockId) : CopiedBlock f f id b b [] where
  phis := (List.map_id _).symm
  nonPhis := by rw [List.map_id, List.append_nil]
  ops i _ :=
    { op := fun code args e => by
        rw [id, e, List.map_id'' fun v => Value.rename_id v]
      mask := by
        rw [id]
        cases (f.inst i).mask with
        | none => rfl
        | some v => exact congrArg some (Value.rename_id v).symm }

variable {s s' : Setup} {f : Func}

theorem Along.exists_blocks_self (hs : s.Alike s') (hw : s.width = 1) (hf : f.WellFormed)
    {steps steps' : Nat} (hle : steps ≤ steps') {D : BlockId → Prop} {pred : Option BlockId}
    {b : BlockId} {m m' m1 : Machine} (h : Along f f id D pred b m pred m') {ret : Option Lanes}
    (e : blocks s f steps pred b m = (.ok ret, m1)) : ∃ m1',
      blocks s' f steps' pred b m' = (.ok ret, m1') ∧ m1'.memory = m1.memory ∧
        m1'.callLog = m1.callLog := by
  induction steps generalizing steps' D pred b m m' with
  | zero => cases e
  | succ steps ih =>
    obtain ⟨k, rfl⟩ : ∃ k, steps' = k + 1 := ⟨steps' - 1, by omega⟩
    obtain ⟨r, m2, e1, e⟩ := exists_of_bind_run_eq_ok e
    obtain ⟨m2', e1', hm2, -⟩ := h.exists_block hs hw (renaming_id f) hf (copiedBlock_id f b)
      (τ := id) (f.term b).map_rename_id.symm e1
    cases r with
    | inr ret' =>
      cases e
      exact ⟨m2', bind_run_eq e1', hm2.memory, hm2.callLog⟩
    | inl n =>
      have hnext := h.next (q := b) hf hm2 (target_of_block e1) fun phi _ v hv => by
        rw [Value.rename_id]
        exact hv
      obtain ⟨m1', e', hresult⟩ := ih (Nat.le_of_succ_le_succ hle) hnext e
      exact ⟨m1', (bind_run_eq e1').trans e', hresult⟩

/-- A function does the same with more steps, and whatever is known to be uniform. -/
theorem Func.exists_run_alike (hs : s.Alike s') (hw : s.width = 1) (hf : f.WellFormed)
    (hle : s.limit ≤ s'.limit) {args : List Lanes} {memory : Array Scalar} {ret : Option Lanes}
    {m : Machine} (e : f.run s args memory = (.ok ret, m)) : ∃ m',
      f.run s' args memory = (.ok ret, m') ∧ m'.memory = m.memory ∧ m'.callLog = m.callLog := by
  obtain ⟨params, hp⟩ := Func.exists_arguments e
  have hp' : arguments s' f args = .ok params := by
    rw [← hp]
    unfold arguments
    rw [hs.width]
  rw [Func.run_eq hp] at e
  rw [Func.run_eq hp']
  exact (Along.start f f id s s' params memory).exists_blocks_self hs hw hf hle e

end Lockstep
