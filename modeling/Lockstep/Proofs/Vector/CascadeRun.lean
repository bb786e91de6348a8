import Lockstep.Proofs.Func.Check
import Lockstep.Proofs.Vector.CascadeLanes
import Lockstep.Proofs.Vector.Marker

/-!
# Calls lane by lane do what calls with a mask do

Runs before and after a call is made lane by lane are compared block by block. The instructions that
are left are those of the function before, in the same order, so that they compute the same values;
only the value of the call itself is missing, and nothing uses it. Where the block with the call ran,
its first half, the cascade and its second half run now (`Scalarizes.exists_block_opened`). By induction
on the blocks executed, the run makes the same calls outside, in the same order, and ends with the same
memory and the same result (`Stage.exists_run_scalarizeCall`).
-/

namespace Lockstep

/-! ## What stays -/

namespace Func

/-- The instructions that go on to be computed if a call is dropped: all but the call, unless there is a
user of its value. -/
def Stays (f : Func) (call i : InstId) : Prop :=
  i < f.insts.size ∧ (i = call → 0 < (UseMap.compute f).numUsers (.inst call))

variable {f : Func} {call : InstId} {b p : BlockId} {v : Value}

theorem within_stays {u : User} (hu : u ∈ f.users) (hv : v ∈ f.usedBy u) (hd : f.Defines v)
    (call : InstId) : v.Within (f.Stays call) := by
  cases v with
  | inst i =>
    refine ⟨hd, ?_⟩
    rintro rfl
    exact UseMap.numUsers_pos hu hv
  | _ => trivial

variable (hf : f.WellFormed)

include hf

/-- What an operation uses stays. -/
theorem WellFormed.stays_inst (hr : f.Reachable b) {i : InstId} (hi : i ∈ f.nonPhis b)
    (hv : v ∈ (f.inst i).uses) (call : InstId) : v.Within (f.Stays call) := by
  have hbody := mem_body_of_mem_nonPhis hi
  obtain ⟨before, after, e⟩ := List.append_of_mem hbody
  have hd : f.Defines v := by
    have h := hf.inst b hr before i after e (hf.phis_first b i hi) v hv
    cases v with
    | inst j =>
      rcases h with hj | ⟨d, -, hj, -⟩
      · exact hf.body_lt b j (by rw [e]; exact List.mem_append_left _ hj)
      · exact hf.body_lt d j hj
    | _ => trivial
  exact within_stays (hf.mem_users hbody) hv hd call

/-- What a phi takes stays. -/
theorem WellFormed.stays_incoming {phi : InstId} (hphi : phi ∈ f.phis b)
    (hv : f.incomingValue? phi p = some v) (call : InstId) : v.Within (f.Stays call) := by
  have hinput : v ∈ (f.inst phi).inputs := by
    obtain ⟨incoming, hop, hmem⟩ := Run.op_of_mem_incoming (Func.mem_incoming hv)
    unfold Instr.inputs
    rw [hop]
    exact List.mem_map_of_mem hmem
  exact within_stays (hf.mem_users (mem_body_of_mem_phis hphi)) (List.mem_append_left _ hinput)
    (hf.inputs phi v hinput) call

/-- What a terminator uses stays. -/
theorem WellFormed.stays_exit (hb : b < f.blocks.size) (hv : v ∈ (f.term b).uses) (call : InstId) :
    v.Within (f.Stays call) :=
  within_stays (f.mem_users_terminator.mpr ((hf.layout b).mpr hb)) hv (hf.uses b v hv) call

end Func

/-- A function outside returns nothing. -/
def Setup.GivesNothing (s : Setup) (callee : FuncId) : Prop :=
  ∀ host, s.host = some host → ∀ log args, host log { callee, args } = .undefined

/-! ## Runs before and after -/

/-- What is known of the runs of a function, and of the function in which a call of it is made lane by
lane. -/
structure Scalarizes (q : MaskedCall) (f : Func) (call : InstId) (b : BlockId) (pre post : List InstId)
    (s s' : Setup) (g : Func) : Prop where
  wellFormed : f.WellFormed
  body : f.body b = pre ++ call :: post
  op : (f.inst call).op = .apply (.call q.callee) q.inputs
  mask : (f.inst call).mask = some q.mask
  code : Cascaded q f b pre post s.width s'.isUniform g
  alike : s.Alike s'
  uniform : ∀ i < f.insts.size, s'.isUniform i = s.isUniform i
  varies : s.isUniform call = false
  extract : s.marker? q.extract = some .extract
  callee : s.marker? q.callee = none
  pos : 0 < s.width
  le : s.width ≤ Lanes.maxCount
  silent : 0 < (UseMap.compute f).numUsers (.inst call) → s.GivesNothing q.callee

namespace Scalarizes

open Run

variable {q : MaskedCall} {f g : Func} {call : InstId} {b x : BlockId} {pre post : List InstId}
  {s s' : Setup} {params : List Lanes} {memory : Array Scalar} {m m' m1 m2 : Machine}
  {pred : Option BlockId} {r : BlockId ⊕ Option Lanes}

/-- The block with the second half of the block `b`, and every other block itself. -/
def tail (f : Func) (b : BlockId) (width : Nat) (x : BlockId) : BlockId :=
  if x = b then f.blocks.size + 2 * width else x

variable (h : Scalarizes q f call b pre post s s' g)

include h

theorem isPhi_call : f.isPhi call = false := f.isPhi_of_op h.op

theorem mem_body : call ∈ f.body b := by
  rw [h.body]
  exact List.mem_append_right _ List.mem_cons_self

theorem call_lt : call < f.insts.size := h.wellFormed.body_lt b call h.mem_body

theorem block_lt : b < f.blocks.size := f.lt_of_mem_body h.mem_body

theorem nonPhis : f.nonPhis b = g.nonPhis b ++ call :: post :=
  (h.code.phis_opened h.wellFormed h.body h.isPhi_call).2

theorem renames : Renaming f g id where
  params := h.code.params
  lt _ hi := Nat.lt_of_lt_of_le hi h.code.insts
  injective _ _ _ _ e := e
  ty i hi := (h.code.same i hi).ty

theorem copied {i : InstId} (hi : i < f.insts.size) : Copied f g id i where
  op code args e := by
    rw [List.map_id'' fun v => Value.rename_id v]
    exact (h.code.same i hi).op code args e
  mask := by
    rw [id, (h.code.same i hi).mask]
    cases (f.inst i).mask with
    | none => rfl
    | some v => exact congrArg some (Value.rename_id v).symm

/-- The call with the mask is made for the active lanes, in lane order. -/
theorem exists_of_instr_call (e : instr s f call m = (.ok (), m1)) : ∃ host xs, s.host = some host ∧
    m1 = (m.logged (q.calls s.width m (List.range s.width))).setValue call xs ∧
      (s.GivesNothing q.callee → xs = .splat s.width .undefined) := by
  rw [instr_apply h.op, h.mask] at e
  obtain ⟨xs, m2, hx, e⟩ := exists_of_bind_run_eq_ok e
  cases e
  unfold operation at hx
  dsimp only at hx
  rw [h.callee] at hx
  dsimp only at hx
  cases hhost : s.host with
  | none =>
    rw [hhost] at hx
    cases hx
  | some host =>
    rw [hhost, h.varies] at hx
    obtain ⟨rfl, hnothing⟩ := callLanes_eq_ok hx
    refine ⟨host, xs, rfl, ?_, fun hg => hnothing fun log l => hg host hhost log _⟩
    unfold MaskedCall.calls
    congr 3
    funext l
    simp [MaskedCall.laneCall]

/-- A call that gives nothing leaves its value undefined. -/
theorem value_of_arrives (hsilent : s.GivesNothing q.callee)
    (ha : Arrives s f (startMachine s f params memory) pred x m) :
    m.value s.width (.inst call) = .splat s.width .undefined := by
  have hsize : (startMachine s f params memory).values.size = f.insts.size := Array.size_replicate
  induction ha with
  | entry =>
    show ((Array.replicate f.insts.size (Lanes.splat s.width .undefined))[call]?).getD _ = _
    rw [Array.getElem?_replicate, if_pos h.call_lt]
    rfl
  | @next pred c d n n' ha e ih =>
    by_cases hc : call ∈ f.body c
    · obtain ⟨n1, h1, h2, -⟩ := block_eq_ok_iff.mp e
      obtain rfl := h.wellFormed.eq_of_mem_body h.mem_body hc
      have hmem : call ∈ f.nonPhis b := by
        rw [h.nonPhis]
        exact List.mem_append_right _ List.mem_cons_self
      have hlt : call < n1.values.size := by
        rw [size_phis h1]
        exact (ha.size.trans hsize).symm ▸ h.call_lt
      have hnodup := (h.wellFormed.nodup b).sublist (List.dropWhile_sublist f.isPhi)
      obtain ⟨before, after, ma, mb, code, args, xs, mc, -, hbefore, hinstr, -, -, hval, hend, -⟩ :=
        exists_operation h2 hnodup hmem hlt
      obtain ⟨host, ys, -, rfl, hnothing⟩ := h.exists_of_instr_call hinstr
      have hma : call < (ma.logged (q.calls s.width ma (List.range s.width))).values.size := by
        rw [← size_instrs hbefore] at hlt
        exact hlt
      rw [Machine.value_setValue_self ys hma] at hval
      rw [hend, ← hval, hnothing hsilent]
    · rw [value_block_of_ne e, ih]
      rintro i hi e
      exact hc (Value.inst.inj e ▸ hi)

/-! ### Parts of a block -/

/-- Operations of the function do the same before and after. -/
theorem exists_ops (hr : f.Reachable x) {l : List InstId} (hl : ∀ i ∈ l, i ∈ f.nonPhis x)
    (hm : m.Agrees f g id (f.Stays call) m') (e : l.forM (instr s f) m = (.ok (), m1)) :
    ∃ m1', l.forM (instr s' g) m' = (.ok (), m1') ∧ m1.Agrees f g id (f.Stays call) m1' := by
  have hlt : ∀ i ∈ l, i < f.insts.size := fun i hi =>
    h.wellFormed.body_lt x i (Func.mem_body_of_mem_nonPhis (hl i hi))
  have huses : ∀ before i after, l = before ++ i :: after → ∀ v ∈ (f.inst i).uses,
      v.Within fun j => f.Stays call j ∨ j ∈ before := by
    intro before i after e v hv
    have hi := hl i (e ▸ List.mem_append_right _ List.mem_cons_self)
    exact (h.wellFormed.stays_inst hr hi hv call).mono fun j hj => .inl hj
  obtain ⟨_, m1', e', hm1⟩ := simulates_instrs h.alike h.renames h.wellFormed.toCoherent
    (fun i hi => .inr (h.uniform i (hlt i hi))) (fun i hi => ⟨hlt i hi, h.copied (hlt i hi)⟩) huses
    m m' () m1 hm e
  rw [List.map_id] at e'
  exact ⟨m1', e', hm1.mono fun j hj => .inl hj⟩

/-- A phi takes the same values before and after, of which the edge out of the block with the call comes
from the end of the cascade. -/
theorem incomingValue?_tail (hr : f.Reachable x) {p : BlockId} (hp : x ∈ (f.term p).targets)
    {phi : InstId} (hphi : phi ∈ f.phis x) :
    g.incomingValue? phi (tail f b s.width p) = f.incomingValue? phi p := by
  have hentries := h.wellFormed.entries x hr phi hphi
  have hlt : p < f.blocks.size := f.lt_of_mem_targets hp
  have hkeys : f.blocks.size + 2 * s.width ∉ (f.inst phi).incoming.map Prod.fst := by
    intro hmem
    exact Nat.not_lt.mpr (Nat.le_add_right _ _) (f.lt_of_mem_targets (hentries.pred _ hmem))
  unfold Func.incomingValue? tail
  rw [h.code.incoming x phi hphi]
  by_cases e : p = b
  · rw [if_pos e, if_pos (e ▸ hp), Func.lookup_renameEntry hkeys, e]
  · have hne : p ≠ f.blocks.size + 2 * s.width :=
      Nat.ne_of_lt (Nat.lt_of_lt_of_le hlt (Nat.le_add_right _ _))
    rw [if_neg e]
    split
    · exact Func.lookup_renameEntry_of_ne e hne _
    · rfl

/-- Phis take the same values before and after. -/
theorem exists_phis (hr : f.Reachable x) (hphis : g.phis x = f.phis x)
    (hpred : ∀ p, pred = some p → x ∈ (f.term p).targets)
    (hm : m.Agrees f g id (f.Stays call) m')
    (e : phis s f pred x { m with path := x :: m.path } = (.ok (), m1)) :
    ∃ m1', phis s' g (pred.map (tail f b s.width)) x { m' with path := x :: m'.path } = (.ok (), m1') ∧
      m1.Agrees f g id (f.Stays call) m1' := by
  have hlt : ∀ phi ∈ f.phis x, phi < f.insts.size := fun phi hphi =>
    h.wellFormed.body_lt x phi (Func.mem_body_of_mem_phis hphi)
  have hin : ∀ phi ∈ f.phis x, ∀ v, pred.bind (f.incomingValue? phi) = some v →
      ∃ v', (pred.map (tail f b s.width)).bind (g.incomingValue? (id phi)) = some v' ∧
        Machine.value { m' with path := x :: m'.path } s.width v' =
          Machine.value { m with path := x :: m.path } s.width v := by
    intro phi hphi v hv
    obtain ⟨p, rfl, hv⟩ := Option.bind_eq_some_iff.mp hv
    refine ⟨v, ?_, (hm.visit x x).value_id (h.wellFormed.stays_incoming hphi hv call) _⟩
    exact (h.incomingValue?_tail hr (hpred p rfl) hphi).trans hv
  obtain ⟨m1', e', hm1⟩ := exists_run_phis h.alike h.renames (hphis.trans (List.map_id _).symm) hlt hin
    (hm.visit x x) e
  exact ⟨m1', e', hm1.mono fun j hj => .inl hj⟩

/-- A terminator leads to the same block before and after. -/
theorem wayOut_eq (hx : x < f.blocks.size) (hm : m.Agrees f g id (f.Stays call) m')
    (e : wayOut s.width (f.term x) x m = .ok r) (y : BlockId) :
    wayOut s'.width (f.term x) y m' = .ok r := by
  have hway := wayOut_map hm (fun v hv => h.wellFormed.stays_exit hx hv call) e id y
  rw [Terminator.map_rename_id] at hway
  rw [h.alike.width, hway]
  cases r <;> rfl

/-- Machines agree after the call, since its value either is not used or is undefined as before. -/
theorem agrees_call {log : List HostCall} {xs : Lanes}
    (hm : (m.logged log).Agrees f g id (f.Stays call) m')
    (hxs : 0 < (UseMap.compute f).numUsers (.inst call) → m.value s.width (.inst call) = xs) :
    ((m.logged log).setValue call xs).Agrees f g id (f.Stays call) m' := by
  have hlt : call < (m.logged log).values.size := hm.size.symm ▸ h.call_lt
  refine hm.left (Machine.size_setValue ..) rfl rfl rfl fun i hi width => ?_
  by_cases e : i = call
  · subst e
    rw [Machine.value_setValue_self xs hlt, ← hxs (hi.2 rfl), Machine.value_logged]
    have hlt : i < m.values.size := hlt
    show (m.values[i]?).getD _ = (m.values[i]?).getD _
    rw [Array.getElem?_eq_getElem hlt]
    rfl
  · exact Machine.value_setValue_of_ne xs fun e' => e (Value.inst.inj e')

/-! ### Blocks -/

/-- A block without the call does the same before and after. -/
theorem exists_block_of_ne (ha : Arrives s f (startMachine s f params memory) pred x m) (hne : x ≠ b)
    (hm : m.Agrees f g id (f.Stays call) m') (e : block s f pred x m = (.ok r, m2)) : ∃ m2',
      block s' g (pred.map (tail f b s.width)) x m' = (.ok r, m2') ∧
        m2.Agrees f g id (f.Stays call) m2' := by
  have hr := ha.reachable
  have hx : x < f.blocks.size := hr.lt h.wellFormed.toClosed
  obtain ⟨hphis, hops⟩ := h.code.phis_of_ne h.wellFormed hx hne
  obtain ⟨m1, h1, h2, h3⟩ := block_eq_ok_iff.mp e
  obtain ⟨m1', h1', hm1⟩ := h.exists_phis hr hphis ha.mem_targets hm h1
  obtain ⟨m2', h2', hm2⟩ := h.exists_ops hr (fun i hi => hi) hm1 h2
  refine ⟨m2', block_eq_ok_iff.mpr ⟨m1', h1', hops.symm ▸ h2', ?_⟩, hm2⟩
  rw [h.code.term x hx, if_neg hne]
  exact h.wayOut_eq hx hm2 h3 x

/-- The cascade does what the call does. -/
theorem exists_cascade (hr : f.Reachable b) (hfit : q.Fits s.width m)
    (hval : s.GivesNothing q.callee → m.value s.width (.inst call) = .splat s.width .undefined)
    (hm : m.Agrees f g id (f.Stays call) m') (e : instr s f call m = (.ok (), m1)) :
    ∃ j ≤ 2 * s.width, ∃ p m1', Passes s' g j (some b) f.blocks.size m' p
        (f.blocks.size + 2 * s.width) m1' ∧ m1.Agrees f g id (f.Stays call) m1' := by
  obtain ⟨host, xs, hhost, rfl, hnothing⟩ := h.exists_of_instr_call e
  have hcall : call ∈ f.nonPhis b := by
    rw [h.nonPhis]
    exact List.mem_append_right _ List.mem_cons_self
  have hmask : q.mask.Within (f.Stays call) := h.wellFormed.stays_inst hr hcall (by
    rw [Instr.uses, h.mask]
    exact List.mem_append_right _ List.mem_cons_self) call
  have hinputs : ∀ v ∈ q.inputs, v.Within (f.Stays call) := fun v hv =>
    h.wellFormed.stays_inst hr hcall (by
      rw [Instr.uses, inputs_of_op h.op]
      exact List.mem_append_left _ hv) call
  have hserved : q.Served s' host :=
    { pos := h.alike.width.symm ▸ h.pos
      le := h.alike.width.symm ▸ h.le
      extract := h.alike.marker.symm ▸ h.extract
      callee := h.alike.marker.symm ▸ h.callee
      host := h.alike.host.symm ▸ hhost }
  have hcode := h.code
  rw [← h.alike.width] at hcode hfit ⊢
  obtain ⟨j, hj, p, m1', hpasses, hm1⟩ := hcode.exists_passes_lanes hserved hmask hinputs hfit hm
    (some b) (Nat.le_refl _)
  refine ⟨j, hj, p, m1', hpasses, h.agrees_call hm1 fun hused => ?_⟩
  rw [hnothing (h.silent hused), hval (h.silent hused)]

/-- Where the block with the call ran, its first half, the cascade and its second half run. -/
theorem exists_block_opened (ha : Arrives s f (startMachine s f params memory) pred b m)
    (hfit : ∀ n, Executes s f (startMachine s f params memory) call n → q.Fits s.width n)
    (hm : m.Agrees f g id (f.Stays call) m') (e : block s f pred b m = (.ok r, m2)) :
    ∃ j ≤ 2 * s.width + 1, ∃ p m3' m2', Passes s' g j (pred.map (tail f b s.width)) b m' p
        (f.blocks.size + 2 * s.width) m3' ∧
      block s' g p (f.blocks.size + 2 * s.width) m3' = (.ok r, m2') ∧
        m2.Agrees f g id (f.Stays call) m2' := by
  have hr := ha.reachable
  obtain ⟨hphis, hops⟩ := h.code.phis_opened h.wellFormed h.body h.isPhi_call
  obtain ⟨hphis', hops'⟩ := h.code.phis_finish h.wellFormed h.body h.isPhi_call
  obtain ⟨m1, h1, h2, h3⟩ := block_eq_ok_iff.mp e
  have hrest := h2
  rw [hops] at hrest
  obtain ⟨ma, hbefore, hrest⟩ := forM_append_eq_ok.mp hrest
  obtain ⟨_, mc, hcall, hafter⟩ := exists_of_bind_run_eq_ok hrest
  -- the first half
  obtain ⟨m1', h1', hm1⟩ := h.exists_phis hr hphis ha.mem_targets hm h1
  obtain ⟨ma', hbefore', hma⟩ := h.exists_ops hr (fun i hi => by
    rw [hops]
    exact List.mem_append_left _ hi) hm1 hbefore
  have hfirst : block s' g (pred.map (tail f b s.width)) b m' = (.ok (.inl f.blocks.size), ma') := by
    refine block_eq_ok_iff.mpr ⟨m1', h1', hbefore', ?_⟩
    rw [h.code.term b h.block_lt, if_pos rfl]
    rfl
  -- the cascade
  have hval : s.GivesNothing q.callee → ma.value s.width (.inst call) = .splat s.width .undefined := by
    intro hsilent
    have hnodup : (f.nonPhis b).Nodup :=
      (h.wellFormed.nodup b).sublist (List.dropWhile_sublist f.isPhi)
    rw [hops] at hnodup
    rw [value_instrs_of_ne hbefore, value_phis_of_ne h1, Machine.value_visit,
      h.value_of_arrives hsilent ha]
    · rintro i hi e
      obtain rfl := Value.inst.inj e
      exact Bool.false_ne_true (h.isPhi_call.symm.trans (Func.isPhi_of_mem_phis hi))
    · rintro i hi e
      obtain rfl := Value.inst.inj e
      exact (List.nodup_append.mp hnodup).2.2 _ hi _ List.mem_cons_self rfl
  have hexec : Executes s f (startMachine s f params memory) call ma :=
    ⟨pred, b, m, m1, g.nonPhis b, post, ha, h1, hops, hbefore⟩
  obtain ⟨j, hj, p, m3', hpasses, hmc⟩ := h.exists_cascade hr (hfit ma hexec) hval hma hcall
  -- the second half
  have hvisit : mc.Agrees f g id (f.Stays call)
      { m3' with path := (f.blocks.size + 2 * s.width) :: m3'.path } := { hmc with }
  obtain ⟨m2', hafter', hm2⟩ := h.exists_ops hr (fun i hi => by
    rw [hops]
    exact List.mem_append_right _ (List.mem_cons_of_mem _ hi)) hvisit hafter
  refine ⟨j + 1, Nat.succ_le_succ hj, p, m3', m2', .step hfirst hpasses,
    block_of_ops hphis' (hops'.symm ▸ hafter') ?_, hm2⟩
  rw [h.code.term_finish]
  exact h.wayOut_eq h.block_lt hm2 h3 _

/-- A block runs, and what stands in its place runs alike, in at most twice as many blocks as there are
lanes, and two more. -/
theorem exists_step (ha : Arrives s f (startMachine s f params memory) pred x m)
    (hfit : ∀ n, Executes s f (startMachine s f params memory) call n → q.Fits s.width n)
    (hm : m.Agrees f g id (f.Stays call) m') (e : block s f pred x m = (.ok r, m2)) :
    ∃ j ≤ 2 * s.width + 1, ∃ p m3' m2', Passes s' g j (pred.map (tail f b s.width)) x m' p
        (tail f b s.width x) m3' ∧
      block s' g p (tail f b s.width x) m3' = (.ok r, m2') ∧ m2.Agrees f g id (f.Stays call) m2' := by
  unfold tail
  by_cases hx : x = b
  · subst hx
    rw [if_pos rfl]
    exact h.exists_block_opened ha hfit hm e
  · rw [if_neg hx]
    obtain ⟨m2', e', hm2⟩ := h.exists_block_of_ne ha hx hm e
    exact ⟨0, Nat.zero_le _, _, m', m2', .refl _ _ _, e', hm2⟩

/-! ### Runs -/

/-- Control goes on alike until it leaves the function. -/
theorem exists_blocks {steps steps' : Nat} (hle : (2 * s.width + 2) * steps ≤ steps')
    (hfit : ∀ n, Executes s f (startMachine s f params memory) call n → q.Fits s.width n)
    (ha : Arrives s f (startMachine s f params memory) pred x m)
    (hm : m.Agrees f g id (f.Stays call) m') {ret : Option Lanes}
    (e : blocks s f steps pred x m = (.ok ret, m1)) : ∃ m1',
      blocks s' g steps' (pred.map (tail f b s.width)) x m' = (.ok ret, m1') ∧
        m1.Agrees f g id (f.Stays call) m1' := by
  induction steps generalizing steps' pred x m m' with
  | zero => cases e
  | succ steps ih =>
    obtain ⟨r, m2, e1, e⟩ := exists_of_bind_run_eq_ok e
    obtain ⟨j, hj, p, m3', m2', hpasses, e1', hm2⟩ := h.exists_step ha hfit hm e1
    obtain ⟨rest, rfl, hrest⟩ : ∃ rest,
        steps' = rest + 1 + j ∧ (2 * s.width + 2) * steps ≤ rest := by
      rw [Nat.mul_succ] at hle
      exact ⟨steps' - j - 1, by omega, by omega⟩
    rw [hpasses.blocks_eq]
    cases r with
    | inr ret' =>
      cases e
      exact ⟨m2', bind_run_eq e1', hm2⟩
    | inl c =>
      obtain ⟨m1', e', hm1⟩ := ih hrest (.next ha e1) hm2 e
      exact ⟨m1', (bind_run_eq e1').trans e', hm1⟩

/-- The function in which the call is made lane by lane returns the same, with the same memory and
calls. -/
theorem exists_run (hlimit : (2 * s.width + 2) * s.limit ≤ s'.limit) {args : List Lanes}
    (hp : arguments s f args = .ok params)
    (hfit : ∀ n, Executes s f (startMachine s f params memory) call n → q.Fits s.width n)
    {ret : Option Lanes} (e : f.run s args memory = (.ok ret, m1)) : ∃ m1',
      g.run s' args memory = (.ok ret, m1') ∧ m1'.callLog = m1.callLog ∧ m1'.memory = m1.memory := by
  have hp' : arguments s' g args = .ok params := by
    rw [← hp]
    unfold arguments
    rw [h.alike.width, h.code.params]
  have hstart : (startMachine s f params memory).Agrees f g id (f.Stays call)
      (startMachine s' g params memory) :=
    { size := Array.size_replicate
      size' := Array.size_replicate
      within := fun i hi => hi.1
      params := rfl
      memory := rfl
      callLog := rfl
      values := fun i hi => by
        show (Array.replicate _ _)[i]? = (Array.replicate _ _)[i]?
        rw [Array.getElem?_replicate, Array.getElem?_replicate, if_pos hi.1,
          if_pos (Nat.lt_of_lt_of_le hi.1 h.code.insts), h.alike.width] }
  rw [Func.run_eq hp] at e
  rw [Func.run_eq hp']
  obtain ⟨m1', e', hm1⟩ := h.exists_blocks hlimit hfit .entry hstart e
  exact ⟨m1', e', hm1.callLog, hm1.memory⟩

end Scalarizes

/-! ## Making a call lane by lane -/

/-- A run with all lanes, in which the markers and what is known to be uniform are taken into account. -/
def VectorInfo.setup (v : VectorInfo) (markers : Markers) (limit : Nat) (host : Option Host) : Setup where
  width := v.width
  limit
  marker? := markers.kindOf?
  isUniform i := v.isUniform (.inst i)
  host

namespace Stage

open Run MaskedCall

variable {t u : Stage} {b : BlockId} {call : InstId} {callee : FuncId} {mask : Value}
  {pre post : List InstId} {markers : Markers} {limit limit' : Nat} {host : Option Host}
  {args params : List Lanes}

/-- The runs before and after a call has been made lane by lane. -/
theorem Scalarized.scalarizes
    (hu : Scalarized (ofInstr markers t.info.isUniform (t.func.inst call) callee mask) b pre post t u)
    (hextract : markers.kindOf? (markers.func .extract) = some .extract)
    (hf : t.func.WellFormed) (hbody : t.func.body b = pre ++ call :: post)
    (hcallee : (t.func.inst call).callee? = some callee) (hmarker : markers.kindOf? callee = none)
    (hmask : (t.func.inst call).mask = some mask) (hvaries : t.info.isUniform (.inst call) = false)
    (hsilent : 0 < (UseMap.compute t.func).numUsers (.inst call) →
      (t.info.setup markers limit host).GivesNothing callee)
    (hp : arguments (t.info.setup markers limit host) t.func args = .ok params) :
    Scalarizes (ofInstr markers t.info.isUniform (t.func.inst call) callee mask) t.func call b pre post
      (t.info.setup markers limit host) (u.info.setup markers limit' host) u.func where
  wellFormed := hf
  body := hbody
  op := Instr.op_of_callee? hcallee
  mask := hmask
  code := hu.code
  alike := ⟨hu.width, rfl, rfl⟩
  uniform := hu.uniform
  varies := hvaries
  extract := hextract
  callee := hmarker
  pos := (width_of_arguments hp).1
  le := (width_of_arguments hp).2
  silent := hsilent

/-- A module that declares one function, and no markers yet. -/
def oneFunc : Module where
  funcs := #[{ name := "f", retTy := .int 32, params := [.int 32, .int 32] }]

/-- A loop of one block, which calls a function in the lanes in which its first parameter holds. The
third parameter is the same in every lane. -/
def callInLoop : Stage where
  func :=
    { params := [.bool, .int 32, .int 32]
      retTy := .int 32
      blocks := #[
        { term := .br 1 },
        { insts := [0, 1, 2, 3], term := .brIf (.inst 3) 1 2 },
        { term := .ret (some (.inst 2)) }]
      insts := #[
        { op := .phi [(0, .ofInt (.int 32) 0), (1, .inst 2)], ty := .int 32, block := 1 },
        { op := .apply (.call 0) [.param 1, .param 2], ty := .int 32, mask := some (.param 0), block := 1 },
        { op := .apply (.binary .add) [.inst 0, .ofInt (.int 32) 1], ty := .int 32, block := 1 },
        { op := .apply (.cmp .slt) [.inst 2, .ofInt (.int 32) 2], ty := .bool, block := 1 }]
      layout := [0, 1, 2] }
  info := ({ width := 3 } : VectorInfo).setShape (.param 2) .uni

/-- Every call returns how many came before it. -/
def countCalls : Host := fun log _ => .int (Int64.ofNat log.length)

/-- The first and the last lane call. -/
def callInLoopArgs : List Lanes :=
  [[.bool true, .bool false, .bool true], [.int 7, .int 8, .int 9], .splat 3 (.int 5)]

/-- The run of the loop, with the markers that are missing declared. -/
def callInLoopRun : Except EvalError (Option Lanes) × Machine :=
  callInLoop.func.run (callInLoop.info.setup (Markers.declare oneFunc).1 4 (some countCalls))
    callInLoopArgs #[]

/-- The lanes know whether they call, and share the input that is known to be uniform. -/
theorem fits_callInLoop {n : Machine} (hn : n.params = callInLoopArgs) :
    (ofInstr (Markers.declare oneFunc).1 callInLoop.info.isUniform (callInLoop.func.inst 1) 0
      (.param 0)).Fits 3 n := by
  have hvalue : ∀ k : Nat, n.value 3 (.param k) = callInLoopArgs[k]?.getD (.splat 3 .undefined) := by
    intro k
    rw [← hn]
    rfl
  constructor
  · intro lane hlane
    have hmask : n.value 3 (.param 0) = [.bool true, .bool false, .bool true] := hvalue 0
    show ∃ b, (n.value 3 (.param 0)).lane lane = .bool b
    rw [hmask]
    obtain rfl | rfl | rfl : lane = 0 ∨ lane = 1 ∨ lane = 2 := by omega
    · exact ⟨true, rfl⟩
    · exact ⟨false, rfl⟩
    · exact ⟨true, rfl⟩
  · intro v hv huniform lane hlane
    have hv : v ∈ [Value.param 1, Value.param 2] := hv
    obtain rfl | rfl : v = .param 1 ∨ v = .param 2 := by simpa using hv
    · exact absurd huniform (by decide +kernel)
    · have hshared : n.value 3 (.param 2) = .splat 3 (.int 5) := hvalue 2
      rw [hshared, Lanes.lane_splat _ hlane, Lanes.lane_splat _ (by decide)]

end Stage

end Lockstep
