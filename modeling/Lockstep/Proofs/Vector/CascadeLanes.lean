import Lockstep.Proofs.Eval.LaneRun
import Lockstep.Proofs.Vector.CascadeCode

/-!
# The run of a cascade

A call with a mask adds one call to the calls made for each lane in which the mask is true, in lane
order (`callLanes_eq_ok`). The blocks of a lane do that for their lane: the first asks whether the lane
is active, and the second passes outside what the lane has (`LaneCode.exists_passes`). By induction on
the lanes, the blocks of all lanes do what the call does (`Cascaded.exists_passes_lanes`).
-/

namespace Lockstep

/-- A machine in which other calls have been made. -/
def Machine.logged (m : Machine) (log : List HostCall) : Machine := { m with callLog := log }

@[simp] theorem Machine.value_logged (m : Machine) (log : List HostCall) (width : Nat) (v : Value) :
    (m.logged log).value width v = m.value width v := by
  cases v <;> rfl

theorem Machine.Agrees.logged {f g : Func} {ρ : InstId → InstId} {S : InstId → Prop}
    {m m' : Machine} (h : m.Agrees f g ρ S m') (log : List HostCall) :
    (m.logged log).Agrees f g ρ S (m'.logged log) :=
  { h with callLog := rfl }

/-! ## A call with a mask -/

namespace Run

/-- The calls that there are once `lanes` had their turn, newest first. -/
def callsOf (active : Nat → Bool) (call : Nat → HostCall) (lanes : List Nat) (log : List HostCall) :
    List HostCall :=
  lanes.foldl (fun log l => if active l then call l :: log else log) log

variable {host : Host} {active : Nat → Bool} {call : Nat → HostCall} {m m1 : Machine} {xs : Lanes}

theorem mapM_callHost_eq_ok {lanes : List Nat} (h : lanes.mapM (fun l =>
      if active l then callHost host (call l) else return .undefined) m = (.ok xs, m1)) :
    m1 = m.logged (callsOf active call lanes m.callLog) ∧
      ((∀ log l, host log (call l) = .undefined) → xs = .splat lanes.length .undefined) := by
  induction lanes generalizing m xs with
  | nil =>
    cases h
    exact ⟨rfl, fun _ => rfl⟩
  | cons l lanes ih =>
    rw [List.mapM_cons] at h
    obtain ⟨x, m2, hx, h⟩ := exists_of_bind_run_eq_ok h
    obtain ⟨ys, m3, hys, h⟩ := exists_of_bind_run_eq_ok h
    cases h
    obtain ⟨rfl, hnothing⟩ := ih hys
    by_cases hl : active l = true
    · rw [if_pos hl] at hx
      cases hx
      refine ⟨?_, fun hhost => ?_⟩
      · show _ = m.logged (callsOf active call lanes (if active l then _ else _))
        rw [if_pos hl]
        rfl
      · rw [hnothing hhost, hhost]
        rfl
    · rw [if_neg hl] at hx
      cases hx
      refine ⟨?_, fun hhost => ?_⟩
      · show _ = m.logged (callsOf active call lanes (if active l then _ else _))
        rw [if_neg hl]
      · rw [hnothing hhost]
        rfl

/-- A call with a mask is made for each active lane, in lane order. -/
theorem callLanes_eq_ok {width : Nat} (h : callLanes host width active call m = (.ok xs, m1)) :
    m1 = m.logged (callsOf active call (List.range width) m.callLog) ∧
      ((∀ log l, host log (call l) = .undefined) → xs = .splat width .undefined) := by
  have hlanes := mapM_callHost_eq_ok h
  rwa [List.length_range] at hlanes

theorem agree_splat {width : Nat} (hw : 0 < width) (b : Bool) :
    agree (.splat width (.bool b)) = some (some b) := by
  refine agree_eq_some (List.mem_replicate.mpr ⟨Nat.ne_of_gt hw, rfl⟩) fun c hc => ?_
  exact Scalar.bool.inj (List.eq_of_mem_replicate hc)

end Run

/-! ## What a call passes outside -/

namespace MaskedCall

open Run

variable (q : MaskedCall) (width : Nat) (m : Machine)

/-- Whether a call is made for a lane. -/
def isActive (lane : Nat) : Bool := ((m.value width q.mask).lane lane).isTrue

/-- The call that is made for a lane. -/
def laneCall (lane : Nat) : HostCall where
  callee := q.callee
  args := q.inputs.map fun v => (m.value width v).lane lane

/-- The calls that there are once a call has been made for `lanes`, newest first. -/
def calls (lanes : List Nat) : List HostCall :=
  callsOf (q.isActive width m) (q.laneCall width m) lanes m.callLog

/-- Whether all lanes know if they are active, and agree on the inputs that are passed as they are. -/
structure Fits : Prop where
  mask : ∀ lane < width, ∃ b, (m.value width q.mask).lane lane = .bool b
  uniform : ∀ v ∈ q.inputs, q.isUniform v = true →
    ∀ lane < width, (m.value width v).lane lane = (m.value width v).lane 0

/-- What a run provides for calls that are made lane by lane. -/
structure Served (s : Setup) (host : Host) : Prop where
  pos : 0 < s.width
  le : s.width ≤ Lanes.maxCount
  extract : s.marker? q.extract = some .extract
  callee : s.marker? q.callee = none
  host : s.host = some host

variable {q width m}

theorem isActive_logged (log : List HostCall) :
    q.isActive width (m.logged log) = q.isActive width m := by
  funext lane
  simp [isActive]

theorem laneCall_logged (log : List HostCall) :
    q.laneCall width (m.logged log) = q.laneCall width m := by
  funext lane
  simp [laneCall]

theorem Fits.logged (h : q.Fits width m) (log : List HostCall) : q.Fits width (m.logged log) := by
  constructor
  · simpa using h.mask
  · simpa using h.uniform

theorem calls_range_succ (lane : Nat) : q.calls width m (List.range (lane + 1)) =
    if q.isActive width m lane then q.laneCall width m lane :: q.calls width m (List.range lane)
    else q.calls width m (List.range lane) := by
  unfold calls callsOf
  rw [List.range_succ, List.foldl_append]
  rfl

/-! ## The instructions of a lane -/

variable {f g : Func} {S : InstId → Prop} {s : Setup} {host : Host} {m' : Machine} {i k : InstId}
  {lane : Nat} {next cond masked : BlockId} {v : Value}

theorem val_laneConst (h : lane < Lanes.maxCount) : ∃ x : Int64,
    (laneConst lane) = .const ⟨.int 32, .int x⟩ ∧ ¬ x < 0 ∧ x.toInt.toNat = lane := by
  refine ⟨Word.signExtend (Int64.ofNat lane) 32, rfl, ?_⟩
  revert lane
  decide

/-- Taking a lane of a value. -/
theorem instr_extract (hs : q.Served s host) (hl : lane < s.width)
    (ha : g.Applies i (.call q.extract) [v, laneConst lane]) : instr s g i m =
      (.ok (), m.setValue i (.splat s.width ((m.value s.width v).lane lane))) := by
  obtain ⟨x, hx, hpos, hlane⟩ := val_laneConst (Nat.lt_of_lt_of_le hl hs.le)
  have heval : Marker.extract.eval s.width ([v, laneConst lane].map (m.value s.width)) =
      .splat s.width ((m.value s.width v).lane lane) := by
    have hnumber : (m.value s.width (laneConst lane)).lane 0 = .int x := by
      rw [hx]
      exact Lanes.lane_splat _ hs.pos
    unfold Marker.eval
    simp only [List.map_cons, List.map_nil, List.getElem?_cons_zero, List.getElem?_cons_succ,
      Option.getD_some, hnumber]
    rw [if_neg hpos, hlane]
  rw [instr_apply ha.1]
  unfold operation
  dsimp only
  rw [hs.extract]
  dsimp only
  rw [heval]
  rfl

/-- Making a call that is known to be uniform. -/
theorem exists_instr_call (hs : q.Served s host) {args : List Value}
    (ha : g.Applies i (.call q.callee) args) (hu : s.isUniform i = true) : ∃ xs, instr s g i m =
      (.ok (), (m.logged ({ callee := q.callee
                            args := args.map fun v => (m.value s.width v).lane 0 } :: m.callLog)).setValue
        i xs) := by
  have hfirst : (List.range s.width).find? (active s.width m none) = some 0 := by
    obtain ⟨width, hw⟩ := Nat.exists_eq_add_one_of_ne_zero (Nat.ne_of_gt hs.pos)
    rw [hw, List.range_succ_eq_map]
    rfl
  have hargs : (args.map (m.value s.width)).map (·.lane 0) =
      args.map fun v => (m.value s.width v).lane 0 := List.map_map
  rw [instr_apply ha.1, ha.2]
  unfold operation
  dsimp only
  rw [hs.callee, hs.host]
  dsimp only
  rw [if_pos hu, callOnce, hfirst, ← hargs]
  exact ⟨_, rfl⟩

section

variable (hs : q.Served s host) (hl : lane < s.width)

include hs hl in
/-- Taking a lane of several values. -/
theorem exists_fetch {vs : List Value} (hi : f.insts.size ≤ i) (hvs : ∀ v ∈ vs, v.Within S)
    (hlt : i + vs.length ≤ g.insts.size) (hcode : ∀ (j : Nat) v, vs[j]? = some v →
      g.Applies (i + j) (.call q.extract) [v, laneConst lane])
    (hm : m.Agrees f g id S m') : ∃ m1', (List.range' i vs.length).forM (instr s g) m' = (.ok (), m1') ∧
      m.Agrees f g id S m1' ∧ ∀ (j : Nat) v, vs[j]? = some v →
        m1'.value s.width (.inst (i + j)) = .splat s.width ((m.value s.width v).lane lane) := by
  induction vs generalizing i m' with
  | nil => exact ⟨m', rfl, hm, nofun⟩
  | cons v vs ih =>
    have hfirst := instr_extract (m := m') hs hl (hcode 0 v rfl)
    have hnext := hm.setValue_right (k := i)
      (fun j hj => Nat.ne_of_lt (Nat.lt_of_lt_of_le (hm.within j hj) hi))
      (.splat s.width ((m'.value s.width v).lane lane))
    have hshift : ∀ j : Nat, i + 1 + j = i + (j + 1) := fun j => Nat.succ_add_eq_add_succ i j
    have hlt' : i + 1 + vs.length ≤ g.insts.size := by
      rw [hshift]
      exact hlt
    obtain ⟨m1', hrest, hm1, hvalues⟩ := ih (Nat.le_succ_of_le hi)
      (fun w hw => hvs w (List.mem_cons_of_mem _ hw)) hlt'
      (fun j w hj => by rw [hshift]; exact hcode (j + 1) w hj) hnext
    refine ⟨m1', (bind_run_eq hfirst).trans hrest, hm1, fun j w hj => ?_⟩
    cases j with
    | zero =>
      cases hj
      rw [value_instrs_of_ne hrest, ← hm.value_id (hvs v List.mem_cons_self)]
      · refine Machine.value_setValue_self _ ?_
        rw [hm.size']
        exact Nat.lt_of_lt_of_le (Nat.lt_add_of_pos_right (Nat.succ_pos _)) hlt
      · intro j hj e
        obtain rfl := Value.inst.inj e
        exact Nat.lt_irrefl _ (List.mem_range'_1.mp hj).1
    | succ j =>
      rw [← hshift]
      exact hvalues j w hj

end

/-- What is passed is what the lane has of the inputs. -/
theorem map_args {vs : List Value}
    (hfetch : ∀ (j : Nat) v, (q.varying vs)[j]? = some v →
      (m'.value width (.inst (k + j))).lane 0 = (m.value width v).lane lane)
    (hkeep : ∀ v ∈ vs, q.isUniform v = true →
      (m'.value width v).lane 0 = (m.value width v).lane lane) :
    (q.args k vs).map (fun v => (m'.value width v).lane 0) =
      vs.map fun v => (m.value width v).lane lane := by
  induction vs generalizing k with
  | nil => rfl
  | cons v vs ih =>
    have hkeep' := fun w hw => hkeep w (List.mem_cons_of_mem _ hw)
    unfold args
    unfold varying at hfetch
    by_cases hv : q.isUniform v = true
    · rw [List.filter_cons_of_neg (by simp [hv])] at hfetch
      rw [if_pos hv, List.map_cons, List.map_cons, ih hfetch hkeep', hkeep v List.mem_cons_self hv]
    · rw [List.filter_cons_of_pos (by simp [hv])] at hfetch
      have hrest : ∀ (j : Nat) w, (q.varying vs)[j]? = some w →
          (m'.value width (.inst (k + 1 + j))).lane 0 = (m.value width w).lane lane := by
        intro j w hj
        rw [Nat.succ_add_eq_add_succ]
        exact hfetch (j + 1) w hj
      rw [if_neg hv, List.map_cons, List.map_cons, ih hrest hkeep']
      exact congrArg (· :: _) (hfetch 0 v rfl)

/-! ## The blocks of a lane -/

variable {pred : Option BlockId}

/-- A block that starts with an operation has no phis. -/
theorem phis_of_applies {b : BlockId} {l : List InstId} (hb : g.body b = i :: l)
    (hi : g.isPhi i = false) : g.phis b = [] ∧ g.nonPhis b = i :: l := by
  unfold Func.phis Func.nonPhis
  rw [hb]
  exact ⟨List.takeWhile_cons_of_neg (by simp [hi]), List.dropWhile_cons_of_neg (by simp [hi])⟩

section

variable (hs : q.Served s host) (hl : lane < s.width)
  (hc : q.LaneCode g next lane cond masked k) (hk : f.insts.size ≤ k)
  (hmask : q.mask.Within S) (hinputs : ∀ v ∈ q.inputs, v.Within S) (hfit : q.Fits s.width m)
  (hm : m.Agrees f g id S m')

include hs hl hc hk hmask hfit hm in
/-- The first block of a lane asks whether the lane is active. -/
theorem LaneCode.exists_cond (pred : Option BlockId) : ∃ m1', block s g pred cond m' =
    (.ok (.inl (if q.isActive s.width m lane then masked else next)), m1') ∧
      m.Agrees f g id S m1' := by
  obtain ⟨hphis, hops⟩ := phis_of_applies hc.cond_body (g.isPhi_of_op hc.ask.1)
  let m0' : Machine := { m' with path := cond :: m'.path }
  have hm0 : m.Agrees f g id S m0' := { hm with }
  obtain ⟨b, hb⟩ := hfit.mask lane hl
  have hask := instr_extract (m := m0') hs hl hc.ask
  rw [hm0.value_id hmask, hb] at hask
  have hlt : k < m0'.values.size := by
    rw [hm0.size']
    exact Nat.lt_of_le_of_lt (q.le_callId k) hc.lt
  have hrun : (g.nonPhis cond).forM (instr s g) m0' =
      (.ok (), m0'.setValue k (.splat s.width (.bool b))) := by
    rw [hops]
    exact bind_run_eq hask
  refine ⟨_, block_of_ops hphis hrun ?_,
    hm0.setValue_right (fun i hi => Nat.ne_of_lt (Nat.lt_of_lt_of_le (hm.within i hi) hk)) _⟩
  rw [hc.cond_term]
  unfold wayOut
  dsimp only
  rw [Machine.value_setValue_self _ hlt, agree_splat hs.pos, isActive, hb]
  cases b <;> rfl

include hs hl hc hk hinputs hfit hm in
/-- The second block of a lane makes the call for the lane. -/
theorem LaneCode.exists_masked (hu : s.isUniform (q.callId k) = true) (pred : Option BlockId) :
    ∃ m1', block s g pred masked m' = (.ok (.inl next), m1') ∧
      (m.logged (q.laneCall s.width m lane :: m.callLog)).Agrees f g id S m1' := by
  let vs := q.varying q.inputs
  let m0' : Machine := { m' with path := masked :: m'.path }
  have hm0 : m.Agrees f g id S m0' := { hm with }
  have hvs : ∀ v ∈ vs, v.Within S := fun v hv => hinputs v (List.mem_of_mem_filter hv)
  obtain ⟨m1', hfetch, hm1, hvalues⟩ := exists_fetch hs hl (Nat.le_succ_of_le hk) hvs
    (Nat.le_of_lt hc.lt) hc.fetch hm0
  obtain ⟨xs, hcall⟩ := exists_instr_call (m := m1') hs hc.call hu
  have hargs : (q.args (k + 1) q.inputs).map (fun v => (m1'.value s.width v).lane 0) =
      q.inputs.map fun v => (m.value s.width v).lane lane := by
    refine map_args (fun j v hj => ?_) fun v hv hv' => ?_
    · rw [hvalues j v hj, Lanes.lane_splat _ hs.pos]
    · rw [hm1.value_id (hinputs v hv), hfit.uniform v hv hv' lane hl]
  let log := q.laneCall s.width m lane :: m.callLog
  have hcall : instr s g (q.callId k) m1' = (.ok (), (m1'.logged log).setValue (q.callId k) xs) := by
    rw [hcall, hargs, hm1.callLog]
    rfl
  -- the block starts with what takes the first lane, or with the call if there is nothing to take
  have hfirst : g.isPhi (k + 1) = false := by
    cases hvs : q.varying q.inputs with
    | nil =>
      have hid : q.callId k = k + 1 := by
        rw [callId, hvs]
        rfl
      exact hid ▸ g.isPhi_of_op hc.call.1
    | cons v vs =>
      exact g.isPhi_of_op (hc.fetch 0 v (by rw [hvs]; rfl)).1
  obtain ⟨hphis, hops⟩ := phis_of_applies (hc.masked_body.trans List.range'_succ) hfirst
  have hrun : (g.nonPhis masked).forM (instr s g) m0' =
      (.ok (), (m1'.logged log).setValue (q.callId k) xs) := by
    rw [hops, ← List.range'_succ, List.range'_1_concat]
    exact forM_append_eq_ok.mpr ⟨m1', hfetch, bind_run_eq hcall⟩
  refine ⟨_, block_of_ops hphis hrun ?_, (hm1.logged log).setValue_right (fun i hi => ?_) xs⟩
  · rw [hc.masked_term]
    rfl
  · exact Nat.ne_of_lt (Nat.lt_of_lt_of_le (hm.within i hi) (Nat.le_trans hk (q.le_callId k)))

include hs hl hc hk hmask hinputs hfit hm in
/-- The blocks of a lane make the call if the lane is active. -/
theorem LaneCode.exists_passes (hu : s.isUniform (q.callId k) = true) (pred : Option BlockId) :
    ∃ j ≤ 2, ∃ p m1', Passes s g j pred cond m' (some p) next m1' ∧
      (m.logged (if q.isActive s.width m lane then q.laneCall s.width m lane :: m.callLog
        else m.callLog)).Agrees f g id S m1' := by
  obtain ⟨m1', hcond, hm1⟩ := hc.exists_cond hs hl hk hmask hfit hm pred
  by_cases hactive : q.isActive s.width m lane = true
  · rw [if_pos hactive] at hcond ⊢
    obtain ⟨m2', hmasked, hm2⟩ := hc.exists_masked hs hl hk hinputs hfit hm1 hu (some cond)
    exact ⟨2, Nat.le_refl _, masked, m2', .step hcond (.step hmasked (.refl _ _ _)), hm2⟩
  · rw [if_neg hactive] at hcond ⊢
    exact ⟨1, Nat.le_succ _, cond, m1', .step hcond (.refl _ _ _), hm1⟩

end

end MaskedCall

/-! ## The blocks of all lanes -/

namespace Cascaded

open Run MaskedCall

variable {q : MaskedCall} {f g : Func} {b : BlockId} {pre post : List InstId} {m m' : Machine}
  {S : InstId → Prop} {s : Setup} {host : Host}

/-- The blocks of the first lanes make the call for those of them that are active. -/
theorem exists_passes_lanes (hg : Cascaded q f b pre post s.width s.isUniform g)
    (hs : q.Served s host) (hmask : q.mask.Within S) (hinputs : ∀ v ∈ q.inputs, v.Within S)
    (hfit : q.Fits s.width m) (hm : m.Agrees f g id S m') (pred : Option BlockId) {lanes : Nat}
    (hle : lanes ≤ s.width) :
    ∃ j ≤ 2 * lanes, ∃ p m1',
      Passes s g j pred f.blocks.size m' p (f.blocks.size + 2 * lanes) m1' ∧
        (m.logged (q.calls s.width m (List.range lanes))).Agrees f g id S m1' := by
  induction lanes with
  | zero => exact ⟨0, Nat.le_refl _, pred, m', .refl _ _ _, hm⟩
  | succ lane ih =>
    obtain ⟨j, hj, p, m1', hpasses, hm1⟩ := ih (Nat.le_of_succ_le hle)
    obtain ⟨k, hk, huk, hcode⟩ := hg.lane lane hle
    obtain ⟨j', hj', p', m2', hpasses', hm2⟩ := hcode.exists_passes hs hle hk hmask hinputs
      (hfit.logged _) hm1 huk p
    refine ⟨j + j', ?_, some p', m2', hpasses.trans hpasses', ?_⟩
    · omega
    · rw [isActive_logged, laneCall_logged] at hm2
      rw [calls_range_succ]
      exact hm2

end Cascaded

end Lockstep
