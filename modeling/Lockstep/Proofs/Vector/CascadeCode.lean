import Lockstep.Proofs.Vector.CascadeSplit
import Lockstep.Proofs.Vector.Stage

/-!
# The code of a cascade

For each lane a cascade has one block that asks whether the lane is active, and one that takes the lane
of what the call is given, and makes the call with that (`MaskedCall.LaneCode`). Making a call lane by
lane opens the block of the call and fills in this code between its halves
(`Stage.exists_scalarizeCall`). It always succeeds for a call with a mask whose result is not used.
-/

namespace Lockstep

/-- An instruction that is an operation without a mask. -/
def Func.Applies (g : Func) (i : InstId) (code : Opcode) (args : List Value) : Prop :=
  (g.inst i).op = .apply code args ∧ (g.inst i).mask = none

/-! ## Building at the end of a block -/

namespace Build

variable {α β : Type}

theorem bind_eq {x : Build α} {k : α → Build β} {b b' : Builder} {a : α} (h : x b = (a, b')) :
    (x >>= k) b = k a b' := by
  have e : (x >>= k) b = k (x b).1 (x b).2 := rfl
  rw [e, h]

theorem apply_blockEnd (code : Opcode) (args : List Value) (ty : Ty) (g : Func) (p : BlockId)
    (ds : List Instr) : apply code args ty ⟨g.appendAll p ds, .blockEnd p⟩ =
      (.inst (g.insts.size + ds.length),
        ⟨g.appendAll p (ds ++ [{ op := .apply code args, ty, block := p }]), .blockEnd p⟩) := by
  rw [← Func.size_insts_appendAll g p ds, Func.appendAll, Func.appendAll, List.foldl_append]
  rfl

end Build

/-! ## Calls of one lane -/

/-- A call that is made lane by lane. -/
structure MaskedCall where
  /-- The function that gives the value of one lane. -/
  extract : FuncId
  callee : FuncId
  inputs : List Value
  mask : Value
  /-- Which inputs are passed as they are. -/
  isUniform : Value → Bool

namespace MaskedCall

/-- The number of a lane, as an operand. -/
def laneConst (lane : Nat) : Value := .ofInt (.int 32) (Int64.ofNat lane)

/-- The inputs of which a lane has to be taken. -/
def varying (q : MaskedCall) (vs : List Value) : List Value := vs.filter fun v => !q.isUniform v

/-- What is passed for `vs`, if instructions from `k` on take the lanes. -/
def args (q : MaskedCall) : InstId → List Value → List Value
  | _, [] => []
  | k, v :: vs => if q.isUniform v then v :: args q k vs else .inst k :: args q (k + 1) vs

/-- The call, if the instructions of the lane are numbered from `k` on. -/
def callId (q : MaskedCall) (k : InstId) : InstId := k + 1 + (q.varying q.inputs).length

theorem le_callId (q : MaskedCall) (k : InstId) : k ≤ q.callId k :=
  Nat.le_trans (Nat.le_succ k) (Nat.le_add_right _ _)

variable {q : MaskedCall} {g g' : Func} {next cond masked p : BlockId} {lane : Nat} {k : InstId}

/-- The code of a lane: one block asks whether the lane is active, the other makes the call with
what the lane has. -/
structure LaneCode (q : MaskedCall) (g : Func) (next : BlockId) (lane : Nat) (cond masked : BlockId)
    (k : InstId) : Prop where
  cond_body : g.body cond = [k]
  cond_term : g.term cond = .brIf (.inst k) masked next
  masked_body : g.body masked = List.range' (k + 1) ((q.varying q.inputs).length + 1)
  masked_term : g.term masked = .br next
  ask : g.Applies k (.call q.extract) [q.mask, laneConst lane]
  fetch : ∀ (j : Nat) v, (q.varying q.inputs)[j]? = some v →
    g.Applies (k + 1 + j) (.call q.extract) [v, laneConst lane]
  call : g.Applies (q.callId k) (.call q.callee) (q.args (k + 1) q.inputs)
  lt : q.callId k < g.insts.size

/-- The code of a lane stays while other blocks grow. -/
theorem LaneCode.grown {B : BlockId → Prop} (h : q.LaneCode g next lane cond masked k)
    (hg : g.GrownIn B g') (hc : ¬ B cond) (hm : ¬ B masked) :
    q.LaneCode g' next lane cond masked k := by
  have happlies : ∀ {i code args}, i ≤ q.callId k → g.Applies i code args →
      g'.Applies i code args := by
    intro i code args hi ha
    unfold Func.Applies
    rw [hg.inst i (Nat.lt_of_le_of_lt hi h.lt)]
    exact ha
  have hle : k ≤ q.callId k := q.le_callId k
  refine ⟨?_, ?_, ?_, ?_, happlies hle h.ask, fun j v hj => happlies ?_ (h.fetch j v hj),
    happlies (Nat.le_refl _) h.call, Nat.lt_of_lt_of_le h.lt hg.insts⟩
  · rw [hg.body hc, h.cond_body]
  · rw [hg.term hc, h.cond_term]
  · rw [hg.body hm, h.masked_body]
  · rw [hg.term hm, h.masked_term]
  · obtain ⟨hlt, -⟩ := List.getElem?_eq_some_iff.mp hj
    exact Nat.add_le_add_left (Nat.le_of_lt hlt) (k + 1)

/-- The instruction that takes a lane of a value. -/
def IsFetch (q : MaskedCall) (lane : Nat) (v : Value) (d : Instr) : Prop :=
  d.op = .apply (.call q.extract) [v, laneConst lane] ∧ d.mask = none

/-- Passing the inputs of a call appends what takes the lanes. -/
theorem mapM_fetch (q : MaskedCall) (g : Func) (p : BlockId) (lane : Nat) (vs : List Value)
    (ds : List Instr) : ∃ es, List.Forall₂ (q.IsFetch lane) (q.varying vs) es ∧
      (vs.mapM fun v => if q.isUniform v then pure v else do
          Build.apply (.call q.extract) [v, laneConst lane] (← Build.typeOf v) : Build (List Value))
        ⟨g.appendAll p ds, .blockEnd p⟩ =
        (q.args (g.insts.size + ds.length) vs, ⟨g.appendAll p (ds ++ es), .blockEnd p⟩) := by
  induction vs generalizing ds with
  | nil => exact ⟨[], .nil, by rw [List.append_nil]; rfl⟩
  | cons v vs ih =>
    rw [List.mapM_cons]
    unfold args varying
    by_cases hv : q.isUniform v = true
    · obtain ⟨es, hes, h⟩ := ih ds
      rw [if_pos hv, if_pos hv, List.filter_cons_of_neg (by simp [hv])]
      refine ⟨es, hes, ?_⟩
      exact (Build.bind_eq rfl).trans (Build.bind_eq h)
    · let d : Instr :=
        { op := .apply (.call q.extract) [v, laneConst lane], ty := (g.appendAll p ds).typeOf v,
          block := p }
      obtain ⟨es, hes, h⟩ := ih (ds ++ [d])
      rw [if_neg hv, if_neg hv, List.filter_cons_of_pos (by simp [hv])]
      refine ⟨d :: es, .cons ⟨rfl, rfl⟩ hes, ?_⟩
      rw [List.length_append, List.length_singleton, List.append_assoc, List.singleton_append] at h
      have hfirst : (Build.typeOf v >>= fun ty =>
          Build.apply (.call q.extract) [v, laneConst lane] ty) ⟨g.appendAll p ds, .blockEnd p⟩ = _ :=
        (Build.bind_eq (a := (g.appendAll p ds).typeOf v) rfl).trans
          (Build.apply_blockEnd _ _ _ g p ds)
      exact (Build.bind_eq hfirst).trans (Build.bind_eq h)

/-- What is passed for inputs and fetched before is numbered from `k` on. -/
theorem exists_inst_of_mem_fetched (q : MaskedCall) {vs : List Value} {x : Value}
    (hx : x ∈ ((q.args k vs).zip vs).filterMap fun (arg, v) => if q.isUniform v then none else some arg) :
    ∃ i, x = .inst i ∧ k ≤ i := by
  induction vs generalizing k with
  | nil =>
    unfold args at hx
    cases hx
  | cons v vs ih =>
    unfold args at hx
    by_cases hv : q.isUniform v = true
    · rw [if_pos hv, List.zip_cons_cons, List.filterMap_cons_none (by simp [hv])] at hx
      exact ih hx
    · rw [if_neg hv, List.zip_cons_cons, List.filterMap_cons_some (b := .inst k) (by simp [hv])] at hx
      rcases List.mem_cons.mp hx with rfl | hx
      · exact ⟨k, rfl, Nat.le_refl _⟩
      · obtain ⟨i, rfl, hi⟩ := ih hx
        exact ⟨i, rfl, Nat.le_of_succ_le hi⟩

/-- What stands at one place of two related lists. -/
theorem exists_getElem?_of_forall₂ {α β : Type} {R : α → β → Prop} {l : List α} {l' : List β}
    (h : List.Forall₂ R l l') {j : Nat} {x : α} (hj : l[j]? = some x) :
    ∃ y, l'[j]? = some y ∧ R x y := by
  induction h generalizing j with
  | nil => cases hj
  | cons hxy _ ih =>
    cases j with
    | zero =>
      cases hj
      exact ⟨_, rfl, hxy⟩
    | succ j => exact ih hj

/-- A function with the code of a lane in two of its blocks. -/
def withLane (g : Func) (next cond masked : BlockId) (ask : Instr) (es : List Instr) (call : Instr) :
    Func :=
  ((g.appendAll cond [ask]).setTerm cond (.brIf (.inst g.insts.size) masked next)).appendAll masked
    (es ++ [call])

theorem grownIn_withLane (g : Func) (next cond masked : BlockId) (ask : Instr) (es : List Instr)
    (call : Instr) :
    g.GrownIn (fun x => x = cond ∨ x = masked) (withLane g next cond masked ask es call) :=
  (g.grownIn_appendAll (.inl rfl) _).trans
    ((Func.grownIn_setTerm _ (.inl rfl) _).trans (Func.grownIn_appendAll _ (.inr rfl) _))

/-- The code of a lane is what asks, what fetches and the call. -/
theorem laneCode_withLane {ask call : Instr} {es : List Instr} (hc : cond < g.blocks.size)
    (hm : masked < g.blocks.size) (hne : cond ≠ masked) (hcb : g.body cond = [])
    (hmb : g.body masked = []) (hmt : g.term masked = .br next)
    (hask : q.IsFetch lane q.mask ask)
    (hes : List.Forall₂ (q.IsFetch lane) (q.varying q.inputs) es)
    (hcall : call.op = .apply (.call q.callee) (q.args (g.insts.size + 1) q.inputs) ∧
      call.mask = none) :
    q.LaneCode (withLane g next cond masked ask es call) next lane cond masked g.insts.size := by
  let g2 := (g.appendAll cond [ask]).setTerm cond (.brIf (.inst g.insts.size) masked next)
  have hlen : es.length = (q.varying q.inputs).length := hes.length_eq.symm
  have hsize : g2.insts.size = g.insts.size + 1 := Func.size_insts_appendAll g cond [ask]
  have hblocks : g2.blocks.size = g.blocks.size := by
    rw [Func.size_blocks_setTerm, Func.size_blocks_appendAll]
  have hm2 : masked < g2.blocks.size := hblocks ▸ hm
  have hinst : ∀ {j : Nat} {e : Instr}, (es ++ [call])[j]? = some e →
      (g2.appendAll masked (es ++ [call])).inst (g.insts.size + 1 + j) =
        { e with block := masked } := by
    intro j e he
    rw [← hsize]
    exact Func.inst_appendAll he
  unfold withLane
  refine ⟨?_, ?_, ?_, ?_, ?_, fun j v hj => ?_, ?_, ?_⟩
  · have h : (g2.appendAll masked (es ++ [call])).body cond = g2.body cond :=
      congrArg Block.insts (Func.block_appendAll_of_ne _ hne.symm)
    rw [h, Func.body_setTerm, Func.body_appendAll hc, if_pos rfl, hcb]
    rfl
  · rw [Func.term_appendAll, Func.term_setTerm, if_pos]
    rw [Func.size_blocks_appendAll]
    exact ⟨rfl, hc⟩
  · have h : g2.body masked = [] := by
      rw [Func.body_setTerm, Func.body_appendAll hc, if_neg hne, hmb]
    rw [Func.body_appendAll hm2, if_pos rfl, h, hsize, List.length_append, hlen]
    rfl
  · rw [Func.term_appendAll, Func.term_setTerm_of_ne _ _ hne, Func.term_appendAll, hmt]
  · have h : (g2.appendAll masked (es ++ [call])).inst g.insts.size =
        (g.appendAll cond [ask]).inst g.insts.size :=
      Func.inst_appendAll_of_lt (by rw [hsize]; exact Nat.lt_succ_self _)
    have h1 : (g.appendAll cond [ask]).inst (g.insts.size + 0) = { ask with block := cond } :=
      Func.inst_appendAll rfl
    unfold Func.Applies
    rw [h]
    exact h1 ▸ hask
  · obtain ⟨e, he, hfetch⟩ := exists_getElem?_of_forall₂ hes hj
    have hlt := (List.getElem?_eq_some_iff.mp he).1
    unfold Func.Applies
    rw [hinst (by rw [List.getElem?_append_left hlt, he])]
    exact hfetch
  · unfold Func.Applies callId
    rw [← hlen, hinst (by rw [List.getElem?_append_right (Nat.le_refl _), Nat.sub_self]; rfl)]
    exact hcall
  · show _ < (g2.appendAll masked (es ++ [call])).insts.size
    rw [Func.size_insts_appendAll, hsize, List.length_append, hlen]
    exact Nat.lt_succ_self _

/-- A call with a mask, as a call that is made lane by lane. -/
def ofInstr (markers : Markers) (isUniform : Value → Bool) (d : Instr) (callee : FuncId)
    (mask : Value) : MaskedCall where
  extract := markers.func .extract
  callee
  inputs := d.inputs
  mask
  isUniform

/-- Building a lane makes its code, in two blocks that were empty. What is made comes after all
instructions. -/
theorem exists_buildLane (markers : Markers) (isUniform : Value → Bool) (d : Instr)
    (callee : FuncId) (mask : Value) {g : Func} {next cond masked : BlockId} (lane : Nat)
    (hc : cond < g.blocks.size) (hm : masked < g.blocks.size) (hne : cond ≠ masked)
    (hcb : g.body cond = []) (hmb : g.body masked = []) (hmt : g.term masked = .br next) :
    ∃ made g', Cascade.buildLane markers isUniform d callee mask next lane cond masked
        ⟨g, .blockEnd cond⟩ = (made, ⟨g', .blockEnd masked⟩) ∧
      g.GrownIn (fun x => x = cond ∨ x = masked) g' ∧
      (ofInstr markers isUniform d callee mask).LaneCode g' next lane cond masked g.insts.size ∧
      .inst ((ofInstr markers isUniform d callee mask).callId g.insts.size) ∈ made ∧
      ∀ v ∈ made, ∃ i, v = .inst i ∧ g.insts.size ≤ i := by
  let q := ofInstr markers isUniform d callee mask
  let ask : Instr :=
    { op := .apply (.call q.extract) [q.mask, laneConst lane], ty := .bool, block := cond }
  let g2 := (g.appendAll cond [ask]).setTerm cond (.brIf (.inst g.insts.size) masked next)
  obtain ⟨es, hes, hargs⟩ := q.mapM_fetch g2 masked lane d.inputs []
  have hsize : g2.insts.size = g.insts.size + 1 := Func.size_insts_appendAll g cond [ask]
  rw [hsize] at hargs
  let args := q.args (g.insts.size + 1) d.inputs
  let call : Instr := { op := .apply (.call callee) args, ty := d.ty, block := masked }
  have hask : q.IsFetch lane q.mask ask := ⟨rfl, rfl⟩
  have hcall : call.op = .apply (.call q.callee) (q.args (g.insts.size + 1) q.inputs) ∧
      call.mask = none := ⟨rfl, rfl⟩
  have hcode := laneCode_withLane hc hm hne hcb hmb hmt hask hes hcall
  have hid : g2.insts.size + es.length = q.callId g.insts.size := by
    rw [hsize, ← hes.length_eq]
    rfl
  let fetched := (args.zip d.inputs).filterMap fun (arg, v) => if isUniform v then none else some arg
  refine ⟨.inst g.insts.size :: fetched ++ [.inst (g2.insts.size + es.length)],
    withLane g next cond masked ask es call, ?_, grownIn_withLane .., hcode, ?_, ?_⟩
  · unfold Cascade.buildLane
    refine (Build.bind_eq rfl).trans ?_
    refine (Build.bind_eq (Build.apply_blockEnd _ _ _ g cond [])).trans ?_
    refine (Build.bind_eq rfl).trans ?_
    refine (Build.bind_eq rfl).trans ?_
    refine (Build.bind_eq hargs).trans ?_
    exact (Build.bind_eq (Build.apply_blockEnd _ _ _ g2 masked es)).trans rfl
  · rw [hid]
    exact List.mem_append_right _ (List.mem_singleton_self _)
  · intro v hv
    rcases List.mem_append.mp hv with hv | hv
    · rcases List.mem_cons.mp hv with rfl | hv
      · exact ⟨_, rfl, Nat.le_refl _⟩
      · obtain ⟨i, rfl, hi⟩ := q.exists_inst_of_mem_fetched hv
        exact ⟨i, rfl, Nat.le_of_succ_le hi⟩
    · rw [List.mem_singleton.mp hv, hid]
      exact ⟨_, rfl, q.le_callId _⟩

end MaskedCall

/-! ## The code of all lanes -/

/-- A function in which a call is made lane by lane: the block `b` is opened, and the blocks in
between have the code of the lanes. What is made is new, and uniform according to `U`. -/
structure Cascaded (q : MaskedCall) (f : Func) (b : BlockId) (pre post : List InstId) (width : Nat)
    (U : InstId → Bool) (g : Func) : Prop extends f.Opened b pre post width g where
  lane : ∀ k < width, ∃ id, f.insts.size ≤ id ∧ U (q.callId id) = true ∧
    q.LaneCode g (f.blocks.size + 2 * (k + 1)) k (f.blocks.size + 2 * k) (f.blocks.size + 2 * k + 1) id

namespace Stage

open MaskedCall Cascade

variable {q : MaskedCall} {f : Func} {b : BlockId} {pre post : List InstId} {width : Nat} {t u : Stage}

theorem build_eq {α : Type} {point : InsertPoint} {x : Build α} {a : α} {b : Builder}
    (h : x ⟨u.func, point⟩ = (a, b)) : build point x u = (a, { u with func := b.func }) := by
  have hon : buildOn point x u = ((a, b.point), { u with func := b.func }) := by
    unfold buildOn
    rw [h]
  show (match buildOn point x u with | (r, s) => (r.1, s)) = _
  rw [hon]

/-- What holds while the code of the lanes is made: the lanes in `rest` are still empty, and the code
of the others has been made. -/
structure Filled (q : MaskedCall) (f : Func) (b : BlockId) (pre post : List InstId) (width : Nat)
    (info : VectorInfo) (rest : List Nat) (made : List Value) (u : Stage) : Prop where
  info : u.info = info
  opened : f.Opened b pre post width u.func
  nodup : rest.Nodup
  empty : ∀ k ∈ rest, u.func.body (f.blocks.size + 2 * k) = [] ∧
    u.func.body (f.blocks.size + 2 * k + 1) = [] ∧
    u.func.term (f.blocks.size + 2 * k + 1) = .br (f.blocks.size + 2 * (k + 1))
  done : ∀ k < width, k ∈ rest ∨ ∃ id, f.insts.size ≤ id ∧ .inst (q.callId id) ∈ made ∧
    q.LaneCode u.func (f.blocks.size + 2 * (k + 1)) k (f.blocks.size + 2 * k)
      (f.blocks.size + 2 * k + 1) id
  fresh : ∀ v ∈ made, ∃ i, v = .inst i ∧ f.insts.size ≤ i

/-- The code of one more lane. -/
theorem triple_filled {markers : Markers} {info : VectorInfo} {d : Instr} {callee : FuncId}
    {mask : Value} {k : Nat} {rest : List Nat} {made : List Value} (hk : k < width) :
    Triple (Filled (ofInstr markers info.isUniform d callee mask) f b pre post width info (k :: rest) made)
      (build (.blockEnd (f.blocks.size + 2 * k)) (buildLane markers info.isUniform d callee mask
        (f.blocks.size + 2 * (k + 1)) k (f.blocks.size + 2 * k) (f.blocks.size + 2 * k + 1)))
      fun new =>
        Filled (ofInstr markers info.isUniform d callee mask) f b pre post width info rest (made ++ new) := by
  intro u new u' h e
  obtain ⟨hc, hm, ht⟩ := h.empty k List.mem_cons_self
  obtain ⟨hnot, hnodup⟩ := List.nodup_cons.mp h.nodup
  have hblocks := h.opened.blocks
  have hcond : f.blocks.size + 2 * k < u.func.blocks.size := by omega
  have hmasked : f.blocks.size + 2 * k + 1 < u.func.blocks.size := by omega
  obtain ⟨new', g, hrun, hg, hcode, hmem, hfresh⟩ := exists_buildLane markers info.isUniform d callee
    mask k hcond hmasked (Nat.ne_of_lt (Nat.lt_succ_self _)) hc hm ht
  obtain ⟨rfl, rfl⟩ := Prod.mk.inj ((build_eq hrun).symm.trans e)
  have hother : ∀ j, j ≠ k → ¬ (f.blocks.size + 2 * j = f.blocks.size + 2 * k ∨
      f.blocks.size + 2 * j = f.blocks.size + 2 * k + 1) ∧
      ¬ (f.blocks.size + 2 * j + 1 = f.blocks.size + 2 * k ∨
        f.blocks.size + 2 * j + 1 = f.blocks.size + 2 * k + 1) := by
    intro j hj
    omega
  refine ⟨h.info, h.opened.grown hg ?_, hnodup, fun j hj => ?_, fun j hj => ?_, fun v hv => ?_⟩
  · have hlt : f.blocks.size + 2 * k + 1 < f.blocks.size + 2 * width := by omega
    rintro x (rfl | rfl)
    · exact ⟨Nat.le_add_right _ _, Nat.lt_of_succ_lt hlt⟩
    · exact ⟨Nat.le_trans (Nat.le_add_right _ _) (Nat.le_succ _), hlt⟩
  · obtain ⟨h1, h2⟩ := hother j fun e => hnot (e ▸ hj)
    rw [hg.body h1, hg.body h2, hg.term h2]
    exact h.empty j (List.mem_cons_of_mem _ hj)
  · by_cases e : j = k
    · subst e
      exact .inr ⟨_, h.opened.insts, List.mem_append_right _ hmem, hcode⟩
    · obtain ⟨h1, h2⟩ := hother j e
      rcases h.done j hj with hj | ⟨id, hid, hmade, hlane⟩
      · exact .inl ((List.mem_cons.mp hj).resolve_left e)
      · exact .inr ⟨id, hid, List.mem_append_left _ hmade, hlane.grown hg h1 h2⟩
  · rcases List.mem_append.mp hv with hv | hv
    · exact h.fresh v hv
    · obtain ⟨i, rfl, hi⟩ := hfresh v hv
      exact ⟨i, rfl, Nat.le_trans h.opened.insts hi⟩

/-- The code of all lanes. -/
theorem triple_filled_buildCascade {markers : Markers} {info : VectorInfo} {d : Instr}
    {callee : FuncId} {mask : Value} :
    Triple (Filled (ofInstr markers info.isUniform d callee mask) f b pre post width info
        (List.range width) [])
      (buildCascade markers (numbered f.blocks.size width) d callee mask)
      (Filled (ofInstr markers info.isUniform d callee mask) f b pre post width info []) := by
  let q := ofInstr markers info.isUniform d callee mask
  unfold buildCascade
  refine Triple.bind Triple.get fun t => ?_
  dsimp only
  rw [zipIdx_numbered, List.mapM_map]
  refine Triple.bind (R := fun made => Filled q f b pre post width info [] made.flatten) ?_
    fun made => Triple.pure fun u hu => hu
  rintro u made u' ⟨rfl, hu⟩ e
  refine Triple.mapM (J := fun rest made => Filled q f b pre post width info rest made.flatten)
    (List.range width) (fun k rest made hk => ?_) [] t made u' hu e
  simp only [List.flatten_append, List.flatten_singleton, Function.comp_apply]
  rw [test_numbered (Nat.succ_le_of_lt (List.mem_range.mp hk)), hu.info]
  exact triple_filled (List.mem_range.mp hk)

/-- Recording a cascade says nothing of the values that were not made for it. -/
theorem triple_recordCascade_keeps {c : Cascade} {made : List Value} {info : VectorInfo} :
    Triple (fun u => u.info.width = info.width ∧
        ∀ v, v ∉ made → u.info.isUniform v = info.isUniform v)
      (recordCascade c b made) fun _ u => u.info.width = info.width ∧
        ∀ v, v ∉ made → u.info.isUniform v = info.isUniform v := by
  let J (u : Stage) : Prop :=
    u.info.width = info.width ∧ ∀ v, v ∉ made → u.info.isUniform v = info.isUniform v
  refine triple_recordCascade_of (J := fun _ _ => J) (fun x _ hx u hu => ⟨hu.1, fun v hv => ?_⟩)
    (fun _ _ _ hu => hu) fun _ _ _ hu => hu
  have hne : (x == v) = false := beq_eq_false_iff_ne.mpr fun e => hv (e ▸ hx)
  rw [isUniform_setShape_uni, hne, Bool.or_false]
  exact hu.2 v hv

/-! ## The call -/

/-- What is known once a call has been made lane by lane. -/
structure Scalarized (q : MaskedCall) (b : BlockId) (pre post : List InstId) (t u : Stage) : Prop where
  code : Cascaded q t.func b pre post t.info.width (fun i => u.info.isUniform (.inst i)) u.func
  width : u.info.width = t.info.width
  uniform : ∀ i < t.func.insts.size, u.info.isUniform (.inst i) = t.info.isUniform (.inst i)

/-- Recording the code of all lanes. -/
theorem triple_recordCascade_filled {made : List Value} {c : Cascade}
    (h : Filled q t.func b pre post t.info.width t.info [] made u) :
    Triple (· = u) (recordCascade c b made) fun _ => Scalarized q b pre post t := by
  intro u1 r u2 hu1 e
  have hrec := triple_recordCascade (t := u) u1 r u2 hu1 e
  have hkept : u1.info.width = t.info.width ∧
      ∀ v, v ∉ made → u1.info.isUniform v = t.info.isUniform v := by
    rw [hu1, h.info]
    exact ⟨rfl, fun _ _ => rfl⟩
  obtain ⟨hwidth, huniform⟩ := triple_recordCascade_keeps u1 r u2 hkept e
  refine ⟨⟨hrec.func ▸ h.opened, fun k hk => ?_⟩, hwidth, fun i hi => huniform _ fun hi' => ?_⟩
  · obtain ⟨id, hid, hmade, hlane⟩ := (h.done k hk).resolve_left List.not_mem_nil
    exact ⟨id, hid, hrec.made _ hmade, hrec.func ▸ hlane⟩
  · obtain ⟨j, e, hj⟩ := h.fresh _ hi'
    exact Nat.not_lt.mpr hj (Value.inst.inj e ▸ hi)

/-- A block is what comes before one of its instructions, this instruction, and what comes behind. -/
theorem body_eq_of_positionOf? {f : Func} {call : InstId} {pos : Nat}
    (h : f.positionOf? call = some pos) :
    f.body (f.inst call).block = (f.body (f.inst call).block).take pos ++
        call :: (f.body (f.inst call).block).drop (pos + 1) ∧
      ((f.body (f.inst call).block).take pos).length = pos := by
  obtain ⟨hlt, hget, -⟩ := List.idxOf?_eq_some_iff.mp h
  constructor
  · have hdrop := List.drop_eq_getElem_cons hlt
    rw [hget] at hdrop
    rw [← hdrop, List.take_append_drop]
  · rw [List.length_take]
    exact Nat.min_eq_left (Nat.le_of_lt hlt)

/-- A call with a mask whose result is void or unused is made lane by lane. -/
theorem exists_scalarizeCall {call : InstId} {callee : FuncId} {mask : Value}
    (markers : Markers) (hf : t.func.WellFormed) (hcall : call ∈ t.func.body b)
    (hcallee : (t.func.inst call).callee? = some callee)
    (hmask : (t.func.inst call).mask = some mask)
    (hres : (t.func.inst call).ty = .void ∨
      (UseMap.compute t.func).numUsers (.inst call) = 0) :
    ∃ pre post u, t.func.body b = pre ++ call :: post ∧
      scalarizeCall markers call t = (.ok true, u) ∧
      Scalarized (ofInstr markers t.info.isUniform (t.func.inst call) callee mask) b pre post t u := by
  let q := ofInstr markers t.info.isUniform (t.func.inst call) callee mask
  have hblock : (t.func.inst call).block = b := hf.placed b call hcall
  have hb : b < t.func.blocks.size := t.func.lt_of_mem_body hcall
  obtain ⟨pos, hpos⟩ : ∃ pos, t.func.positionOf? call = some pos := by
    cases h : t.func.positionOf? call with
    | some pos => exact ⟨pos, rfl⟩
    | none => exact absurd (hblock ▸ hcall) (List.idxOf?_eq_none_iff.mp h)
  obtain ⟨hbody, hlen⟩ := body_eq_of_positionOf? hpos
  rw [hblock] at hbody hlen
  generalize (t.func.body b).take pos = pre at hbody hlen
  generalize (t.func.body b).drop (pos + 1) = post at hbody
  have hphi : t.func.isPhi call = false := Func.isPhi_of_op _ (Instr.op_of_callee? hcallee)
  have hused : ¬ ((t.func.inst call).ty ≠ .void ∧
      0 < (UseMap.compute t.func).numUsers (.inst call)) := by
    rintro ⟨hty, hlt⟩
    exact Nat.ne_of_gt hlt (hres.resolve_left hty)
  have key : TripleAll (· = t) (scalarizeCall markers call)
      (fun r u => r = true ∧ Scalarized q b pre post t u) fun _ _ => False := by
    unfold scalarizeCall
    refine TripleAll.bind TripleAll.get fun t' => ?_
    refine TripleAll.of_eq fun u hu => ?_
    obtain ⟨rfl, rfl⟩ := hu
    simp only [hcallee, hmask, hpos, hused, if_false]
    rw [fst_create, hblock, ← hlen]
    refine TripleAll.bind (R := fun _ => Filled q t'.func b pre post t'.info.width t'.info
      (List.range t'.info.width) []) (TripleAll.set fun _ _ => ?_) fun _ => ?_
    · exact ⟨rfl, opened_split hf hbody hphi, List.nodup_range,
        fun k hk => lane_split hb _ (List.mem_range.mp hk), fun k hk => .inl (List.mem_range.mpr hk),
        fun v hv => absurd hv List.not_mem_nil⟩
    refine TripleAll.bind (TripleAll.lift triple_filled_buildCascade) fun made => ?_
    refine TripleAll.of_eq fun u hu => ?_
    refine TripleAll.bind (TripleAll.lift (triple_recordCascade_filled hu)) fun _ => ?_
    exact TripleAll.pure fun u hu => ⟨rfl, hu⟩
  rcases hrun : scalarizeCall markers call t with ⟨r, u⟩
  cases r with
  | error e => exact (key.error t e u rfl hrun).elim
  | ok r =>
    obtain ⟨rfl, h⟩ := key.ok t r u rfl hrun
    exact ⟨pre, post, u, hbody, rfl, h⟩

end Stage

end Lockstep
