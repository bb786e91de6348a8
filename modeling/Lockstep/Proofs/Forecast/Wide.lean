import Lockstep.Proofs.Eval.ActiveLanes
import Lockstep.Proofs.Forecast.Holding
import Lockstep.Proofs.Forecast.Sharing

/-!
# Running a linearized function in all lanes

All branches of a linearized function are uniform, so all lanes go the same way through it
(`Lowered.path_eq`). Along that way every instruction can be run, and leaves the machine with what is
known beforehand: an operation without effects by what it yields (`Lowered.exists_pure`), a load and a
store because they act in just the lanes that come by their block (`Lowered.active_iff`). So the
function can be run to its end (`Lowered.exists_blocks`).
-/

namespace Lockstep

open Run

namespace Func.Course

variable {f : Func} {P Q : List BlockId}

/-- Two courses are the same if they never part. -/
theorem eq_of_next (h : f.Course P) (k : f.Course Q)
    (hn : ∀ b c d, [b, c] <:+: P → [b, d] <:+: Q → c = d) : P = Q := by
  obtain ⟨p, hp⟩ := List.head?_eq_some_iff.mp h.start
  obtain ⟨q, hq⟩ := List.head?_eq_some_iff.mp k.start
  have hends : ∀ {P ys : List BlockId} {x : BlockId}, f.Course P → P = ys ++ [x] →
      ∀ c, ¬ f.Edge x c := by
    intro P ys x h e c hc
    obtain ⟨z, v, hz, hret⟩ := h.ends
    rw [e, List.getLast?_append, List.getLast?_singleton] at hz
    cases hz
    rw [Edge, hret] at hc
    cases hc
  have key : ∀ p q pre x, P = pre ++ x :: p → Q = pre ++ x :: q → p = q := by
    intro p
    induction p with
    | nil =>
      intro q pre x hp hq
      rcases q with - | ⟨d, q⟩
      · rfl
      · exact absurd (k.edge ⟨pre, q, by rw [hq]; simp⟩) (hends h hp d)
    | cons c p ih =>
      intro q pre x hp hq
      rcases q with - | ⟨d, q⟩
      · exact absurd (h.edge ⟨pre, p, by rw [hp]; simp⟩) (hends k hq c)
      · obtain rfl := hn x c d ⟨pre, p, by rw [hp]; simp⟩ ⟨pre, q, by rw [hq]; simp⟩
        rw [ih q (pre ++ [x]) c (by rw [hp]; simp) (by rw [hq]; simp)]
  rw [hp, hq, key p q [] f.entry hp hq]

end Func.Course

namespace Stage.Lowered

variable {ι : Type} {D : Doings ι} {markers : Markers} {P : ι → List BlockId} {K : Knowledge ι}
  {t u : Stage} {b c d : BlockId} {i : InstId} {v : Value} {l l' : ι}

section

variable (h : Lowered D markers P K t u)

include h

/-! ## The code -/

theorem body (b : BlockId) : u.func.body b = t.func.body b := by
  unfold Func.body Func.block
  rw [h.blocks]

theorem term (b : BlockId) : u.func.term b = t.func.term b := by
  unfold Func.term Func.block
  rw [h.blocks]

theorem isPhi (i : InstId) : u.func.isPhi i = t.func.isPhi i := by
  unfold Func.isPhi Instr.isPhi
  rw [h.op]

theorem phis (b : BlockId) : u.func.phis b = t.func.phis b := by
  unfold Func.phis
  rw [h.body, funext h.isPhi]

theorem nonPhis (b : BlockId) : u.func.nonPhis b = t.func.nonPhis b := by
  unfold Func.nonPhis
  rw [h.body, funext h.isPhi]

theorem incomingValue? (phi : InstId) (p : BlockId) :
    u.func.incomingValue? phi p = t.func.incomingValue? phi p := by
  unfold Func.incomingValue? Instr.incoming
  rw [h.op]

theorem typeOf : u.func.typeOf = t.func.typeOf := by
  funext v
  cases v with
  | const c => rfl
  | param k => exact congrArg (fun ps : List Ty => ps[k]?.getD .void) h.params
  | inst i => exact h.ty i

/-! ## The way -/

theorem runs : D.Runs t.func (fun phi => t.func.way P (t.func.inst phi).block) K t.func :=
  h.steady.foretold.runs

/-- Where the condition of a branch is known, it leads to the next block. -/
theorem exists_cond {x y : BlockId} (hbc : [b, c] <:+: P l) (ht : t.func.term b = .brIf v x y) :
    ∃ q, (∀ l, K.Knows l v (.bool q)) ∧ c = if q then x else y := by
  have hcourse := h.steady.course l
  obtain ⟨q, hq, hqc⟩ := h.steady.foretold.cond l b v x y ht c hbc
  refine ⟨q, fun l' => h.uniform b v x y (hcourse.reachable (mem_of_pair hbc).1) ht l l' _ hq, ?_⟩
  have hedge : c ∈ [x, y] := by
    have := hcourse.edge hbc
    rwa [Func.Edge, ht] at this
  cases q with
  | true => exact hqc.mp rfl
  | false =>
    have hne : c ≠ x := fun e => Bool.false_ne_true (hqc.mpr e)
    simpa [hne] using hedge

/-- All lanes go the same way. -/
theorem path_eq (l l' : ι) : P l = P l' := by
  refine (h.steady.course l).eq_of_next (h.steady.course l') fun b c d hc hd => ?_
  have hbc := (h.steady.course l).edge hc
  have hbd := (h.steady.course l').edge hd
  cases ht : t.func.term b with
  | unreachable | ret v =>
    rw [Func.Edge, ht] at hbc
    cases hbc
  | br x =>
    rw [Func.Edge, ht] at hbc hbd
    exact (List.mem_singleton.mp hbc).trans (List.mem_singleton.mp hbd).symm
  | brIf v x y =>
    obtain ⟨q, hq, rfl⟩ := h.exists_cond hc ht
    obtain ⟨q', hq', rfl⟩ := h.exists_cond hd ht
    rw [Scalar.bool.inj (h.runs.sure.unique_value (hq l) (hq' l))]

end

end Stage.Lowered

/-! ## Effects -/

/-- An effect is a load or a store, with operands known in the lanes that come by. -/
theorem Doings.Runs.effect_cases {ι : Type} {D : Doings ι} {g f : Func} {ways : InstId → Way ι}
    {K : Knowledge ι} {b : BlockId} {i : InstId} (h : D.Runs g ways K f) (hp : D.func.Plain)
    (hi : i ∈ f.body b) (heff : f.isEffect i = true) :
    (∃ p args, (f.inst i).op = .apply .load [p] ∧ (D.func.inst i).op = .apply .load args ∧
      ∀ l, b ∈ D.trace l → ∃ addr, D.args l i = [addr] ∧ K.Knows l p addr) ∨
    ∃ p v args, (f.inst i).op = .apply .store [p, v] ∧ (D.func.inst i).op = .apply .store args ∧
      ∀ l, b ∈ D.trace l → ∃ addr x, D.args l i = [addr, x] ∧ K.Knows l p addr ∧ K.Knows l v x := by
  obtain ⟨code, args, args', hop, hop', -, hknown⟩ := h.effect b i hi heff
  have hty := (h.code.typed.inst b i hi).apply code args' hop'
  have hcode : code.hasSideEffects = true := by
    unfold Func.isEffect at heff
    rwa [hop'] at heff
  cases code with
  | load =>
    rcases args' with - | ⟨p, - | ⟨q, rest⟩⟩
    · cases hty
    · refine .inl ⟨p, args, hop', hop, fun l hl => ?_⟩
      obtain ⟨addr, xs, hp, hnil, e⟩ := List.forall₂_cons_left_iff.mp (hknown l hl)
      cases hnil
      exact ⟨addr, e, hp⟩
    · cases hty
  | store =>
    rcases args' with - | ⟨p, - | ⟨v, - | ⟨q, rest⟩⟩⟩
    · cases hty
    · cases hty
    · refine .inr ⟨p, v, args, hop', hop, fun l hl => ?_⟩
      obtain ⟨addr, xs, hp, hxs, e⟩ := List.forall₂_cons_left_iff.mp (hknown l hl)
      obtain ⟨x, ys, hv, hnil, rfl⟩ := List.forall₂_cons_left_iff.mp hxs
      cases hnil
      exact ⟨addr, x, e, hp, hv⟩
    · cases hty
  | call callee => exact absurd hop (hp.noCall b i (h.isEffect_lt hi heff) callee args)
  | _ => cases hcode

namespace Stage.Lowered

variable {W : Nat} {D : Doings (Fin W)} {markers : Markers} {P : Fin W → List BlockId}
  {K : Knowledge (Fin W)} {t u : Stage} {s : Setup} {pre post : List BlockId}
  {before after : List InstId} {b c : BlockId} {i : InstId} {m : Machine} {v w : Value}
  {code : Opcode} {args : List Value} {start : Array Scalar} {ends : Fin W → Array Scalar}

section

variable (h : Lowered D markers P K t u) (hw : s.width = W) (hW : 0 < W)
  (hP : ∀ l, P l = pre ++ b :: post)

include h hP

omit hw in
theorem course_at (hW : 0 < W) : t.func.Course (pre ++ b :: post) :=
  hP ⟨0, hW⟩ ▸ h.steady.course ⟨0, hW⟩

omit hw in
theorem reachable_at (hW : 0 < W) : t.func.Reachable b := (h.course_at hP hW).reachable (by simp)

omit hw in
theorem nodup_at (hW : 0 < W) : (pre ++ b :: post).Nodup := (h.course_at hP hW).nodup h.steady.acyclic

/-- The operands of an instruction have been run. -/
theorem operand (hW : 0 < W) (eb : t.func.body b = before ++ i :: after) (hphi : t.func.isPhi i = false)
    (hv : v ∈ (t.func.inst i).inputs) : v.IsTyped ∧ v.Within (t.func.Ran pre before) := by
  have hi : i ∈ t.func.body b := by rw [eb]; simp
  refine ⟨(h.runs.code.typed.inst b i hi).uses v (List.mem_append_left _ hv), ?_⟩
  exact (h.runs.code.uses b (h.reachable_at hP hW) i hi hphi v hv).within_ran (h.course_at hP hW)
    (h.runs.code.nodup b) eb

include hw

/-- An operation without effects computes what is known of it. -/
theorem exists_pure (hW : 0 < W) (eb : t.func.body b = before ++ i :: after)
    (hm : K.Holds t.func (t.func.Ran pre before) m) (hop : (t.func.inst i).op = .apply code args)
    (hpure : code.hasSideEffects = false) : ∃ m', instr s u.func i m = (.ok (), m') ∧
      K.Holds t.func (t.func.Ran pre (before ++ [i])) m' ∧ m'.memory = m.memory := by
  subst hw
  have hi : i ∈ t.func.body b := by rw [eb]; simp
  have hphi : t.func.isPhi i = false := by
    unfold Func.isPhi Instr.isPhi
    rw [hop]
    rfl
  have hoperand : ∀ v ∈ args, v.IsTyped ∧ v.Within (t.func.Ran pre before) := fun v hv =>
    h.operand hP hW eb hphi (by rw [inputs_of_op hop]; exact hv)
  have hfeeds := hm.feeds (fun v hv => (hoperand v hv).1) (fun v hv => (hoperand v hv).2)
  have hquiet : code.isQuiet = true := by
    cases code with
    | store | call _ => cases hpure
    | _ => rfl
  have hop' : (u.func.inst i).op = .apply code args := (h.op i).trans hop
  have hresult : ∀ l, laneResult s.width u.func i code args m l =
      (code.eval (fun k => Lanes.lane ((args.map (m.value s.width))[k]?.getD []) l)
        ((args.map t.func.typeOf)[0]?.getD .void) (t.func.inst i).ty).mapError (.unsupported i) := by
    intro l
    unfold laneResult
    rw [laneOperation_eq_eval i hpure, typeOf_input_zero hop', h.typeOf, h.ty]
  have hall : ∀ l ∈ List.range s.width, ∃ x, laneResult s.width u.func i code args m l = .ok x := by
    intro l hl
    obtain ⟨x, hx, -⟩ := Opcode.exists_eval ((h.runs.code.typed.inst b i hi).apply code args hop) hpure
      (hfeeds ⟨l, List.mem_range.mp hl⟩).hasTy
    exact ⟨x, by rw [hresult, hx]; rfl⟩
  obtain ⟨xs, hxs⟩ := exists_mapM_eq_ok hall
  obtain ⟨hlen, hxs⟩ := mapM_range_eq_ok_iff.mp hxs
  refine ⟨m.setValue i xs, (instr_eq_ok_iff hW hop' hquiet).mpr ⟨xs, ⟨hlen, hxs⟩, rfl⟩, ?_, rfl⟩
  refine (hm.setValue (h.runs.code.coherent.body_lt b i hi) hlen (fun l => ?_) fun l x hx => ?_).congr
    fun j => Func.ran_append.trans (or_congr_right List.mem_singleton)
  · have e := hxs l l.isLt
    rw [hresult] at e
    obtain ⟨y, hy, hty⟩ := Opcode.exists_eval ((h.runs.code.typed.inst b i hi).apply code args hop) hpure
      (hfeeds l).hasTy
    rw [hy] at e
    exact Except.ok.inj e ▸ hty
  · have e := hxs l l.isLt
    rw [hresult, h.runs.pure b i hi code args hop hpure l x hx _ (hfeeds l)] at e
    exact (Except.ok.inj e).symm

omit hw in
/-- An effect is run in the lanes that come by its block. -/
theorem active_iff (hW : 0 < W) (eb : t.func.body b = before ++ i :: after)
    (hm : K.Holds t.func (t.func.Ran pre before) m) (heff : t.func.isEffect i = true)
    (hneeds : needsMask markers (t.func.inst i) = true) (l : Fin W) :
    Run.active W m (u.func.inst i).mask l = true ↔ b ∈ D.trace l := by
  have hi : i ∈ t.func.body b := by rw [eb]; simp
  have hfore := h.steady.foretold
  obtain ⟨p, hp⟩ := Option.isSome_iff_exists.mp
    (h.steady.marked b ((h.steady.reachable b).mp (h.reachable_at hP hW)))
  have hmask := hfore.blockMask b p hp
  have hpred : t.info.predicate? b = some p := (hfore.predicate b).trans hp
  have hregion : t.info.inRegion b = true := by
    rw [VectorInfo.inRegion, hfore.region]
    rfl
  obtain ⟨q, hq, hqb⟩ := hmask.knows l
  have hlane := hm.lane_eq ((hmask.before i hi heff).within_ran (h.course_at hP hW)
    (h.runs.code.nodup b) eb) hq
  rw [← hqb, h.mask b i hi]
  by_cases ht : p.bool? = some true
  · have hguard : guard? t.info b = none := by
      rw [guard?, if_pos hregion, hpred]
      exact Option.filter_eq_none_iff.mpr fun a ha => by cases ha; simpa using ht
    rw [guardedIn, hguard, show (none.elim (t.func.inst i) fun mask => _) = t.func.inst i from rfl,
      h.runs.code.noMask b i hi]
    have htrue := Machine.isTrueIn_of_bool? (m := m) ht l.isLt
    unfold Machine.IsTrueIn at htrue
    rw [hlane] at htrue
    exact iff_of_true rfl (by simpa [Scalar.isTrue] using htrue)
  · rcases mask_guardedIn_of_none (d := t.func.inst i) hregion hpred hneeds (h.runs.code.noMask b i hi)
      with hconst | hguarded
    · exact absurd hconst ht
    · rw [hguarded]
      show ((m.value W p).lane l).isTrue = true ↔ _
      rw [hlane]
      cases q <;> simp [Scalar.isTrue]

omit hw hP in
/-- The effects of a block are those that the lanes have on their own. -/
theorem effectsOf_eq (eb : t.func.body b = before ++ i :: after) (heff : t.func.isEffect i = true) :
    D.effectsOf b = before.filter t.func.isEffect ++ i :: after.filter t.func.isEffect := by
  have := h.runs.effects b
  rw [eb, List.filter_append, List.filter_cons_of_pos heff] at this
  exact this.symm

/-- A load gives each lane that comes by what it would have loaded on its own. -/
theorem exists_load (hW : 0 < W) (hsep : D.Separate start ends)
    (eb : t.func.body b = before ++ i :: after) (hm : K.Holds t.func (t.func.Ran pre before) m)
    (hs : D.Shares start (D.passed pre b (before.filter t.func.isEffect)) m.memory)
    (hop : (t.func.inst i).op = .apply .load [v]) (hopD : (D.func.inst i).op = .apply .load args)
    (hknown : ∀ l, b ∈ D.trace l → ∃ addr, D.args l i = [addr] ∧ K.Knows l v addr) :
    ∃ m', instr s u.func i m = (.ok (), m') ∧ K.Holds t.func (t.func.Ran pre (before ++ [i])) m' ∧
      m'.memory = m.memory := by
  subst hw
  have hi : i ∈ t.func.body b := by rw [eb]; simp
  have heff : t.func.isEffect i = true := by unfold Func.isEffect; rw [hop]; rfl
  have hneeds : needsMask markers (t.func.inst i) = true := by
    unfold needsMask Instr.callee?
    rw [hop]
    rfl
  have hphi := Func.isPhi_of_isEffect heff
  have hD := h.runs.isEffect_lt hi heff
  have hltD := hsep.coherent.body_lt b i hD
  have heffD : i ∈ D.effectsOf b := by rw [h.effectsOf_eq eb heff]; simp
  have hactive := h.active_iff hP hW eb hm heff hneeds
  have hop' : (u.func.inst i).op = .apply .load [v] := (h.op i).trans hop
  have haddr : ∀ l : Fin s.width, ∀ addr, K.Knows l v addr → (m.value s.width v).lane l = addr :=
    fun l addr hx => hm.lane_eq (h.operand hP hW eb hphi (by rw [inputs_of_op hop]; simp)).2 hx
  let xs : Lanes := (List.range s.width).map fun l =>
    loadLane (Run.active s.width m (u.func.inst i).mask l) ((m.value s.width v).lane l) m.memory
  have hlen : xs.length = s.width := by simp [xs]
  have hxs : ∀ l < s.width, xs.lane l =
      loadLane (Run.active s.width m (u.func.inst i).mask l) ((m.value s.width v).lane l) m.memory := by
    intro l hl
    simp [xs, Lanes.lane, hl]
  have hcome : ∀ l : Fin s.width, b ∈ D.trace l → K.inst l i (xs.lane l) := by
    intro l hb
    obtain ⟨addr, hargs, hx⟩ := hknown l hb
    obtain ⟨pre', post', e, hpast⟩ := Doings.exists_passed (hP l ▸ h.steady.sublist l)
      (h.nodup_at hP hW) hb (before.filter t.func.isEffect)
    rw [hxs l l.isLt, (hactive l).mpr hb, haddr l addr hx, hs.loadLane_eq hsep.apart hb heffD hargs, hpast]
    exact (h.runs.known.inst l i hltD _).mpr
      (hsep.load l pre' b post' _ i _ e (h.effectsOf_eq eb heff) args hopD addr hargs)
  refine ⟨m.setValue i xs, (instr_load_eq_ok_iff hW hop').mpr ⟨fun l hl a hact e => ?_, xs, hlen, hxs, rfl⟩,
    ?_, rfl⟩
  · have hb := (hactive ⟨l, hl⟩).mp hact
    obtain ⟨addr, hargs, hx⟩ := hknown ⟨l, hl⟩ hb
    rw [haddr ⟨l, hl⟩ addr hx] at e
    exact (hsep.address ⟨l, hl⟩ b i hb heffD addr [] hargs a rfl e).of_size hs.size.symm
  · refine (hm.setValue (h.runs.code.coherent.body_lt b i hi) hlen (fun l => ?_) fun l x hx => ?_).congr
      fun j => Func.ran_append.trans (or_congr_right List.mem_singleton)
    · by_cases hb : b ∈ D.trace l
      · exact h.runs.sure.hasTy l i _ (hcome l hb)
      · rw [hxs l l.isLt, Bool.eq_false_iff.mpr fun e => hb ((hactive l).mp e)]
        exact Scalar.hasTy_undefined _
    · have hxD := (h.runs.known.inst l i hltD x).mp hx
      exact h.runs.sure.unique l i _ x (hcome l (hsep.away l i x b hD hxD)) hx

/-- A store writes for each lane that comes by what it would have written on its own. -/
theorem exists_store (hW : 0 < W) (hsep : D.Separate start ends)
    (eb : t.func.body b = before ++ i :: after) (hm : K.Holds t.func (t.func.Ran pre before) m)
    (hs : D.Shares start (D.passed pre b (before.filter t.func.isEffect)) m.memory)
    (hop : (t.func.inst i).op = .apply .store [v, w])
    (hopD : (D.func.inst i).op = .apply .store args)
    (hknown : ∀ l, b ∈ D.trace l →
      ∃ addr x, D.args l i = [addr, x] ∧ K.Knows l v addr ∧ K.Knows l w x) :
    ∃ m', instr s u.func i m = (.ok (), m') ∧ K.Holds t.func (t.func.Ran pre (before ++ [i])) m' ∧
      D.Shares start (D.passed pre b (before.filter t.func.isEffect ++ [i])) m'.memory := by
  subst hw
  have hi : i ∈ t.func.body b := by rw [eb]; simp
  have heff : t.func.isEffect i = true := by unfold Func.isEffect; rw [hop]; rfl
  have hneeds : needsMask markers (t.func.inst i) = true := by
    unfold needsMask Instr.callee?
    rw [hop]
    rfl
  have hphi := Func.isPhi_of_isEffect heff
  have hD := h.runs.isEffect_lt hi heff
  have heffD : i ∈ D.effectsOf b := by rw [h.effectsOf_eq eb heff]; simp
  have hactive := h.active_iff hP hW eb hm heff hneeds
  have hop' : (u.func.inst i).op = .apply .store [v, w] := (h.op i).trans hop
  have hlane : ∀ y ∈ [v, w], ∀ l x, K.Knows l y x → (m.value s.width y).lane l = x := fun y hy l x hx =>
    hm.lane_eq (h.operand hP hW eb hphi (by rw [inputs_of_op hop]; exact hy)).2 hx
  refine ⟨_, instr_store_eq_ok_iff hop' |>.mpr ⟨fun l hl a hact e => ?_, rfl⟩, ?_, ?_⟩
  · have hb := (hactive ⟨l, hl⟩).mp hact
    obtain ⟨addr, x, hargs, hv, -⟩ := hknown ⟨l, hl⟩ hb
    rw [hlane v (by simp) ⟨l, hl⟩ addr hv] at e
    exact (hsep.address ⟨l, hl⟩ b i hb heffD addr [x] hargs a rfl e).of_size hs.size.symm
  · refine ((hm.withMemory _).setValue (h.runs.code.coherent.body_lt b i hi)
      (Lanes.length_splat s.width .undefined) (fun l => ?_) fun l x hx => ?_).congr
      fun j => Func.ran_append.trans (or_congr_right List.mem_singleton)
    · exact Lanes.hasTy_splat (Scalar.hasTy_undefined _) _ _
    · rw [hsep.store l i x args hopD
        ((h.runs.known.inst l i (hsep.coherent.body_lt b i hD) x).mp hx)]
      exact Lanes.lane_splat _ l.isLt
  · refine hs.store hopD heffD hactive (fun l hb => ?_) fun l => Doings.passed_append pre b _ i l
    obtain ⟨addr, x, hargs, hv, hx⟩ := hknown l hb
    rw [hargs, hlane v (by simp) l addr hv, hlane w (by simp) l x hx]

/-- Every instruction of a block can be run. -/
theorem exists_instr (hW : 0 < W) (hsep : D.Separate start ends)
    (eb : t.func.body b = before ++ i :: after) (hphi : t.func.isPhi i = false)
    (hm : K.Holds t.func (t.func.Ran pre before) m)
    (hs : D.Shares start (D.passed pre b (before.filter t.func.isEffect)) m.memory) :
    ∃ m', instr s u.func i m = (.ok (), m') ∧ K.Holds t.func (t.func.Ran pre (before ++ [i])) m' ∧
      D.Shares start (D.passed pre b ((before ++ [i]).filter t.func.isEffect)) m'.memory := by
  have hi : i ∈ t.func.body b := by rw [eb]; simp
  rw [List.filter_append]
  by_cases heff : t.func.isEffect i = true
  · rw [List.filter_singleton, heff, cond_true]
    rcases h.runs.effect_cases hsep.plain hi heff with ⟨p, args, hop, hopD, hknown⟩ |
      ⟨p, v, args, hop, hopD, hknown⟩
    · obtain ⟨m', e, hm', hmemory⟩ := h.exists_load hw hP hW hsep eb hm hs hop hopD hknown
      refine ⟨m', e, hm', hmemory ▸ hs.load hopD fun l => ?_⟩
      rw [Doings.passed_append]
      split
      · exact .inr rfl
      · exact .inl rfl
    · exact h.exists_store hw hP hW hsep eb hm hs hop hopD hknown
  · obtain ⟨code, args, hop⟩ : ∃ code args, (t.func.inst i).op = .apply code args := by
      cases hop : (t.func.inst i).op with
      | apply code args => exact ⟨code, args, rfl⟩
      | phi incoming =>
        unfold Func.isPhi Instr.isPhi at hphi
        rw [hop] at hphi
        cases hphi
    have hpure : code.hasSideEffects = false := by
      unfold Func.isEffect at heff
      rw [hop] at heff
      exact Bool.eq_false_iff.mpr heff
    obtain ⟨m', e, hm', hmemory⟩ := h.exists_pure hw hP hW eb hm hop hpure
    refine ⟨m', e, hm', ?_⟩
    rw [List.filter_singleton, Bool.eq_false_iff.mpr heff, cond_false, List.append_nil, hmemory]
    exact hs

/-- So can all of them. -/
theorem exists_instrs (hW : 0 < W) (hsep : D.Separate start ends) {is : List InstId}
    (eb : t.func.body b = before ++ is) (hphi : ∀ i ∈ is, t.func.isPhi i = false)
    (hm : K.Holds t.func (t.func.Ran pre before) m)
    (hs : D.Shares start (D.passed pre b (before.filter t.func.isEffect)) m.memory) :
    ∃ m', is.forM (instr s u.func) m = (.ok (), m') ∧
      K.Holds t.func (t.func.Ran pre (t.func.body b)) m' ∧
        D.Shares start (D.passed pre b (D.effectsOf b)) m'.memory := by
  induction is generalizing before m with
  | nil =>
    rw [List.append_nil] at eb
    subst eb
    have heffects : D.effectsOf b = (t.func.body b).filter t.func.isEffect := (h.runs.effects b).symm
    exact ⟨m, rfl, hm, heffects ▸ hs⟩
  | cons i is ih =>
    obtain ⟨m1, e1, hm1, hs1⟩ := h.exists_instr hw hP hW hsep eb (hphi i List.mem_cons_self) hm hs
    have eb' : t.func.body b = (before ++ [i]) ++ is := by rw [eb]; simp
    obtain ⟨m', e, hm', hs'⟩ := ih eb'
      (fun j hj => hphi j (List.mem_cons_of_mem _ hj)) hm1 hs1
    exact ⟨m', (bind_run_eq e1).trans e, hm', hs'⟩

omit hw in
/-- A phi takes in every lane what is known of it. -/
theorem exists_incoming (hW : 0 < W) (hm : K.Holds t.func (t.func.Ran pre []) m) {phi : InstId}
    (hphi : phi ∈ t.func.phis b) : ∃ v, pre.getLast?.bind (u.func.incomingValue? phi) = some v ∧
      (∀ l, ((m.value W v).lane l).HasTy (t.func.inst phi).ty) ∧
        ∀ (l : Fin W) x, K.inst l phi x → (m.value W v).lane l = x := by
  have hbody := Func.mem_body_of_mem_phis hphi
  rcases List.eq_nil_or_concat pre with rfl | ⟨pre, p, rfl⟩
  · obtain rfl : b = t.func.entry := Option.some.inj (h.course_at hP hW).start
    rw [h.runs.start] at hphi
    cases hphi
  rw [List.concat_eq_append] at hP hm ⊢
  have hP' : ∀ l, P l = pre ++ p :: (b :: post) := fun l => by rw [hP]; simp
  have hpair : ∀ l, [p, b] <:+: P l := fun l => ⟨pre, post, by rw [hP']; simp⟩
  have hreach := h.reachable_at hP' hW
  have henter := h.runs.phis b (h.reachable_at hP hW) phi hphi
  rw [h.runs.code.coherent.placed b phi hbody] at henter
  have hedge : t.func.Edge p b := (h.steady.course ⟨0, hW⟩).edge (hpair ⟨0, hW⟩)
  obtain ⟨⟨p', v⟩, hmem, hp'⟩ := List.mem_map.mp (henter.complete p hreach hedge)
  obtain rfl : p' = p := hp'
  obtain ⟨incoming, hop, hin⟩ := op_of_mem_incoming hmem
  have htyped := h.runs.code.typed.inst b phi hbody
  have hv : v ∈ (t.func.inst phi).inputs := by
    rw [Instr.inputs, hop]
    exact List.mem_map_of_mem hin
  refine ⟨v, ?_, fun l => ?_, fun l x hx => ?_⟩
  · rw [List.getLast?_concat, Option.bind_some, h.incomingValue?]
    exact Func.incomingValue?_of_mem henter.nodup hmem
  · rw [← (htyped.phi incoming hop).2 _ hin]
    exact hm.typed.value (htyped.uses v (List.mem_append_left _ hv)) W l
  · exact hm.lane_eq ((h.runs.code.entries b (h.reachable_at hP hW) phi hphi _ hmem hreach).within_ran
      (h.course_at hP' hW)) (henter.taken l _ hmem (hpair l) x hx)

/-- The phis of a block can be run. -/
theorem exists_phis (hW : 0 < W) (hm : K.Holds t.func (t.func.Ran pre []) m) :
    ∃ m', Run.phis s u.func pre.getLast? b m = (.ok (), m') ∧
      K.Holds t.func (t.func.Ran pre (t.func.phis b)) m' ∧ m'.memory = m.memory := by
  subst hw
  have hin := fun phi (hphi : phi ∈ t.func.phis b) => h.exists_incoming hP hW hm hphi
  choose! entry hentry hty hknown using hin
  let new : List (InstId × Lanes) := (t.func.phis b).map fun phi => (phi, m.value s.width (entry phi))
  refine ⟨m.setPhis new, phis_eq_ok_iff.mpr ⟨new, ?_, rfl⟩, ?_, (Machine.effects_setPhis new).1⟩
  · rw [h.phis]
    exact List.forall₂_map_right_iff.mpr (List.forall₂_same.mpr fun phi hphi =>
      ⟨entry phi, hentry phi hphi, rfl⟩)
  · have hfst : new.map Prod.fst = t.func.phis b := by
      rw [List.map_map]
      exact List.map_id _
    refine (hm.setPhis fun e he => ?_).congr fun j => ?_
    · obtain ⟨phi, hphi, rfl⟩ := List.mem_map.mp he
      exact ⟨h.runs.code.coherent.body_lt b phi (Func.mem_body_of_mem_phis hphi), hm.full.value _,
        fun l => hty phi hphi l, hknown phi hphi⟩
    · rw [hfst]
      simp [Func.Ran]

omit hw in
/-- Control leaves a block for the next one on the way, or the function at the end of it. -/
theorem exists_wayOut (hW : 0 < W) (hm : K.Holds t.func (t.func.Ran (pre ++ [b]) []) m) :
    ∃ r, wayOut W (t.func.term b) b m = .ok r ∧ (∀ c rest, post = c :: rest → r = .inl c) ∧
      (post = [] → ∃ v, t.func.term b = .ret v ∧ r = .inr (v.map (m.value W))) := by
  have hcourse := h.course_at hP hW
  rcases post with - | ⟨c, rest⟩
  · obtain ⟨z, v, hz, hret⟩ := hcourse.ends
    rw [List.getLast?_append, List.getLast?_singleton] at hz
    obtain rfl : b = z := Option.some.inj hz
    rw [hret]
    exact ⟨_, rfl, nofun, fun _ => ⟨v, rfl, rfl⟩⟩
  · have hbc : [b, c] <:+: P ⟨0, hW⟩ := ⟨pre, rest, by rw [hP]; simp⟩
    have hedge := (h.steady.course _).edge hbc
    refine ⟨.inl c, ?_, fun d rest' e => by cases e; rfl, nofun⟩
    cases ht : t.func.term b with
    | unreachable | ret v =>
      rw [Func.Edge, ht] at hedge
      cases hedge
    | br x =>
      rw [Func.Edge, ht] at hedge
      rw [List.mem_singleton.mp hedge]
      rfl
    | brIf v x y =>
      obtain ⟨q, hq, rfl⟩ := h.exists_cond hbc ht
      have hv : v.Within (t.func.Ran (pre ++ [b]) []) := (h.runs.code.exit b (h.reachable_at hP hW) v (by
        rw [ht]
        exact List.mem_singleton_self v)).within_ran hcourse
      have hlane : ∀ l < W, (m.value W v).lane l = .bool q := fun l hl =>
        hm.lane_eq (l := ⟨l, hl⟩) hv (hq _)
      have hlen := hm.full.value v
      have hagree : agree (m.value W v) = some (some q) := by
        refine agree_eq_some ?_ fun q' hq' => ?_
        · rw [← hlane 0 hW]
          exact Lanes.lane_mem (by rw [hlen]; exact hW)
        · obtain ⟨l, hl, e⟩ := Lanes.exists_lane hq'
          rw [hlen] at hl
          rw [hlane l hl] at e
          exact (Scalar.bool.inj e).symm
      unfold wayOut
      dsimp only
      rw [hagree]

/-- A block can be run, and leads on along the way. -/
theorem exists_block (hW : 0 < W) (hsep : D.Separate start ends)
    (hm : K.Holds t.func (t.func.Ran pre []) m) (hs : D.Shares start (D.passed pre b []) m.memory) :
    ∃ r m', block s u.func pre.getLast? b m = (.ok r, m') ∧
      K.Holds t.func (t.func.Ran (pre ++ [b]) []) m' ∧
        (∀ c, D.Shares start (D.passed (pre ++ [b]) c []) m'.memory) ∧
          (∀ c rest, post = c :: rest → r = .inl c) ∧
            (post = [] → ∃ v, t.func.term b = .ret v ∧ r = .inr (v.map (m'.value W))) := by
  have hphis : (t.func.phis b).filter t.func.isEffect = [] := by
    refine List.filter_eq_nil_iff.mpr fun i hi heff => ?_
    have := Func.isPhi_of_mem_phis hi
    rw [Func.isPhi_of_isEffect heff] at this
    cases this
  obtain ⟨m1, e1, hm1, hmemory⟩ := h.exists_phis hw hP hW
    (hm.withPath (b :: m.path))
  have hs1 : D.Shares start (D.passed pre b ((t.func.phis b).filter t.func.isEffect)) m1.memory := by
    rw [hphis, hmemory]
    exact hs
  obtain ⟨m2, e2, hm2, hs2⟩ := h.exists_instrs hw hP hW hsep (t.func.phis_append_nonPhis b).symm
    (h.runs.code.phisFirst b) hm1 hs1
  have hm2 := hm2.congr fun _ => Func.ran_body.symm
  obtain ⟨r, hr, hnext, hend⟩ := h.exists_wayOut hP hW hm2
  refine ⟨r, m2, block_eq_ok_iff.mpr ⟨m1, e1, ?_, ?_⟩, hm2, fun c => ?_, hnext, hend⟩
  · rw [h.nonPhis]
    exact e2
  · rw [h.term, hw]
    exact hr
  · rw [← Doings.passed_block]
    exact hs2

end

/-- All lanes together come to the end of their way. -/
theorem exists_blocks (h : Lowered D markers P K t u) (hw : s.width = W) (hW : 0 < W)
    (hsep : D.Separate start ends) (hP : ∀ l, P l = pre ++ b :: post)
    (hm : K.Holds t.func (t.func.Ran pre []) m) (hs : D.Shares start (D.passed pre b []) m.memory)
    {steps : Nat} (hsteps : post.length < steps) : ∃ v m',
      Run.blocks s u.func steps pre.getLast? b m = (.ok (v.map (m'.value W)), m') ∧
        K.Holds t.func (t.func.Ran (pre ++ b :: post) []) m' ∧
          D.Shares start (fun l => (D.trace l).flatMap D.effectsOf) m'.memory ∧
            ∃ z, (b :: post).getLast? = some z ∧ t.func.term z = .ret v := by
  obtain ⟨steps, rfl⟩ := Nat.exists_eq_add_one_of_ne_zero (Nat.ne_of_gt (Nat.zero_lt_of_lt hsteps))
  obtain ⟨r, m1, e1, hm1, hs1, hnext, hend⟩ := h.exists_block hw hP hW hsep hm hs
  induction post generalizing pre b m steps r m1 with
  | nil =>
    obtain ⟨v, hv, rfl⟩ := hend rfl
    have hall : D.passed (pre ++ [b]) b [] = fun l => (D.trace l).flatMap D.effectsOf :=
      funext fun l => Doings.passed_all (hP l ▸ h.steady.sublist l) (h.nodup_at hP hW) b
    exact ⟨v, m1, bind_run_eq e1, hm1, hall ▸ hs1 b, b, rfl, hv⟩
  | cons c post ih =>
    obtain rfl := hnext c post rfl
    have hP' : ∀ l, P l = (pre ++ [b]) ++ c :: post := fun l => by rw [hP]; simp
    obtain ⟨steps, rfl⟩ : ∃ k, steps = k + 1 :=
      Nat.exists_eq_add_one_of_ne_zero (by rw [List.length_cons] at hsteps; omega)
    obtain ⟨r, m2, e2, hm2, hs2, hnext2, hend2⟩ := h.exists_block hw hP' hW hsep hm1 (hs1 c)
    obtain ⟨v, m', e, hm', hs', hv⟩ := ih hP' hm1 (hs1 c) steps (by simpa using hsteps) r m2 e2 hm2 hs2
      hnext2 hend2
    refine ⟨v, m', ?_, by simpa using hm', hs', hv⟩
    rw [List.getLast?_concat] at e
    exact (bind_run_eq e1).trans e

/-! ## The whole run -/

/-- Before anything is run nothing has to be as known but the parameters. -/
theorem holds_start (h : Lowered D markers P K t u) (hw : s.width = W) {params : List Lanes}
    (hfull : ∀ xs ∈ params, xs.length = W)
    (hparam : ∀ (l : Fin W) k, (params[k]?.getD (.splat W .undefined)).lane l = D.known.arg l k)
    (memory : Array Scalar) :
    K.Holds t.func (t.func.Ran [] []) (startMachine s u.func params memory) := by
  subst hw
  have harg : K.arg = D.known.arg := h.runs.known.arg
  have hvalue : ∀ i, (startMachine s u.func params memory).value s.width (.inst i) =
      .splat s.width .undefined := by
    intro i
    show (Array.replicate u.func.insts.size (Lanes.splat s.width Scalar.undefined))[i]?.getD _ = _
    rw [Array.getElem?_replicate]
    split <;> rfl
  refine ⟨Array.size_replicate.trans h.size, full_start hfull u.func.insts.size memory,
    ⟨fun k xs hk l => ?_, fun i xs hi l => ?_⟩, fun l k => ?_, fun i hi => ?_, fun i _ => hvalue i⟩
  · have hk : params[k]? = some xs := hk
    by_cases hl : l < s.width
    · have hlane := hparam ⟨l, hl⟩ k
      rw [hk, ← harg] at hlane
      exact hlane ▸ h.runs.sure.arg ⟨l, hl⟩ k
    · have hlen := hfull xs (List.mem_of_getElem? hk)
      rw [Lanes.lane, List.getElem?_eq_none (by omega)]
      exact Scalar.hasTy_undefined _
  · obtain rfl : xs = .splat s.width .undefined := by
      have e : (startMachine s u.func params memory).values[i]?.getD (.splat s.width .undefined) = _ :=
        hvalue i
      rwa [hi] at e
    exact Lanes.hasTy_splat (Scalar.hasTy_undefined _) _ _
  · rw [harg]
    exact hparam l k
  · rcases hi with ⟨c, hc, -⟩ | hi
    · cases hc
    · cases hi

/-- A linearized function runs in all lanes together to its end. -/
theorem exists_run (h : Lowered D markers P K t u) (hw : s.width = W) (hW : 0 < W)
    (hsep : D.Separate start ends) (hlimit : D.func.blocks.size ≤ s.limit) {params : List Lanes}
    (hfull : ∀ xs ∈ params, xs.length = W)
    (hparam : ∀ (l : Fin W) k, (params[k]?.getD (.splat W .undefined)).lane l = D.known.arg l k) :
    ∃ v m', Run.blocks s u.func s.limit none u.func.entry (startMachine s u.func params start) =
        (.ok (v.map (m'.value W)), m') ∧
      (∀ l, K.Holds t.func (t.func.Ran (P l) []) m') ∧
        D.Shares start (fun l => (D.trace l).flatMap D.effectsOf) m'.memory ∧
          ∀ l, ∃ z, (P l).getLast? = some z ∧ t.func.term z = .ret v := by
  have hcourse := h.steady.course ⟨0, hW⟩
  obtain ⟨post, hpost⟩ := List.head?_eq_some_iff.mp hcourse.start
  have hP : ∀ l, P l = [] ++ t.func.entry :: post := fun l => (h.path_eq l ⟨0, hW⟩).trans hpost
  -- no block is passed twice
  have hlength : (P ⟨0, hW⟩).length ≤ s.limit := by
    refine Nat.le_trans ?_ (h.steady.foretold.blocks.trans_le hlimit)
    rw [← List.length_range (n := t.func.blocks.size)]
    refine ((hcourse.nodup h.steady.acyclic).subperm fun b hb => List.mem_range.mpr ?_).length_le
    exact (hcourse.reachable hb).lt h.runs.code.coherent.toClosed
  rw [hpost, List.length_cons] at hlength
  obtain ⟨v, m', e, hm', hs', hv⟩ := h.exists_blocks hw hW hsep hP (h.holds_start hw hfull hparam start)
    (D.passed_start _ ▸ D.shares_start start) hlength
  exact ⟨v, m', e, fun l => hP l ▸ hm', hs', fun l => hP l ▸ hv⟩

/-- What is returned at the end holds in each lane what the lane returns. -/
theorem returned (h : Lowered D markers P K t u) (hm : ∀ l, K.Holds t.func (t.func.Ran (P l) []) m)
    {l : Fin W} {z z' : BlockId} {v v' : Option Value} (hz : z ∈ D.trace l) (hv : D.func.term z = .ret v)
    (hz' : (P l).getLast? = some z') (hv' : t.func.term z' = .ret v') :
    Option.Rel (fun v v' => ∀ x, D.known.Knows l v x → (m.value W v').lane l = x) v v' := by
  obtain ⟨w, hw, hrel⟩ := h.steady.foretold.returns z v hv
  have hcourse := h.steady.course l
  obtain ⟨pre, post, e⟩ := List.append_of_mem ((h.steady.sublist l).subset hz)
  -- control does not go on from the block where the lane leaves the function
  obtain rfl : post = [] := by
    rcases post with - | ⟨c, post⟩
    · rfl
    · have hedge : t.func.Edge z c := hcourse.edge ⟨pre, post, by rw [e]; simp⟩
      rw [Func.Edge, hw] at hedge
      cases hedge
  rw [e, List.getLast?_append, List.getLast?_singleton] at hz'
  obtain rfl : z = z' := Option.some.inj hz'
  obtain rfl : w = v' := Terminator.ret.inj (hw.symm.trans hv')
  cases hrel with
  | none => exact .none
  | some hk =>
    have hexit := h.runs.code.exit z (hcourse.reachable (e ▸ by simp)) _ (by
      rw [hw]
      exact List.mem_singleton_self _)
    exact .some fun x hx => (e ▸ hm l).lane_eq (hexit.within_ran (e ▸ hcourse)) (hk l x hx)

/-- At the end the predicate of a block is true in just the lanes that come by it. -/
theorem exists_predicate (h : Lowered D markers P K t u) (hm : ∀ l, K.Holds t.func (t.func.Ran (P l) []) m)
    (hb : D.func.Reachable b) :
    ∃ p, u.info.predicate? b = some p ∧ ∀ l : Fin W, m.IsTrueIn W p l ↔ b ∈ D.trace l := by
  obtain ⟨p, hp⟩ := Option.isSome_iff_exists.mp (h.steady.marked b hb)
  have hmask := h.steady.foretold.blockMask b p hp
  refine ⟨p, by rw [h.info]; exact (h.steady.foretold.predicate b).trans hp, fun l => ?_⟩
  obtain ⟨q, hq, hqb⟩ := hmask.knows l
  unfold Machine.IsTrueIn
  by_cases hran : p.Within (t.func.Ran (P l) [])
  · rw [(hm l).lane_eq hran hq, ← hqb]
    cases q <;> simp [Scalar.isTrue]
  · -- the mask is not computed, since no lane comes to the block
    have hnot : b ∉ P l := by
      intro hbl
      obtain ⟨pre, post, e⟩ := List.append_of_mem hbl
      refine hran (Value.Within.mono (hmask.atEnd.within_ran (e ▸ h.steady.course l)) fun j hj => ?_)
      obtain ⟨c, hc, hjc⟩ := hj.resolve_right List.not_mem_nil
      refine .inl ⟨c, ?_, hjc⟩
      rw [e]
      rcases List.mem_append.mp hc with hc | hc
      · exact List.mem_append_left _ hc
      · exact List.mem_append_right _ (List.mem_singleton.mp hc ▸ List.mem_cons_self)
    cases p with
    | const c | param k => exact absurd trivial hran
    | inst i =>
      rw [(hm l).fresh i hran, Lanes.lane_splat _ l.isLt]
      exact iff_of_false Bool.false_ne_true fun hbl => hnot ((h.steady.sublist l).subset hbl)

end Stage.Lowered

end Lockstep
