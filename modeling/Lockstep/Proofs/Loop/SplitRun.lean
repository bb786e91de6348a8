import Lockstep.Proofs.Eval.Along
import Lockstep.Proofs.Loop.CountedRun
import Lockstep.Proofs.Loop.SplitOff
import Lockstep.Proofs.Loop.Turns

/-!
# Running a split loop

A single-lane run of a function and one of the function with a remainder split off go along with
each other (`Phase`): outside the loop, in the main loop, and then in the remainder, which starts
with the values with which the main loop stopped. The main loop does not go further than the loop
does, so that what is left for the remainder is what the loop would still do. The header of the
loop is passed once more than before, when the main loop stops; it must not store or call.
-/

namespace Lockstep

open Run

/-! ## Blocks without code -/

theorem Terminator.map_congr {t : Terminator} {τ τ' : BlockId → BlockId}
    (h : ∀ n ∈ t.targets, τ n = τ' n) (v : Value → Value) : t.map τ v = t.map τ' v := by
  cases t with
  | unreachable | ret _ => rfl
  | br target => exact congrArg _ (h target (List.mem_singleton_self _))
  | brIf cond onTrue onFalse =>
    show Terminator.brIf _ (τ onTrue) (τ onFalse) = _
    rw [h onTrue List.mem_cons_self, h onFalse (List.mem_cons_of_mem _ (List.mem_singleton_self _))]
    rfl

/-! ## The main loop's part of the turns -/

namespace CountedLoop

/-- The end of the main loop, for a loop that starts with `n0` and ends with `nb`. -/
def mainEnd (c : CountedLoop) (w : Nat) (width n0 nb : Int64) : Int64 :=
  MainBound.mainEnd c.stayOp w n0 nb (Word.signExtend c.step w) (Word.signExtend width w)

/-- Whether the main loop goes on after `i` turns. -/
def mainStays (c : CountedLoop) (w : Nat) (width n0 nb : Int64) (i : Nat) : Option Bool :=
  c.stayOp.onInts w (c.nth w n0 i) (c.mainEnd w width n0 nb)

/-- The loop makes `t` turns, and the main loop `k` of them. -/
structure SharesTurns (c : CountedLoop) (w : Nat) (width : Int64) (P : Int64 → Int64 → Prop)
    (n0 nb : Int64) (t k : Nat) : Prop where
  passed : Passed c w P n0 nb t
  last : c.stayOp.onInts w (c.nth w n0 t) nb = some false
  le : k ≤ t
  main : ∀ i < k, c.mainStays w width n0 nb i = some true
  last_main : c.mainStays w width n0 nb k = some false

end CountedLoop

/-! ## Along with a split loop -/

/-- A function, the function with a remainder split off from a loop, and a run of each. -/
structure SplitRun (f f1 g g' : Func) (l : Loop) (c : CountedLoop) (w : Nat) (width : Int64)
    (ρ : InstId → InstId) (β : BlockId → BlockId) (pre : BlockId) (j : InstId) (s s' : Setup)
    (start : Machine) (P : Int64 → Int64 → Prop) : Prop where
  steps : SplitSteps f l c
    (c.mainBoundCode c.shape.preheader (.int w) (.int w) (.int w) width f.insts.size)
    (c.mainTest (f.insts.size + 11)) ρ β pre f1 g g'
  counts : Counts f l c w j
  quiet : ∀ i ∈ f.nonPhis l.header, (f.inst i).op.isQuiet = true
  alike : s.Alike s'
  lane : SingleLane s f start
  increments : Counts.Increments s f c j start P

namespace SplitRun

variable {f f1 g g' : Func} {l : Loop} {c : CountedLoop} {w : Nat} {width : Int64}
  {ρ : InstId → InstId} {β : BlockId → BlockId} {pre : BlockId} {j : InstId} {s s' : Setup}
  {start : Machine} {P : Int64 → Int64 → Prop} {D : BlockId → Prop} {pred pred' : Option BlockId}
  {b n p : BlockId} {m m' m2 m3 : Machine} {r : BlockId ⊕ Option Lanes} {n0 nb : Int64} {v k : Nat}

theorem block_out (X : SplitRun f f1 g g' l c w width ρ β pre j s s' start P)
    (hb : b ∉ l.blocks) : β b = b :=
  X.steps.added.block_out b hb

/-- Control goes into the loop from the preheader only. -/
theorem not_mem_of_target (X : SplitRun f f1 g g' l c w width ρ β pre j s s' start P)
    (hr : f.Reachable b) (hb : b ∉ l.blocks) (hne : b ≠ c.shape.preheader)
    (hn : n ∈ (f.term b).targets) : n ∉ l.blocks := by
  intro hnl
  have hf := X.counts.wellFormed.toClosed
  have hl := X.steps.mem
  have hs := X.counts.counted.singleExit
  obtain rfl := LoopForest.eq_header_of_entering hf hl hs.reducible hr hb hnl hn
  rcases hs.eq_of_entering hf hl hr hn with ⟨e, -⟩ | ⟨-, hin⟩
  · exact hne e
  · exact hb hin

/-- Outside the loop and in the remainder, blocks do what they did. -/
theorem exists_copy (X : SplitRun f f1 g g' l c w width ρ β pre j s s' start P)
    (hne : b ≠ c.shape.preheader) (h : Along f g' ρ D pred b m pred' m')
    (e : block s f pred b m = (.ok r, m2)) : ∃ m2',
      block s' g' pred' (β b) m' = (.ok (r.map β id), m2') ∧
      m2.Agrees f g' ρ (f.DefinedIn fun d => D d ∨ d = b) m2' ∧
      ∀ n, r = .inl n → Along f g' ρ (fun d => D d ∨ d = b) (some b) n m2 (some (β b)) m2' := by
  have S := X.steps
  have hf := X.counts.wellFormed
  have hr := h.reachable
  have hlt := hr.lt hf.toClosed
  have hcopy : CopiedBlock f g' ρ b (β b) [] ∧ g'.term (β b) = (f.term b).map β (·.rename ρ) := by
    by_cases hb : b ∈ l.blocks
    · exact ⟨S.copies hb, S.term_copy hb⟩
    · have hout := S.outside hlt hb
      rw [if_neg hne] at hout
      rw [X.block_out hb, S.term_outside hlt hb]
      exact ⟨hout, Terminator.map_congr (fun n hn => (X.block_out
        (X.not_mem_of_target hr hb hne hn)).symm) _⟩
  obtain ⟨m2', e', hm2, -⟩ :=
    h.exists_block X.alike X.lane.width S.copied hf hcopy.1 hcopy.2 e
  refine ⟨m2', e', hm2, ?_⟩
  rintro n rfl
  have hn := target_of_block e
  refine h.next hf hm2 hn fun phi hphi v hv => ?_
  by_cases hnl : n ∈ l.blocks
  · refine S.incoming_copy hnl hphi ?_ hv
    by_contra hb
    exact X.not_mem_of_target hr hb hne hn hnl
  · exact S.incoming_outside ((hr.step hn).lt hf.toClosed) hnl hphi hr hn hv

/-! ### The preheader -/

/-- The preheader computes the end of the main loop, if control goes on into the loop. -/
theorem exists_preheader (X : SplitRun f f1 g g' l c w width ρ β pre j s s' start P)
    (h : Along f g' ρ D pred c.shape.preheader m pred' m')
    (ha : Arrives s f start pred c.shape.preheader m)
    (e : block s f pred c.shape.preheader m = (.ok (.inl l.header), m2))
    (enext : block s f (some c.shape.preheader) l.header m2 = (.ok (.inl n), m3)) :
    ∃ m2' n0 nb, block s' g' pred' c.shape.preheader m' = (.ok (.inl l.header), m2') ∧
      AtHeader f c w P n0 nb 0 c.shape.preheader m2 ∧
      Along f g' id (fun d => (D d ∨ d = c.shape.preheader) ∧ d ∉ l.blocks)
        (some c.shape.preheader) l.header m2 (some c.shape.preheader) m2' ∧
      m2'.value 1 (.inst (f.insts.size + 11)) = [.int (c.mainEnd w width n0 nb)] := by
  have S := X.steps
  have hf := X.counts.wellFormed
  have hl := S.mem
  have H := X.counts.counted
  have hs := X.alike
  have hw := X.lane.width
  have hw' : s'.width = 1 := hs.width.trans hw
  obtain ⟨hpre, hrpre, hedge⟩ := H.singleExit.preheader_mem hf.toClosed hl
  have hplt := hrpre.lt hf.toClosed
  obtain ⟨n0, nb, hn0, hat⟩ := X.counts.exists_atHeader (P := P) X.lane (ha.next e) enext
  -- the operations that were there before
  have hout := S.outside hplt hpre
  rw [if_pos rfl] at hout
  obtain ⟨m1', m2', h1', h2', hm2, -, -⟩ := h.exists_ops hs hw S.copied hf hout e
  have hp : f.Path (fun d => D d ∨ d = c.shape.preheader) f.entry c.shape.preheader :=
    h.path.mono fun _ => .inl
  obtain ⟨hkeep, hkeep'⟩ := S.rename_start
  have hstart : m2'.value 1 c.start = [.int n0] := by
    rw [← hkeep, hm2.value (H.within_start hf hl hp (.inr rfl)), hn0]
  have hbound : m2'.value 1 c.bound = [.int nb] := by
    rw [← hkeep', hm2.value (H.within_bound hf hl (hp.tail (.inr rfl) hedge)), hat.bound]
  -- the operations that compute the end of the main loop
  have hsize : f.insts.size + 12 ≤ m2'.values.size := by
    rw [hm2.size', S.test.size_insts]
    exact Nat.le_add_right_of_le S.size_le
  have hdefines := hf.defines_incoming (Func.mem_incoming H.start)
  have hty : g'.typeOf c.start = .int w := by
    have e := S.kept.typeOf hdefines
    rw [Value.rename_id] at e
    rw [e, H.typeOf_incoming hf X.counts.wellTyped hl H.start, X.counts.ty]
  obtain ⟨hi, hhi⟩ := H.exists_onInts w n0 nb
  obtain ⟨m3', xs, h3', hcomp, hlen, hend⟩ :=
    CountedLoop.exists_run_mainBoundCode hw' (fun _ _ => S.inst_mainBound) hsize hty hdefines.within
      (H.defines_bound hf hl).within hstart hbound hhi
  refine ⟨m3', n0, nb, block_eq_ok_iff.mpr ⟨m1', h1', ?_, ?_⟩, hat, ?_, hend⟩
  · rw [hout.nonPhis]
    exact forM_append_eq_ok.mpr ⟨m2', h2', h3'⟩
  · rw [S.term_outside hplt hpre, H.singleExit.entering_eq.2]
    rfl
  -- outside the loop nothing has got another name
  have hagree : m2.Agrees f g' id
      (f.DefinedIn fun d => (D d ∨ d = c.shape.preheader) ∧ d ∉ l.blocks) m3' := by
    refine ((hm2.mono fun i hi => hi.mono fun _ => And.left).congr fun i hi => ?_).right
      hcomp.size hcomp.params hcomp.memory hcomp.callLog fun i hi => hcomp.old i fun k _ => ?_
    · obtain ⟨b, hb, hi⟩ := hi
      exact (S.rename_of_mem hb.2 hi).symm
    · obtain ⟨b, -, hi⟩ := hi
      exact Nat.ne_of_lt (Nat.lt_add_right k (hf.body_lt b i hi))
  have hp' : f.Path (fun d => (D d ∨ d = c.shape.preheader) ∧ d ∉ l.blocks) f.entry
      c.shape.preheader := H.path_preheader hf hl hp
  refine ⟨hagree, hp'.tail ⟨.inr rfl, hpre⟩ hedge,
    exists_incoming_copy hf (hrpre.step hedge) ?_ ?_ hagree 1⟩
  · rintro _ ⟨⟩
    exact ⟨⟨.inr rfl, hpre⟩, hp'⟩
  · rintro phi hphi _ v ⟨⟩ hv
    show g'.incomingValue? phi c.shape.preheader = _
    rw [S.incoming_inside X.counts.header_mem hphi, hv, Value.rename_id]

/-! ### The main loop -/

/-- In the main loop, blocks behind the header do what they did. -/
theorem exists_body (X : SplitRun f f1 g g' l c w width ρ β pre j s s' start P)
    (hb : b ∈ l.blocks) (hne : b ≠ l.header) (h : Along f g' id D pred b m pred' m')
    (e : block s f pred b m = (.ok (.inl n), m2)) : ∃ m2',
      block s' g' pred' b m' = (.ok (.inl n), m2') ∧
      (n ∈ l.blocks → Along f g' id (fun d => D d ∨ d = b) (some b) n m2 (some b) m2') ∧
      ∀ i ≥ f.insts.size, m2'.value 1 (.inst i) = m'.value 1 (.inst i) := by
  have S := X.steps
  have hf := X.counts.wellFormed
  have hin := S.inside hb
  rw [if_neg hne] at hin
  have hterm : g'.term b = (f.term b).map id (·.rename id) := by
    rw [S.term_inside hb hne, Terminator.map_rename_id]
  obtain ⟨m2', e', hm2, hkept⟩ := h.exists_block X.alike X.lane.width S.kept hf hin hterm e
  refine ⟨m2', e', fun hn => h.next hf hm2 (target_of_block e) fun phi hphi v hv => ?_,
    fun i hi => hkept _ fun k hk e => ?_⟩
  · show g'.incomingValue? phi b = _
    rw [S.incoming_inside hn hphi, hv, Value.rename_id]
  · cases e
    exact Nat.not_lt.mpr hi (hf.body_lt b _ hk)

/-- The header of the main loop does what it did, and tests for the end of the main loop. -/
theorem exists_header (X : SplitRun f f1 g g' l c w width ρ β pre j s s' start P)
    (h : Along f g' id D (some p) l.header m pred' m') (ha : Arrives s f start (some p) l.header m)
    (hat : AtHeader f c w P n0 nb k p m)
    (hend : m'.value 1 (.inst (f.insts.size + 11)) = [.int (c.mainEnd w width n0 nb)])
    (e : block s f (some p) l.header m = (.ok (.inl n), m2)) : ∃ stay m2',
      c.mainStays w width n0 nb k = some stay ∧
      block s' g' pred' l.header m' = (.ok (.inl (if stay then c.shape.continueTarget else pre)),
        m2'.setValue g.insts.size [.bool stay]) ∧
      m2.Agrees f g' id (f.DefinedIn fun d => D d ∨ d = l.header) m2' ∧
      (m2'.setValue g.insts.size [.bool stay]).value 1 (.inst (f.insts.size + 11)) =
        [.int (c.mainEnd w width n0 nb)] := by
  have S := X.steps
  have hf := X.counts.wellFormed
  have hs := X.alike
  have hw := X.lane.width
  have hw' : s'.width = 1 := hs.width.trans hw
  have hin := S.inside X.counts.header_mem
  rw [if_pos rfl] at hin
  obtain ⟨m1', m2', h1', h2', hm2, -, hkept⟩ := h.exists_ops hs hw S.kept hf hin e
  have hend' : m2'.value 1 (.inst (f.insts.size + 11)) = [.int (c.mainEnd w width n0 nb)] := by
    rw [hkept _ fun i hi e => ?_, hend]
    have e : f.insts.size + 11 = i := Value.inst.inj e
    exact Nat.not_lt.mpr (Nat.le_add_right _ 11) (e ▸ hf.body_lt _ _ hi)
  have hiv : m2'.value 1 (.inst c.iv) = [.int (c.nth w n0 k)] := by
    obtain ⟨hiv, -⟩ := hat.step X.counts X.lane X.increments ha e
    have hmem := Func.mem_body_of_mem_phis X.counts.iv_mem
    have e := hm2.value (v := .inst c.iv) ⟨l.header, .inr rfl, hmem⟩ 1
    rwa [hiv] at e
  obtain ⟨stay, hstay⟩ : ∃ stay, c.mainStays w width n0 nb k = some stay :=
    X.counts.counted.exists_onInts w _ _
  have htest : g'.inst g.insts.size = CountedLoop.plainInstr l.header (.cmp c.stayOp)
      [.inst c.iv, .inst (f.insts.size + 11)] .bool := S.inst_test
  have hty : g'.typeOf (.inst c.iv) = .int w := by
    have e := S.kept.typeOf (v := .inst c.iv)
      (hf.body_lt _ _ (Func.mem_body_of_mem_phis X.counts.iv_mem))
    rw [Value.rename_id] at e
    exact e.trans X.counts.ty
  have h3' := instr_cmp hw' htest hty hiv hend' (CmpOp.eval_ints hstay)
  have hlt : g.insts.size < m2'.values.size := by
    rw [hm2.size', S.test.size_insts]
    exact Nat.lt_succ_self _
  have hne : f.insts.size + 11 ≠ g.insts.size := Nat.ne_of_lt S.size_le
  refine ⟨stay, m2', hstay, block_eq_ok_iff.mpr ⟨m1', h1', ?_, ?_⟩, hm2, ?_⟩
  · rw [hin.nonPhis]
    exact forM_append_eq_ok.mpr ⟨m2', h2', bind_run_eq h3'⟩
  · rw [S.term_header]
    unfold wayOut
    dsimp only
    rw [hw', Machine.value_setValue_self _ hlt]
    rfl
  · rw [Machine.value_setValue_of_ne _ fun e => hne (Value.inst.inj e), hend']

/-- The loop goes on as long as the main loop does. -/
theorem stays_of_mainStays (X : SplitRun f f1 g g' l c w width ρ β pre j s s' start P)
    (h0 : Word.Normal w n0) (hb : Word.Normal w nb) (h : c.mainStays w width n0 nb k = some true) :
    c.stayOp.onInts w (c.nth w n0 k) nb = some true := by
  have hstep : Word.signExtend c.step w = c.step := X.counts.step
  unfold CountedLoop.mainStays CountedLoop.mainEnd at h
  rw [hstep] at h
  exact MainBound.lt_bound_of_lt_mainEnd X.counts.counted.stayOp h0 hb X.counts.step
    X.counts.counted.step_pos h

/-- When the main loop stops, control goes to the copy of the header, whose phis take the values that
the header of the main loop has. -/
theorem exists_handOver (X : SplitRun f f1 g g' l c w width ρ β pre j s s' start P)
    (h : Along f g' id D (some p) l.header m pred' m')
    (e : block s f (some p) l.header m = (.ok (.inl n), m2)) {m2' : Machine} {x : Lanes}
    (hm : m2.Agrees f g' id (f.DefinedIn fun d => D d ∨ d = l.header) m2')
    (e' : block s' g' pred' l.header m' = (.ok (.inl pre), m2'.setValue g.insts.size x)) : ∃ m4',
      block s' g' (some l.header) pre (m2'.setValue g.insts.size x) =
        (.ok (.inl (β l.header)), m4') ∧
      Along f g' ρ (fun d => D d ∧ d ∉ l.blocks) (some p) l.header m (some pre) m4' ∧
      m4'.trace = m'.trace ++ [l.header] ++ [pre] := by
  have S := X.steps
  have hf := X.counts.wellFormed
  have hheader := X.counts.header_mem
  obtain ⟨m4', hm4⟩ : ∃ m4' : Machine, m4' = { m2'.setValue g.insts.size x with
    path := pre :: (m2'.setValue g.insts.size x).path } := ⟨_, rfl⟩
  have epre : block s' g' (some l.header) pre (m2'.setValue g.insts.size x) =
      (.ok (.inl (β l.header)), m4') :=
    hm4 ▸ block_of_empty S.pre_empty.1 S.pre_empty.2 S.term_pre
  have hvalue : ∀ u : Value, u ≠ .inst g.insts.size → m4'.value 1 u = m2'.value 1 u := fun u hu => by
    rw [hm4, Machine.value_visit, Machine.value_setValue_of_ne _ hu]
  refine ⟨m4', epre, ⟨?_, ?_, fun phi hphi v hv => ?_⟩, ?_⟩
  · -- outside the loop, nothing has changed on either side
    have hnames : m2.Agrees f g' ρ (f.DefinedIn fun d => D d ∧ d ∉ l.blocks) m2' :=
      (hm.mono fun i hi => hi.mono fun _ hd => .inl hd.1).congr fun i hi => by
        obtain ⟨b, hb, hi⟩ := hi
        exact S.rename_of_mem hb.2 hi
    have hright : m2.Agrees f g' ρ (f.DefinedIn fun d => D d ∧ d ∉ l.blocks) m4' := by
      rw [hm4]
      refine hnames.right (Machine.size_setValue _ _ _) rfl rfl rfl fun i hi => ?_
      show (m2'.setValue g.insts.size x).values[ρ i]? = _
      rw [Machine.getElem?_setValue, if_neg fun e => ?_]
      exact Nat.ne_of_gt (S.rename_lt (hnames.within i hi)) e.1
    obtain ⟨hmem, hcalls⟩ := effects_block e X.quiet
    refine hright.left (size_block e).symm (params_block e).symm hmem.symm hcalls.symm
      fun i hi width => ?_
    obtain ⟨b, hb, hi⟩ := hi
    refine (value_block_of_ne e (fun k hk ek => ?_) width).symm
    cases ek
    exact hb.2 (hf.eq_of_mem_body hk hi ▸ hheader)
  · obtain ⟨hpre, hp⟩ := X.counts.counted.path_to_preheader hf S.mem h.path
    obtain ⟨hout, -, hedge⟩ := X.counts.counted.singleExit.preheader_mem hf.toClosed S.mem
    exact hp.tail ⟨hpre, hout⟩ hedge
  · refine ⟨.inst phi, S.incoming_pre hphi, ?_⟩
    have hbody := Func.mem_body_of_mem_phis hphi
    have hlt := hf.body_lt _ phi hbody
    obtain ⟨m1, h1, h2, -⟩ := block_eq_ok_iff.mp e
    obtain ⟨u, hu, hval⟩ := exists_value_of_phis h1
      ((hf.nodup _).sublist (List.takeWhile_sublist _)) hphi (h.agrees.size.symm ▸ hlt)
    cases hu.symm.trans hv
    rw [hvalue _ fun e => Nat.ne_of_lt (S.lt_size hlt) (Value.inst.inj e)]
    have hagree := hm.value (v := .inst phi) ⟨l.header, .inr rfl, hbody⟩ 1
    rw [Value.rename_id] at hagree
    rw [hagree, value_instrs_of_ne h2 (v := .inst phi) fun k hk e => ?_]
    · rw [X.lane.width] at hval
      exact hval.trans (m.value_visit _ 1 v)
    · cases e
      exact S.not_mem_phis hk hphi
  · rw [trace_block epre, trace_block e']

end SplitRun

/-! ## Phases -/

/-- The copy of a loop, as a remainder. -/
def Loop.remainder (l : Loop) (β : BlockId → BlockId) (pre : BlockId) : RemainderLoop :=
  { preheader := pre, header := β l.header, blocks := l.blocks.map β }

/-- The main loop makes `k` of `t` turns. -/
def CountedLoop.MainPart (c : CountedLoop) (w : Nat) (width : Int64) (P : Int64 → Int64 → Prop)
    (t k : Nat) : Prop :=
  ∃ n0 nb, c.SharesTurns w width P n0 nb t k

/-- Control comes to a block in a run, and to its counterpart in the run with the split loop: outside
the loop, in the main loop, or in the remainder. -/
inductive Phase (f g' : Func) (l : Loop) (c : CountedLoop) (w : Nat) (width : Int64)
    (ρ : InstId → InstId) (β : BlockId → BlockId) (pre : BlockId) (j : InstId)
    (P : Int64 → Int64 → Prop) :
    Option BlockId → BlockId → Machine → Option BlockId → BlockId → Machine → Prop
  | outside {D : BlockId → Prop} {pred pred' : Option BlockId} {b : BlockId} {m m' : Machine}
      (hb : b ∉ l.blocks) (h : Along f g' ρ D pred b m pred' m')
      (ht : Shares (c.MainPart w width P) l (l.remainder β pre) m.trace m'.trace) :
      Phase f g' l c w width ρ β pre j P pred b m pred' b m'
  | main {D : BlockId → Prop} {pred pred' : Option BlockId} {b : BlockId} {m m' : Machine}
      {n0 nb : Int64} {v : Nat} (h : Along f g' id D pred b m pred' m')
      (hl : InLoop f l c w j P n0 nb v pred b m)
      (hend : m'.value 1 (.inst (f.insts.size + 11)) = [.int (c.mainEnd w width n0 nb)])
      (hk : ∀ i < v, c.mainStays w width n0 nb i = some true)
      (ht : InMain (c.MainPart w width P) l (l.remainder β pre) v m.trace m'.trace) :
      Phase f g' l c w width ρ β pre j P pred b m pred' b m'
  | remainder {D : BlockId → Prop} {pred pred' : Option BlockId} {b : BlockId} {m m' : Machine}
      {n0 nb : Int64} {v k : Nat} (h : Along f g' ρ D pred b m pred' m')
      (hl : InLoop f l c w j P n0 nb v pred b m)
      (hk : ∀ i < k, c.mainStays w width n0 nb i = some true)
      (hlast : c.mainStays w width n0 nb k = some false)
      (ht : InRemainder (c.MainPart w width P) l (l.remainder β pre) k v m.trace m'.trace) :
      Phase f g' l c w width ρ β pre j P pred b m pred' (β b) m'

namespace Phase

variable {f f1 g g' : Func} {l : Loop} {c : CountedLoop} {w : Nat} {width : Int64}
  {ρ : InstId → InstId} {β : BlockId → BlockId} {pre : BlockId} {j : InstId} {s s' : Setup}
  {start : Machine} {P : Int64 → Int64 → Prop} {D : BlockId → Prop} {pred pred' : Option BlockId}
  {b b' n p : BlockId} {m m' m1 m2 m3 : Machine} {n0 nb : Int64} {v k : Nat}

theorem apart (X : SplitRun f f1 g g' l c w width ρ β pre j s s' start P) :
    Apart l (l.remainder β pre) := by
  have S := X.steps
  have hheader := X.counts.header_mem
  refine ⟨hheader, List.mem_map_of_mem hheader, fun b hb hb' => ?_, fun h => ?_, fun h => ?_⟩
  · obtain ⟨d, hd, rfl⟩ := List.mem_map.mp hb'
    exact S.copy_ne hd (S.lt_of_mem hb) rfl
  · have h : pre ∈ l.blocks := h
    rw [S.pre_eq] at h
    exact Nat.lt_irrefl _ (S.lt_of_mem h)
  · obtain ⟨d, hd, e⟩ := List.mem_map.mp h
    have e : β d = pre := e
    exact Nat.ne_of_gt (S.lt_copy hd) (e.trans S.pre_eq)

/-- A block of the function is no block of the remainder. -/
theorem not_mem_remainder (X : SplitRun f f1 g g' l c w width ρ β pre j s s' start P)
    (hr : f.Reachable b) : b ∉ (l.remainder β pre).blocks := by
  intro hb
  obtain ⟨d, hd, rfl⟩ := List.mem_map.mp hb
  exact X.steps.copy_ne hd (hr.lt X.counts.wellFormed.toClosed) rfl

/-- A step in the remainder. -/
theorem step_remainder (X : SplitRun f f1 g g' l c w width ρ β pre j s s' start P)
    (h : Along f g' ρ D pred b m pred' m') (hl : InLoop f l c w j P n0 nb v pred b m)
    (hk : ∀ i < k, c.mainStays w width n0 nb i = some true)
    (hlast : c.mainStays w width n0 nb k = some false)
    (ht : InRemainder (c.MainPart w width P) l (l.remainder β pre) k v m.trace m'.trace)
    (ha : Arrives s f start pred b m) (e : block s f pred b m = (.ok (.inl n), m2)) : ∃ m2',
      block s' g' pred' (β b) m' = (.ok (.inl (β n)), m2') ∧
      Phase f g' l c w width ρ β pre j P (some b) n m2 (some (β b)) (β n) m2' := by
  have S := X.steps
  have hb := hl.mem X.counts
  obtain ⟨m2', e', -, hnext⟩ := X.exists_copy (fun e => S.preheader_not_mem (e ▸ hb)) h e
  refine ⟨m2', e', ?_⟩
  have htrace := trace_block e
  have htrace' := trace_block e'
  rcases hl.step X.counts X.lane X.increments ha e with ⟨hn, hl'⟩ | ⟨rfl, rfl, hpassed, hstop⟩
  · refine .remainder (hnext n rfl) hl' hk hlast ?_
    rw [htrace, htrace']
    refine ht.visit hb (List.mem_map_of_mem hb) ⟨fun e => ?_, fun e => congrArg β e⟩
    exact S.copy_injective (S.lt_of_mem hb) S.header_lt e
  · rw [X.block_out S.exit_not_mem]
    refine .outside S.exit_not_mem (hnext _ rfl) ?_
    rw [htrace, htrace']
    exact ht.leave (apart X) ⟨n0, nb, hpassed, hstop, ht.le, hk, hlast⟩

/-- A step outside the loop, which may go to the header of the main loop. -/
theorem step_outside (X : SplitRun f f1 g g' l c w width ρ β pre j s s' start P) (hb : b ∉ l.blocks)
    (h : Along f g' ρ D pred b m pred' m')
    (ht : Shares (c.MainPart w width P) l (l.remainder β pre) m.trace m'.trace)
    (ha : Arrives s f start pred b m) (e : block s f pred b m = (.ok (.inl n), m2))
    (enext : n = l.header → ∃ r m3, block s f (some b) n m2 = (.ok (.inl r), m3)) : ∃ m2',
      block s' g' pred' b m' = (.ok (.inl n), m2') ∧
      Phase f g' l c w width ρ β pre j P (some b) n m2 (some b) n m2' := by
  have htrace := trace_block e
  have hrem := not_mem_remainder X h.reachable
  by_cases hpre : b = c.shape.preheader
  · subst hpre
    have hn := target_of_block e
    rw [X.counts.counted.singleExit.entering_eq.2] at hn
    obtain rfl := List.mem_singleton.mp hn
    obtain ⟨r, m3, enext⟩ := enext rfl
    obtain ⟨m2', n0, nb, e', hat, h', hend⟩ := X.exists_preheader h ha e enext
    refine ⟨m2', e', .main h' (.header hat) hend nofun ?_⟩
    rw [htrace, trace_block e']
    exact ht.enter hb hrem
  · obtain ⟨m2', e', -, hnext⟩ := X.exists_copy hpre h e
    have hn := X.not_mem_of_target h.reachable hb hpre (target_of_block e)
    have e' : block s' g' pred' (β b) m' = (.ok (.inl (β n)), m2') := e'
    have hnext := hnext n rfl
    rw [X.block_out hb] at e' hnext
    rw [X.block_out hn] at e'
    refine ⟨m2', e', .outside hn hnext ?_⟩
    rw [htrace, trace_block e']
    exact ht.visit hb hrem

/-- A step from the header of the main loop as long as the main loop goes on. -/
theorem step_stay (X : SplitRun f f1 g g' l c w width ρ β pre j s s' start P)
    (h : Along f g' id D (some p) l.header m pred' m') (hat : AtHeader f c w P n0 nb v p m)
    (hk : ∀ i < v, c.mainStays w width n0 nb i = some true)
    (hstay : c.mainStays w width n0 nb v = some true)
    (ht : InMain (c.MainPart w width P) l (l.remainder β pre) v m.trace m'.trace)
    (ha : Arrives s f start (some p) l.header m)
    (e : block s f (some p) l.header m = (.ok (.inl n), m2))
    (e' : block s' g' pred' l.header m' =
      (.ok (.inl c.shape.continueTarget), m3.setValue g.insts.size [.bool true]))
    (hm3 : m2.Agrees f g' id (f.DefinedIn fun d => D d ∨ d = l.header) m3)
    (hend : (m3.setValue g.insts.size [.bool true]).value 1 (.inst (f.insts.size + 11)) =
      [.int (c.mainEnd w width n0 nb)]) : n = c.shape.continueTarget ∧
      Phase f g' l c w width ρ β pre j P (some l.header) n m2 (some l.header) n
        (m3.setValue g.insts.size [.bool true]) := by
  have S := X.steps
  have hgo := X.stays_of_mainStays hat.passed.start hat.passed.bound hstay
  have hstep := (InLoop.header hat).step X.counts X.lane X.increments ha e
  rcases hstep with ⟨hn, hl⟩ | ⟨-, -, -, hstop⟩
  swap
  · cases hgo.symm.trans hstop
  obtain ⟨-, stay, hstay', hcont, -⟩ := hat.step X.counts X.lane X.increments ha e
  cases hgo.symm.trans hstay'
  rw [if_pos rfl] at hcont hl
  refine ⟨hcont, ?_⟩
  have hagrees := hm3.setValue_right (k := g.insts.size) (fun i hi => Nat.ne_of_lt
    (S.lt_size (hm3.within i hi))) [.bool true]
  refine .main (h.next X.counts.wellFormed hagrees (target_of_block e) fun phi hphi u hu => ?_) hl
    hend ?_ ?_
  · show g'.incomingValue? phi l.header = _
    rw [S.incoming_inside hn hphi, hu, Value.rename_id]
  · intro i hi
    rcases Nat.lt_succ_iff_lt_or_eq.mp hi with hi | rfl
    · exact hk i hi
    · exact hstay
  · rw [trace_block e, trace_block e']
    have ht := ht.visit X.counts.header_mem
    rwa [if_pos rfl] at ht

/-- A step in the main loop, behind the header. -/
theorem step_body (X : SplitRun f f1 g g' l c w width ρ β pre j s s' start P)
    (h : Along f g' id D pred b m pred' m') (hl : InLoop f l c w j P n0 nb v pred b m)
    (hmem : b ∈ l.blocks) (hne : b ≠ l.header)
    (hend : m'.value 1 (.inst (f.insts.size + 11)) = [.int (c.mainEnd w width n0 nb)])
    (hk : ∀ i < v, c.mainStays w width n0 nb i = some true)
    (ht : InMain (c.MainPart w width P) l (l.remainder β pre) v m.trace m'.trace)
    (ha : Arrives s f start pred b m) (e : block s f pred b m = (.ok (.inl n), m2)) : ∃ m2',
      block s' g' pred' b m' = (.ok (.inl n), m2') ∧
      Phase f g' l c w width ρ β pre j P (some b) n m2 (some b) n m2' := by
  obtain ⟨m2', e', hnext, hkept⟩ := X.exists_body hmem hne h e
  rcases hl.step X.counts X.lane X.increments ha e with ⟨hn, hl⟩ | ⟨hheader, -⟩
  swap
  · exact absurd hheader hne
  rw [if_neg hne] at hl
  refine ⟨m2', e', .main (hnext hn) hl ?_ hk ?_⟩
  · rw [hkept _ (Nat.le_add_right _ _), hend]
  · rw [trace_block e, trace_block e']
    have ht := ht.visit hmem
    rwa [if_neg hne] at ht

/-- A step takes no more than three steps with the split loop. -/
theorem step (X : SplitRun f f1 g g' l c w width ρ β pre j s s' start P)
    (h : Phase f g' l c w width ρ β pre j P pred b m pred' b' m')
    (ha : Arrives s f start pred b m) (e : block s f pred b m = (.ok (.inl n), m2))
    (enext : n = l.header → ∃ r m3, block s f (some b) n m2 = (.ok (.inl r), m3)) :
    ∃ i q' n' m2', 0 < i ∧ i ≤ 3 ∧ Passes s' g' i pred' b' m' q' n' m2' ∧
      Phase f g' l c w width ρ β pre j P (some b) n m2 q' n' m2' := by
  cases h with
  | outside hb h ht =>
    obtain ⟨m2', e', h'⟩ := step_outside X hb h ht ha e enext
    exact ⟨1, _, _, m2', Nat.one_pos, by omega, .step e' (.refl _ _ _), h'⟩
  | main h hl hend hk ht =>
    cases hl with
    | header hat =>
      obtain ⟨stay, m2', hstay, e', hm2, hend'⟩ := X.exists_header h ha hat hend e
      cases stay with
      | true =>
        rw [if_pos rfl] at e'
        obtain ⟨rfl, h'⟩ := step_stay X h hat hk hstay ht ha e e' hm2 hend'
        exact ⟨1, _, _, _, Nat.one_pos, by omega, .step e' (.refl _ _ _), h'⟩
      | false =>
        -- the new preheader and the copy of the header are passed as well
        rw [if_neg Bool.false_ne_true] at e'
        obtain ⟨m4', epre, h', htrace'⟩ := X.exists_handOver h e hm2 e'
        have ht := ht.leave
        rw [show (l.remainder β pre).preheader = pre from rfl, ← htrace'] at ht
        obtain ⟨m5', e5, h5⟩ := step_remainder X h' (.header hat) hk hstay ht ha e
        exact ⟨3, _, _, m5', by omega, by omega, .step e' (.step epre (.step e5 (.refl _ _ _))), h5⟩
    | body hbody =>
      obtain ⟨m2', e', h'⟩ := step_body X h (.body hbody) hbody.mem hbody.ne hend hk ht ha e
      exact ⟨1, _, _, m2', Nat.one_pos, by omega, .step e' (.refl _ _ _), h'⟩
  | remainder h hl hk hlast ht =>
    obtain ⟨m2', e', h'⟩ := step_remainder X h hl hk hlast ht ha e
    exact ⟨1, _, _, m2', Nat.one_pos, by omega, .step e' (.refl _ _ _), h'⟩

/-- In the loop, control does not leave the function. -/
theorem exists_inl_of_mem (X : SplitRun f f1 g g' l c w width ρ β pre j s s' start P)
    (hb : b ∈ l.blocks) {r : BlockId ⊕ Option Lanes} (e : block s f pred b m = (.ok r, m2)) :
    ∃ n, r = .inl n := by
  obtain ⟨n, hn⟩ := LoopForest.exists_target X.counts.wellFormed.toClosed X.steps.mem hb
  obtain ⟨-, -, -, hway⟩ := block_eq_ok_iff.mp e
  unfold wayOut at hway
  cases ht : f.term b with
  | unreachable | ret _ =>
    rw [ht] at hn
    cases hn
  | br target =>
    rw [ht] at hway
    cases hway
    exact ⟨target, rfl⟩
  | brIf cond onTrue onFalse =>
    rw [ht] at hway
    dsimp only at hway
    split at hway
    · cases hway
    · cases hway
    · cases hway
      exact ⟨_, rfl⟩

/-- Where the function returns, the function with the split loop returns the same. -/
theorem exists_return (X : SplitRun f f1 g g' l c w width ρ β pre j s s' start P)
    (h : Phase f g' l c w width ρ β pre j P pred b m pred' b' m') {ret : Option Lanes}
    (e : block s f pred b m = (.ok (.inr ret), m2)) : ∃ m2',
      block s' g' pred' b' m' = (.ok (.inr ret), m2') ∧ m2'.memory = m2.memory ∧
      m2'.callLog = m2.callLog ∧
      Shares (c.MainPart w width P) l (l.remainder β pre) m2.trace m2'.trace := by
  have hin : b ∉ l.blocks := fun hb => by
    obtain ⟨n, hn⟩ := exists_inl_of_mem X hb e
    cases hn
  cases h with
  | outside hb h ht =>
    have hne : b ≠ c.shape.preheader := by
      rintro rfl
      obtain ⟨-, -, -, hway⟩ := block_eq_ok_iff.mp e
      rw [X.counts.counted.singleExit.entering_eq.2] at hway
      cases hway
    obtain ⟨m2', e', hm2, -⟩ := X.exists_copy hne h e
    rw [X.block_out hb] at e'
    refine ⟨m2', e', hm2.memory, hm2.callLog, ?_⟩
    rw [trace_block e, trace_block e']
    exact ht.visit hb (not_mem_remainder X h.reachable)
  | main h hl _ _ _ => exact absurd (hl.mem X.counts) hin
  | remainder h hl _ _ _ => exact absurd (hl.mem X.counts) hin

/-- A run that returns is matched by one with the split loop. -/
theorem exists_blocks (X : SplitRun f f1 g g' l c w width ρ β pre j s s' start P)
    {steps steps' : Nat} (hle : 3 * steps ≤ steps')
    (h : Phase f g' l c w width ρ β pre j P pred b m pred' b' m')
    (ha : Arrives s f start pred b m) {ret : Option Lanes}
    (e : blocks s f steps pred b m = (.ok ret, m1)) : ∃ m1',
      blocks s' g' steps' pred' b' m' = (.ok ret, m1') ∧ m1'.memory = m1.memory ∧
      m1'.callLog = m1.callLog ∧
      Shares (c.MainPart w width P) l (l.remainder β pre) m1.trace m1'.trace := by
  induction steps generalizing steps' pred b m pred' b' m' with
  | zero => cases e
  | succ steps ih =>
    obtain ⟨r, m2, e1, e⟩ := exists_of_bind_run_eq_ok e
    cases r with
    | inr ret' =>
      cases e
      obtain ⟨m2', e', hmem, hcalls, ht⟩ := h.exists_return X e1
      obtain ⟨k, rfl⟩ : ∃ k, steps' = k + 1 := ⟨steps' - 1, by omega⟩
      exact ⟨m2', bind_run_eq e', hmem, hcalls, ht⟩
    | inl n =>
      have hnext : n = l.header → ∃ r m3, block s f (some b) n m2 = (.ok (.inl r), m3) := by
        rintro rfl
        cases steps with
        | zero => cases e
        | succ steps =>
          obtain ⟨r, m3, e3, -⟩ := exists_of_bind_run_eq_ok e
          obtain ⟨n, rfl⟩ := exists_inl_of_mem X X.counts.header_mem e3
          exact ⟨n, m3, e3⟩
      obtain ⟨i, q', n', m2', hi, hi3, hpass, h'⟩ := h.step X ha e1 hnext
      obtain ⟨k, rfl⟩ : ∃ k, steps' = k + i := ⟨steps' - i, by omega⟩
      have hk : 3 * steps ≤ k := by omega
      obtain ⟨m1', e', hresult⟩ := ih hk h' (ha.next e1) e
      exact ⟨m1', (hpass.blocks_eq k).trans e', hresult⟩

end Phase

/-! ## Runs -/

section

variable {f f1 g g' : Func} {l : Loop} {c : CountedLoop} {w : Nat} {width : Int64}
  {ρ : InstId → InstId} {β : BlockId → BlockId} {pre : BlockId} {j : InstId} {s s' : Setup}
  {P : Int64 → Int64 → Prop}

/-- A single-lane run that returns is matched by a run of the function with the split loop. -/
theorem SplitRun.exists_run {args params : List Lanes} {memory : Array Scalar}
    (hp : arguments s f args = .ok params)
    (X : SplitRun f f1 g g' l c w width ρ β pre j s s' (startMachine s f params memory) P)
    (hlimit : 3 * s.limit ≤ s'.limit) {ret : Option Lanes} {m : Machine}
    (e : f.run s args memory = (.ok ret, m)) : ∃ m',
      g'.run s' args memory = (.ok ret, m') ∧ m'.memory = m.memory ∧ m'.callLog = m.callLog ∧
      Shares (c.MainPart w width P) l (l.remainder β pre) m.trace m'.trace := by
  have S := X.steps
  have hargs : arguments s' g' args = .ok params := by
    rw [← hp]
    unfold arguments
    rw [X.alike.width, S.copied.params]
  rw [Func.run_eq hp] at e
  rw [Func.run_eq hargs]
  have hentry := X.counts.counted.singleExit.entry_not_mem S.ssa.toClosed S.mem
    S.ssa.entry_pred
  have hphase : Phase f g' l c w width ρ β pre j P none f.entry (startMachine s f params memory)
      none g'.entry (startMachine s' g' params memory) :=
    .outside hentry (.start f g' ρ s s' params memory) .nil
  exact hphase.exists_blocks X hlimit .entry e

end

end Lockstep
