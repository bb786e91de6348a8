import Lockstep.Proofs.Eval.Effects
import Lockstep.Proofs.Eval.Frame
import Lockstep.Proofs.Eval.Lanes
import Lockstep.Proofs.Loop.Counted

/-!
# A turn of a counted loop

In a single-lane run the header of a counted loop compares two numbers, the induction variable and
the bound, and control goes where the answer says (`IsCounted.exists_visit`). Behind the header the
two stay as they are, and the sum of induction variable and step is there when control comes back to
the header, which it does from the latch (`InTurn.step`).

Nothing is said of floating-point numbers and aggregates, which the function may have as well.
-/

namespace Lockstep

open Run

namespace CmpOp

/-- A comparison that is no equality and that tells two numbers apart has an answer for numbers
only. -/
theorem ints_of_eval {op : CmpOp} {a b : Scalar} {ty : Ty} {v : Bool}
    (ho : op.onInts 64 0 1 ≠ op.onInts 64 1 0) (h : op.eval a b ty = .ok (.bool v)) :
    ∃ p q, a = .int p ∧ b = .int q ∧ op.onInts ty.intWidth p q = some v := by
  unfold eval at h
  split at h
  · cases h
  · cases h
  · cases op <;> first | exact absurd (by decide) ho | cases h
  · split at h
    · cases h
      exact ⟨_, _, rfl, rfl, ‹_›⟩
    · cases h
  · cases op <;> first | exact absurd (by decide) ho | cases h
  · cases h

end CmpOp

/-- The comparison of an exit test is no equality. -/
theorem onInts_ne_of_isExitTest {op stayOp : CmpOp} {t : Bool}
    (hs : stayOp = .slt ∨ stayOp = .ult) (h : (∀ w x y,
        op.onInts w x y = (stayOp.onInts w x y).map (· == t)) ∨ ∀ w x y,
        op.onInts w y x = (stayOp.onInts w x y).map (· == t)) :
    op.onInts 64 0 1 ≠ op.onInts 64 1 0 := by
  have hstay : stayOp.onInts 64 0 1 = some true ∧ stayOp.onInts 64 1 0 = some false := by
    rcases hs with rfl | rfl <;> decide
  rcases h with h | h
  · rw [h, h, hstay.1, hstay.2]
    cases t <;> decide
  · rw [h, h, hstay.1, hstay.2]
    cases t <;> decide

namespace Loop

variable {s : Setup} {f : Func} {l : Loop} {c : CountedLoop} {j : InstId} {m m1 : Machine}
  {pred : Option BlockId} {b n : BlockId} {D : BlockId → Prop} {x y : Int64}

/-! ## The header -/

namespace IsCounted

variable (hf : f.Ssa) (hl : l ∈ (Analyses.ofFunc f).loops.loops) (h : l.IsCounted f c)

include hf hl h

/-- The induction variable is computed in the header only. -/
theorem iv_not_mem (hb : b ≠ l.header) : c.iv ∉ f.body b := fun hi =>
  hb (hf.eq_of_mem_body hi (Func.mem_body_of_mem_phis (h.iv_mem hf hl)))

theorem iv_not_mem_nonPhis (b : BlockId) : c.iv ∉ f.nonPhis b := by
  intro hi
  have hno := hf.phis_first b _ hi
  rw [Func.isPhi_of_mem_phis (h.iv_mem hf hl)] at hno
  cases hno

omit hl in
/-- The bound is not computed in the loop. -/
theorem bound_ne (hb : b ∈ l.blocks) : ∀ i ∈ f.body b, c.bound ≠ .inst i := by
  intro i hi e
  have hinv := h.invariant
  rw [e] at hinv
  refine absurd hb ?_
  rw [← hf.placed b i hi]
  simpa [Loop.isInvariant, Loop.contains] using hinv

/-- Control goes on or leaves as the condition says. -/
theorem target_of_cond {stay : Bool}
    (hcond : m.value 1 c.shape.cond = [.bool (stay == c.shape.stayOnTrue)])
    (hway : wayOut 1 (f.term l.header) l.header m = .ok (.inl n)) :
    n = if stay then c.shape.continueTarget else c.shape.exit := by
  obtain ⟨onTrue, onFalse, hterm, hstay, hcont⟩ := h.singleExit.term
  have hexit := (h.singleExit.exiting_mem hf.toClosed hl).2.2.1
  have hne := h.singleExit.exiting_nodup hf.toClosed hl
  rw [h.exiting] at hterm hexit hne
  rw [hterm] at hway hexit hne
  have hne : onTrue ≠ onFalse := by simpa [Terminator.targets] using hne
  have hexit : c.shape.exit = onTrue ∨ c.shape.exit = onFalse := List.mem_pair.mp hexit
  have hn : (if (stay == c.shape.stayOnTrue) = true then onTrue else onFalse) = n := by
    unfold wayOut at hway
    dsimp only at hway
    rw [hcond] at hway
    exact Sum.inl.inj (Except.ok.inj hway)
  rw [← hn, hcont]
  rcases hexit with e | e
  · have hst : c.shape.stayOnTrue = false := by
      rw [hstay, e]
      exact beq_eq_false_iff_ne.mpr hne.symm
    rw [hst, e]
    cases stay <;> rfl
  · have hst : c.shape.stayOnTrue = true := by
      rw [hstay, e]
      exact beq_self_eq_true _
    rw [hst, e]
    cases stay <;> rfl

variable (ht : f.TypesAgree)

include ht

/-- When control leaves the header, the exit test has compared two numbers, and control goes where
the answer says. -/
theorem exists_test (hw : s.width = 1) (hfull : m.Full 1) (hsize : m.values.size = f.insts.size)
    (e : (f.nonPhis l.header).forM (instr s f) m = (.ok (), m1))
    (hway : wayOut 1 (f.term l.header) l.header m1 = .ok (.inl n)) :
    ∃ x y stay, m.value 1 (.inst c.iv) = [.int x] ∧ m.value 1 c.bound = [.int y] ∧
      c.stayOp.onInts (f.inst c.iv).ty.intWidth x y = some stay ∧
      n = if stay then c.shape.continueTarget else c.shape.exit := by
  obtain ⟨i, hi⟩ := h.test
  obtain ⟨op, p, q, hop, htp, -, hsides⟩ := h.exitTest hf ht hl hi
  have hmem := (h.mem_of_isExitTest hf hl hi).2
  have hn : (f.nonPhis l.header).Nodup :=
    (hf.nodup l.header).sublist (List.dropWhile_sublist _)
  obtain ⟨before, after, ma, mb, code, args, xs, mc, -, -, -, hop', hrun, -, hxs, hold⟩ :=
    exists_operation e hn hmem
      (by rw [hsize]; exact hf.body_lt _ i (Func.mem_body_of_mem_nonPhis hmem))
  cases hop.symm.trans hop'
  have hsource : f.typeOf ((f.inst i).input 0) = (f.inst c.iv).ty := by
    have e0 : (f.inst i).input 0 = p := by rw [Instr.input, inputs_of_op hop]; rfl
    rw [e0, htp]
  unfold operation at hrun
  simp only [hw, hsource] at hrun hxs hold
  obtain ⟨r, hr, rfl⟩ := lanewise_one_eq_ok hrun
  have hr : op.eval ((ma.value 1 p).lane 0) ((ma.value 1 q).lane 0) (f.inst c.iv).ty = .ok r := hr
  -- the operands are the same before the test as after the phis
  have hiv : ∀ i ∈ f.nonPhis l.header, Value.inst c.iv ≠ .inst i := fun i hi e =>
    h.iv_not_mem_nonPhis hf hl _ (Value.inst.inj e ▸ hi)
  have hbound : ∀ i ∈ f.nonPhis l.header, c.bound ≠ .inst i := fun i hi =>
    h.bound_ne hf (LoopForest.header_mem hl) i (Func.mem_body_of_mem_nonPhis hi)
  rw [hold p ?_, hold q ?_] at hr
  rotate_left
  · rcases hsides with ⟨-, rfl, -⟩ | ⟨-, rfl, -⟩
    · exact hbound
    · exact hiv
  · rcases hsides with ⟨rfl, -, -⟩ | ⟨rfl, -, -⟩
    · exact hiv
    · exact hbound
  -- the answer is the condition, and therefore a truth value
  obtain ⟨v, rfl⟩ : ∃ v, r = .bool v := by
    obtain ⟨onTrue, onFalse, hterm, -, -⟩ := h.singleExit.term
    rw [h.exiting, hi.cond] at hterm
    rw [hterm] at hway
    unfold wayOut at hway
    dsimp only at hway
    rw [hxs] at hway
    cases r with
    | bool v => exact ⟨v, rfl⟩
    | _ => cases hway
  have hlane : ∀ {u : Value} {z : Int64}, (m.value 1 u).lane 0 = .int z → m.value 1 u = [.int z] := by
    intro u z hz
    obtain ⟨x, hx⟩ := List.length_eq_one_iff.mp (hfull.value u)
    rw [hx] at hz ⊢
    exact congrArg (fun x => [x]) hz
  obtain ⟨x, y, hx, hy, hans⟩ : ∃ x y, (m.value 1 (.inst c.iv)).lane 0 = .int x ∧
      (m.value 1 c.bound).lane 0 = .int y ∧
        (c.stayOp.onInts (f.inst c.iv).ty.intWidth x y).map (· == c.shape.stayOnTrue) = some v := by
    rcases hsides with ⟨rfl, rfl, ho⟩ | ⟨rfl, rfl, ho⟩
    · obtain ⟨x, y, hx, hy, hv⟩ :=
        CmpOp.ints_of_eval (onInts_ne_of_isExitTest h.stayOp (.inl ho)) hr
      exact ⟨x, y, hx, hy, (ho _ x y).symm.trans hv⟩
    · obtain ⟨y, x, hy, hx, hv⟩ :=
        CmpOp.ints_of_eval (onInts_ne_of_isExitTest h.stayOp (.inr ho)) hr
      exact ⟨x, y, hx, hy, (ho _ x y).symm.trans hv⟩
  obtain ⟨stay, hs, rfl⟩ := Option.map_eq_some_iff.mp hans
  exact ⟨x, y, stay, hlane hx, hlane hy, hs, h.target_of_cond hf hl (hi.cond ▸ hxs) hway⟩

/-- In the header the induction variable takes the value that comes along the edge, and the exit
test decides where control goes. -/
theorem exists_visit (hw : s.width = 1) (hfull : m.Full 1) (hsize : m.values.size = f.insts.size)
    (e : block s f pred l.header m = (.ok (.inl n), m1)) :
    ∃ v x y stay, pred.bind (f.incomingValue? c.iv) = some v ∧ m.value 1 v = [.int x] ∧
      m.value 1 c.bound = [.int y] ∧ m1.value 1 (.inst c.iv) = [.int x] ∧
      m1.value 1 c.bound = [.int y] ∧
      c.stayOp.onInts (f.inst c.iv).ty.intWidth x y = some stay ∧
      n = if stay then c.shape.continueTarget else c.shape.exit := by
  obtain ⟨m2, e1, e2, hway⟩ := block_eq_ok_iff.mp e
  have hfull2 : m2.Full 1 := by
    rw [← hw] at hfull ⊢
    refine full_phis ?_ e1
    exact hfull.ofEq rfl rfl
  have hsize2 : m2.values.size = f.insts.size := by
    rw [size_phis e1]
    exact hsize
  rw [hw] at hway
  obtain ⟨x, y, stay, hx, hy, hstay, hn⟩ := h.exists_test hf hl ht hw hfull2 hsize2 e2 hway
  have hlt : c.iv < m.values.size := by
    rw [hsize]
    exact hf.body_lt _ _ (Func.mem_body_of_mem_phis (h.iv_mem hf hl))
  obtain ⟨v, hv, hval⟩ := exists_value_of_phis e1
    ((hf.nodup _).sublist (List.takeWhile_sublist _)) (h.iv_mem hf hl) hlt
  have hheader := LoopForest.header_mem hl
  have hbound : m1.value 1 c.bound = [.int y] := by
    rw [value_instrs_of_ne e2 fun i hi =>
      h.bound_ne hf hheader i (Func.mem_body_of_mem_nonPhis hi), hy]
  refine ⟨v, x, y, stay, hv, ?_, ?_, ?_, hbound, hstay, hn⟩
  · rw [hw] at hval
    exact ((m.value_visit _ 1 v).symm.trans hval.symm).trans hx
  · rw [← hbound, value_block_of_ne e (h.bound_ne hf hheader)]
  · rw [value_instrs_of_ne e2 (v := .inst c.iv) fun i hi e =>
      h.iv_not_mem_nonPhis hf hl _ (Value.inst.inj e ▸ hi), hx]

omit ht in
/-- The header does not branch to itself, since the latch is another block. -/
theorem continueTarget_ne : c.shape.continueTarget ≠ l.header := by
  intro e
  obtain ⟨hx, hr, -, -⟩ := h.singleExit.exiting_mem hf.toClosed hl
  obtain ⟨-, hcont, -⟩ := h.singleExit.continueTarget_mem hf.toClosed hl
    (h.singleExit.exiting_nodup hf.toClosed hl)
  rw [e] at hcont
  rcases h.singleExit.eq_of_entering hf.toClosed hl hr hcont with ⟨-, hout⟩ | ⟨e', -⟩
  · exact hout hx
  · exact h.latch_ne (e'.symm.trans h.exiting)

end IsCounted

/-! ## The increment -/

section

variable (hf : f.Ssa) (hl : l ∈ (Analyses.ofFunc f).loops.loops) (h : l.IsCounted f c)
  (hj : IsIncrement f l c (f.inst c.iv).ty j) (hw : s.width = 1)

include hf hl h hj hw

/-- The increment is the sum of induction variable and step. -/
theorem value_of_instr (hlt : j < m.values.size) (e : instr s f j m = (.ok (), m1))
    (hx : m1.value 1 (.inst c.iv) = [.int x]) : m1.value 1 (.inst j) =
      [.int (Word.wrap (f.inst c.iv).ty.intWidth (x.toInt + c.step.toInt))] := by
  have hne : Value.inst c.iv ≠ .inst j := fun e =>
    h.iv_not_mem_nonPhis hf hl _ (Value.inst.inj e ▸ hj.mem_nonPhis)
  have hiv : m.value 1 (.inst c.iv) = [.int x] := by
    rw [← value_instr_of_ne e hne, hx]
  obtain ⟨code, args, xs, mc, hop, hrun, hb, rfl⟩ := instr_eq_ok e
  rw [Machine.value_setValue_self _ (by rw [hb.values]; exact hlt)]
  obtain ⟨p, q, hop', hpq⟩ := hj.op
  cases hop.symm.trans hop'
  unfold operation at hrun
  simp only [hw, hj.ty_eq] at hrun
  obtain ⟨r, hr, rfl⟩ := lanewise_one_eq_ok hrun
  have hr : BinOp.eval .add ((m.value 1 p).lane 0) ((m.value 1 q).lane 0) (f.inst c.iv).ty =
    .ok r := hr
  have hconst : (m.value 1 (.const ⟨(f.inst c.iv).ty, .int c.step⟩)).lane 0 = .int c.step := rfl
  rcases hpq with ⟨rfl, rfl⟩ | ⟨rfl, rfl⟩
  · rw [hiv, hconst] at hr
    cases hr
    rfl
  · rw [hiv, hconst] at hr
    cases hr
    rw [Int.add_comm]

/-- When the block of the increment has run, the increment has been made. -/
theorem exists_increment (hsize : m.values.size = f.insts.size) {r : BlockId ⊕ Option Lanes}
    (e : block s f pred b m = (.ok r, m1)) (hb : j ∈ f.body b)
    (hx : m1.value 1 (.inst c.iv) = [.int x]) : ∃ m2 before after ma mb,
      phis s f pred b { m with path := b :: m.path } = (.ok (), m2) ∧
      f.nonPhis b = before ++ j :: after ∧ before.forM (instr s f) m2 = (.ok (), ma) ∧
      instr s f j ma = (.ok (), mb) ∧ mb.value 1 (.inst c.iv) = [.int x] ∧
      mb.value 1 (.inst j) = m1.value 1 (.inst j) ∧ m1.value 1 (.inst j) =
        [.int (Word.wrap (f.inst c.iv).ty.intWidth (x.toInt + c.step.toInt))] := by
  obtain ⟨m2, e1, e2, -⟩ := block_eq_ok_iff.mp e
  have hj' : j ∈ f.nonPhis b := hf.placed b j hb ▸ hj.mem_nonPhis
  have hn : (f.nonPhis b).Nodup := (hf.nodup b).sublist (List.dropWhile_sublist _)
  have hlt : j < m2.values.size := by
    rw [size_phis e1]
    exact hsize.symm ▸ hf.body_lt b j hb
  obtain ⟨before, after, ma, mb, -, -, xs, -, hsplit, hbefore, hmb, -, -, hxs', hxs, hold⟩ :=
    exists_operation e2 hn hj' hlt
  have hne : ∀ i ∈ f.nonPhis b, Value.inst c.iv ≠ .inst i := fun i hi e =>
    h.iv_not_mem_nonPhis hf hl b (Value.inst.inj e ▸ hi)
  rw [hw] at hold hxs hxs'
  have hiv : mb.value 1 (.inst c.iv) = [.int x] := by
    rw [value_instr_of_ne hmb (hne j hj'), hold _ hne, ← hx, value_instrs_of_ne e2 hne 1]
  have hsum := value_of_instr hf hl h hj hw (by rw [size_instrs hbefore]; exact hlt) hmb hiv
  refine ⟨m2, before, after, ma, mb, e1, hsplit, hbefore, hmb, hiv, ?_, ?_⟩
  · rw [hxs, hxs']
  · rw [hxs, ← hxs', hsum]

end

/-! ## Behind the header -/

/-- Control is in the loop behind the header, which has found `x` for the induction variable and `y`
for the bound, and has passed the blocks `D` since. -/
structure InTurn (f : Func) (l : Loop) (c : CountedLoop) (j : InstId) (x y : Int64)
    (D : BlockId → Prop) (b : BlockId) (m : Machine) : Prop where
  bound : m.value 1 c.bound = [.int y]
  iv : m.value 1 (.inst c.iv) = [.int x]
  increment : ∀ d, D d → j ∈ f.body d → m.value 1 (.inst j) =
    [.int (Word.wrap (f.inst c.iv).ty.intWidth (x.toInt + c.step.toInt))]
  mem : b ∈ l.blocks
  ne : b ≠ l.header
  inside : ∀ d, D d → d ∈ l.blocks
  path : f.Path D l.header b

section

variable (hf : f.Ssa) (hl : l ∈ (Analyses.ofFunc f).loops.loops) (h : l.IsCounted f c)
  (hj : IsIncrement f l c (f.inst c.iv).ty j) (hw : s.width = 1)

include hf hl h hj hw

/-- The header starts a turn if control goes on. -/
theorem inTurn_of_visit (hsize : m.values.size = f.insts.size)
    (e : block s f pred l.header m = (.ok (.inl c.shape.continueTarget), m1))
    (hiv : m1.value 1 (.inst c.iv) = [.int x]) (hbound : m1.value 1 c.bound = [.int y]) :
    InTurn f l c j x y (· = l.header) c.shape.continueTarget m1 := by
  obtain ⟨-, hcont, hmem⟩ := h.singleExit.continueTarget_mem hf.toClosed hl
    (h.singleExit.exiting_nodup hf.toClosed hl)
  rw [h.exiting] at hcont
  refine ⟨hbound, hiv, ?_, hmem, h.continueTarget_ne hf hl, ?_, PathIn.step rfl hcont⟩
  · rintro d rfl hd
    obtain ⟨-, -, -, -, -, -, -, -, -, -, -, hsum⟩ :=
      exists_increment hf hl h hj hw hsize e hd hiv
    exact hsum
  · rintro d rfl
    exact LoopForest.header_mem hl

/-- Behind the header control stays in the loop, and comes back to the header from the latch with the
sum of induction variable and step. -/
theorem InTurn.step (ht : InTurn f l c j x y D b m) (hr : f.Reachable b)
    (hsize : m.values.size = f.insts.size) (e : block s f pred b m = (.ok (.inl n), m1)) :
    n ∈ l.blocks ∧ (n ≠ l.header → InTurn f l c j x y (fun d => D d ∨ d = b) n m1) ∧
      (n = l.header → b = c.shape.latch ∧ (∃ d, (D d ∨ d = b) ∧ j ∈ f.body d) ∧
        m1.value 1 c.bound = [.int y] ∧ m1.value 1 (.inst j) =
          [.int (Word.wrap (f.inst c.iv).ty.intWidth (x.toInt + c.step.toInt))]) := by
  have htarget := target_of_block e
  have hbound : m1.value 1 c.bound = [.int y] := by
    rw [value_block_of_ne e (h.bound_ne hf ht.mem), ht.bound]
  have hiv : m1.value 1 (.inst c.iv) = [.int x] := by
    rw [value_block_of_ne e (v := .inst c.iv) fun i hi e =>
      h.iv_not_mem hf hl ht.ne (Value.inst.inj e ▸ hi), ht.iv]
  have hinc : ∀ d, D d ∨ d = b → j ∈ f.body d → m1.value 1 (.inst j) =
      [.int (Word.wrap (f.inst c.iv).ty.intWidth (x.toInt + c.step.toInt))] := by
    intro d hd hjd
    by_cases hb : j ∈ f.body b
    · obtain ⟨-, -, -, -, -, -, -, -, -, -, -, hsum⟩ :=
        exists_increment hf hl h hj hw hsize e hb hiv
      exact hsum
    · have hd : D d := hd.resolve_right fun e => hb (e ▸ hjd)
      rw [value_block_of_ne e (v := .inst j) fun i hi e => hb (Value.inst.inj e ▸ hi)]
      exact ht.increment d hd hjd
  have hin : n ∈ l.blocks := by
    by_contra hout
    have := (h.singleExit.eq_of_leaving hf.toClosed hl hr ht.mem hout htarget).1
    exact ht.ne (this.trans h.exiting)
  have hpath : f.Path (fun d => D d ∨ d = b) l.header n :=
    (ht.path.mono fun _ => .inl).tail (.inr rfl) htarget
  refine ⟨hin, fun hne => ⟨hbound, hiv, hinc, hin, hne, ?_, hpath⟩, ?_⟩
  · rintro d (hd | rfl)
    · exact ht.inside d hd
    · exact ht.mem
  · rintro rfl
    have hlatch : b = c.shape.latch := by
      rcases h.singleExit.eq_of_entering hf.toClosed hl hr htarget with ⟨-, hout⟩ | ⟨e', -⟩
      · exact absurd ht.mem hout
      · exact e'
    have hincoming := hj.incoming
    rw [← hlatch] at hincoming
    -- the increment is available at the latch, and has therefore been made in this turn
    have havail := hf.available_incoming hr htarget (h.iv_mem hf hl) hincoming
    have hp : f.Path (fun d => d ∉ l.blocks ∨ D d ∨ d = b) f.entry b :=
      ((LoopForest.path_header hf.toClosed hl).mono fun _ => .inl).trans
        (ht.path.mono fun _ hd => .inr (.inl hd))
    obtain ⟨d, hd | hd, hjd⟩ := havail.within_end hp (.inr (.inr rfl))
    · exact absurd (hf.placed d j hjd ▸ hj.mem) hd
    · exact ⟨hlatch, ⟨d, hd, hjd⟩, hbound, hinc d hd hjd⟩

end

end Loop

end Lockstep
