import Lockstep.Loop.Remainder
import Lockstep.Proofs.Eval.Bits
import Lockstep.Proofs.Eval.Soundness
import Lockstep.Proofs.Loop.SingleExit

/-!
# Counted loops

What the recognition of a counted loop establishes (`Loop.IsCounted`), and what follows in a
well-formed and well-typed function: the exit test is computed in the header, from the induction
variable and the bound (`IsCounted.exitTest`), and the induction variable comes from the start or is
the sum of itself and the step (`IsCounted.increment`). All of them have the type of the induction
variable. Every path into the loop passes the preheader.
-/

namespace Lockstep

/-- An input that is an instruction is one of the inputs. -/
theorem Instr.mem_inputs_of_input {d : Instr} {k : Nat} {i : InstId} (h : d.input k = .inst i) :
    Value.inst i ∈ d.inputs := by
  unfold Instr.input at h
  cases hk : d.inputs[k]? with
  | none =>
    rw [hk] at h
    cases h
  | some v =>
    rw [hk] at h
    cases h
    exact List.mem_of_getElem? hk

/-! ## The exit test -/

/-- The instruction `i` compares induction variable and bound, in either order, and its answer says
whether the loop goes on. -/
structure IsExitTest (f : Func) (c : CountedLoop) (i : InstId) : Prop where
  cond : c.shape.cond = .inst i
  block : (f.inst c.iv).block = c.shape.header
  isPhi : f.isPhi c.iv = true
  compares : ∃ op args, (f.inst i).op = .apply (.cmp op) args ∧
    (((f.inst i).input 0 = .inst c.iv ∧ (f.inst i).input 1 = c.bound ∧ ∀ w x y,
        op.onInts w x y = (c.stayOp.onInts w x y).map (· == c.shape.stayOnTrue)) ∨
      ((f.inst i).input 0 = c.bound ∧ (f.inst i).input 1 = .inst c.iv ∧ ∀ w x y,
        op.onInts w y x = (c.stayOp.onInts w x y).map (· == c.shape.stayOnTrue)))

/-- The instruction `i` of the loop adds the step to the induction variable, which becomes the sum
when the loop goes on. -/
structure IsIncrement (f : Func) (l : Loop) (c : CountedLoop) (ty : Ty) (i : InstId) : Prop where
  incoming : f.incomingValue? c.iv c.shape.latch = some (.inst i)
  mem : (f.inst i).block ∈ l.blocks
  mem_nonPhis : i ∈ f.nonPhis (f.inst i).block
  op : ∃ x y, (f.inst i).op = .apply (.binary .add) [x, y] ∧
    (x = .inst c.iv ∧ y = .const ⟨ty, .int c.step⟩ ∨
      y = .inst c.iv ∧ x = .const ⟨ty, .int c.step⟩)
  ty_eq : (f.inst i).ty = ty

namespace Loop

variable {f : Func} {a : Analyses} {l : Loop} {c : CountedLoop}

theorem comparison?_eq_some {cond x y : Value} {op : CmpOp}
    (h : comparison? f cond = some (op, x, y)) : ∃ i args, cond = .inst i ∧
      (f.inst i).op = .apply (.cmp op) args ∧ (f.inst i).input 0 = x ∧ (f.inst i).input 1 = y := by
  unfold comparison? at h
  split at h
  · split at h
    · cases h
      exact ⟨_, _, rfl, by assumption, rfl, rfl⟩
    · cases h
  · cases h

theorem phiOf?_eq_some {b : BlockId} {v : Value} {i : InstId} (h : phiOf? f b v = some i) :
    v = .inst i ∧ (f.inst i).block = b ∧ f.isPhi i = true := by
  unfold phiOf? at h
  split at h
  · split at h
    · cases h
      rename_i hp
      exact ⟨rfl, hp⟩
    · cases h
  · cases h

/-- A recognized exit test is one. -/
theorem exists_isExitTest (h : stayTest? f c.shape = some (c.stayOp, c.iv, c.bound)) :
    ∃ i, IsExitTest f c i := by
  unfold stayTest? at h
  obtain ⟨⟨op, x, y⟩, hcmp, h⟩ := Option.bind_eq_some_iff.mp h
  obtain ⟨i, args, hcond, hop, hx, hy⟩ := comparison?_eq_some hcmp
  -- the answer is the one of the comparison under which the loop goes on, or its opposite
  have hstay : ∀ w p q, op.onInts w p q =
      ((if c.shape.stayOnTrue then op else op.inverse).onInts w p q).map
        (· == c.shape.stayOnTrue) := by
    intro w p q
    cases hs : c.shape.stayOnTrue with
    | true => cases ho : op.onInts w p q <;> simp [ho]
    | false =>
      rw [if_neg Bool.false_ne_true, CmpOp.onInts_inverse]
      cases ho : op.onInts w p q <;> simp
  dsimp only at h
  split at h
  · rename_i iv hiv
    obtain ⟨e, hb, hp⟩ := phiOf?_eq_some hiv
    obtain ⟨h1, h2, h3⟩ : (if c.shape.stayOnTrue then op else op.inverse) = c.stayOp ∧
        iv = c.iv ∧ y = c.bound := by
      simpa only [pure, Option.some.injEq, Prod.mk.injEq] using h
    refine ⟨i, hcond, ?_, ?_, op, args, hop, .inl ⟨hx.trans ?_, hy.trans h3, fun w p q => ?_⟩⟩
    · rw [← h2, hb]
    · rw [← h2, hp]
    · rw [← h2, e]
    · rw [← h1, hstay]
  · rename_i iv _ hiv
    obtain ⟨e, hb, hp⟩ := phiOf?_eq_some hiv
    obtain ⟨h1, h2, h3⟩ : (if c.shape.stayOnTrue then op else op.inverse).swapped = c.stayOp ∧
        iv = c.iv ∧ x = c.bound := by
      simpa only [pure, Option.some.injEq, Prod.mk.injEq] using h
    refine ⟨i, hcond, ?_, ?_, op, args, hop, .inr ⟨hx.trans h3, hy.trans ?_, fun w p q => ?_⟩⟩
    · rw [← h2, hb]
    · rw [← h2, hp]
    · rw [← h2, e]
    · rw [← h1, CmpOp.onInts_swapped, hstay]
  · cases h

/-! ## The recognition -/

/-- What is known of a counted loop. -/
structure IsCounted (f : Func) (l : Loop) (c : CountedLoop) : Prop where
  singleExit : l.IsSingleExit f (.ofFunc f) c.shape
  exiting : c.shape.exiting = l.header
  latch_ne : c.shape.latch ≠ l.header
  latch_br : ∃ target, f.term c.shape.latch = .br target
  stayTest : stayTest? f c.shape = some (c.stayOp, c.iv, c.bound)
  stayOp : c.stayOp = .slt ∨ c.stayOp = .ult
  invariant : l.isInvariant f c.bound = true
  start : f.incomingValue? c.iv c.shape.preheader = some c.start
  step : ∃ next added, f.incomingValue? c.iv c.shape.latch = some next ∧
    increment? f l c.iv next = some added ∧ added.int? = some c.step
  step_pos : 0 < c.step.toInt

theorem isCounted_of_eq_ok (h : l.counted f (.ofFunc f) = .ok c) : l.IsCounted f c := by
  unfold counted at h
  obtain ⟨shape, hshape, h⟩ := exists_of_bind_eq_ok h
  have hs := isSingleExit_of_eq_ok hshape
  by_cases h1 : shape.exiting ≠ shape.header
  · rw [if_pos h1] at h
    cases h
  rw [if_neg h1] at h
  by_cases h2 : shape.latch = shape.header
  · rw [if_pos h2] at h
    cases h
  rw [if_neg h2] at h
  cases h3 : f.term shape.latch with
  | br target =>
    rw [h3] at h
    cases h4 : stayTest? f shape with
    | none => rw [h4] at h; cases h
    | some t =>
    obtain ⟨stayOp, iv, bound⟩ := t
    rw [h4] at h
    dsimp only [bind, Except.bind, pure, Except.pure] at h
    by_cases h5 : (!decide (stayOp = .slt ∨ stayOp = .ult) || !l.isInvariant f bound) = true
    · rw [if_pos h5] at h
      cases h
    rw [if_neg h5] at h
    cases h6 : f.incomingValue? iv shape.preheader with
    | none => rw [h6] at h; cases h
    | some start =>
    rw [h6] at h
    cases h7 : f.incomingValue? iv shape.latch with
    | none => rw [h7] at h; cases h
    | some next =>
    rw [h7] at h
    dsimp only at h
    cases h8 : increment? f l iv next with
    | none => rw [h8] at h; cases h
    | some added =>
    rw [h8] at h
    dsimp only at h
    cases h9 : added.int? with
    | none => rw [h9] at h; cases h
    | some step =>
    rw [h9] at h
    dsimp only at h
    by_cases h10 : step ≤ 0
    · rw [if_pos h10] at h
      cases h
    rw [if_neg h10] at h
    cases h
    have hheader : shape.header = l.header := hs.header
    rw [Bool.or_eq_true, not_or, Bool.not_eq_true, Bool.not_eq_true, Bool.not_eq_false',
      Bool.not_eq_false', decide_eq_true_eq] at h5
    refine ⟨hs, (not_not.mp h1).trans hheader, fun e => h2 (e.trans hheader.symm),
      ⟨target, h3⟩, h4, h5.1, h5.2, h6, ⟨next, added, h7, h8, h9⟩, ?_⟩
    have hlt := Int64.not_le.mp h10
    rw [Int64.lt_iff_toInt_lt] at hlt
    exact hlt
  | _ => rw [h3] at h; cases h

/-- A loop of which all this is known is recognized. -/
theorem IsCounted.eq_ok (h : l.IsCounted f c) : l.counted f (.ofFunc f) = .ok c := by
  obtain ⟨target, hbr⟩ := h.latch_br
  obtain ⟨next, added, hnext, hadd, hstep⟩ := h.step
  have hpos : ¬ c.step ≤ 0 := by
    rw [Int64.not_le, Int64.lt_iff_toInt_lt]
    exact h.step_pos
  unfold counted
  rw [h.singleExit.eq_ok]
  simp only [bind, Except.bind, pure, Except.pure, h.singleExit.header, h.exiting, h.latch_ne, hbr,
    h.stayTest, h.stayOp, h.invariant, h.start, hnext, hadd, hstep, hpos, decide_true, Bool.not_true,
    Bool.or_false, if_false, not_true, ne_eq, Bool.false_eq_true]

theorem IsCounted.test (h : l.IsCounted f c) : ∃ i, IsExitTest f c i :=
  exists_isExitTest h.stayTest

/-- Whether the loop goes on is a question that integers answer. -/
theorem IsCounted.exists_onInts (h : l.IsCounted f c) (w : Nat) (x y : Int64) :
    ∃ stay, c.stayOp.onInts w x y = some stay :=
  CmpOp.isSome_onInts (by rcases h.stayOp with e | e <;> rw [e] <;> rfl) w x y

/-! ## Where things are computed -/

namespace IsCounted

variable {i : InstId} {D : BlockId → Prop}

section

variable (hf : f.Ssa) (hl : l ∈ (Analyses.ofFunc f).loops.loops) (h : l.IsCounted f c)

include hf hl h

/-- Every path into the loop passes the preheader. -/
theorem preheader_dominates {x : BlockId} (hx : x ∈ l.blocks) :
    f.Dominates c.shape.preheader x := by
  intro hp
  exfalso
  have hentry := h.singleExit.entry_not_mem hf.toClosed hl hf.entry_pred
  obtain ⟨y, hy, hp⟩ := hp.exists_first (· ∈ l.blocks) hx
  cases hp with
  | refl => exact hentry hy
  | @tail p _ hp e =>
    have hr := Cfg.reachable_of_path hp
    obtain rfl := LoopForest.eq_header_of_entering hf.toClosed hl h.singleExit.reducible hr e.1.2
      hy e.2
    rcases h.singleExit.eq_of_entering hf.toClosed hl hr e.2 with ⟨e', -⟩ | ⟨-, hin⟩
    · exact e.1.1 e'
    · exact e.1.2 hin

/-- On the way to the preheader the loop need not be passed. -/
theorem path_preheader (hp : f.Path D f.entry c.shape.preheader) :
    f.Path (fun x => D x ∧ x ∉ l.blocks) f.entry c.shape.preheader := by
  obtain ⟨hout, -, -⟩ := h.singleExit.preheader_mem hf.toClosed hl
  obtain ⟨y, rfl, hp⟩ := hp.exists_first (· = c.shape.preheader) rfl
  rcases hp.avoid_or_last (· ∈ l.blocks) with h1 | ⟨x, y, hx, -, hxl, -, -⟩
  · exact h1.mono fun x hx => ⟨hx.1.1, hx.2⟩
  · have hdom := h.preheader_dominates hf hl hxl (hx.mono fun _ hd => hd.2)
    exact absurd (hdom ▸ hxl) hout

/-- On the way to the header the preheader is passed, and the loop need not be. -/
theorem path_to_preheader (hp : f.Path D f.entry l.header) : D c.shape.preheader ∧
    f.Path (fun x => D x ∧ x ∉ l.blocks) f.entry c.shape.preheader := by
  obtain ⟨y, hy, hp⟩ := hp.exists_first (· ∈ l.blocks) (LoopForest.header_mem hl)
  cases hp with
  | refl => exact absurd hy (h.singleExit.entry_not_mem hf.toClosed hl hf.entry_pred)
  | @tail p _ hp e =>
    have hr := Cfg.reachable_of_path hp
    obtain rfl := LoopForest.eq_header_of_entering hf.toClosed hl h.singleExit.reducible hr e.1.2
      hy e.2
    rcases h.singleExit.eq_of_entering hf.toClosed hl hr e.2 with ⟨rfl, -⟩ | ⟨-, hin⟩
    · exact ⟨e.1.1, hp⟩
    · exact absurd hin e.1.2

/-- The exit test is computed in the header. -/
theorem mem_of_isExitTest (ht : IsExitTest f c i) :
    c.iv ∈ f.phis l.header ∧ i ∈ f.nonPhis l.header := by
  have hr := LoopForest.reachable_header hf.toClosed hl
  have hheader : c.shape.header = l.header := h.singleExit.header
  obtain ⟨onTrue, onFalse, hterm, -, -⟩ := h.singleExit.term
  rw [h.exiting, ht.cond] at hterm
  obtain ⟨op, args, hop, hcmp⟩ := ht.compares
  have hiv : Value.inst c.iv ∈ (f.inst i).uses := by
    refine List.mem_append_left _ ?_
    rcases hcmp with ⟨e, -, -⟩ | ⟨-, e, -⟩
    · exact Instr.mem_inputs_of_input e
    · exact Instr.mem_inputs_of_input e
  have hphi : f.isPhi i = false := f.isPhi_of_op hop
  -- the induction variable stands in the header, which a block that uses it comes after
  have hplace : ∀ d, f.Reachable d → i ∈ f.body d →
      c.iv ∈ f.body d ∧ d = l.header ∨ c.iv ∈ f.body l.header ∧ f.Dominates l.header d := by
    intro d hd hi
    obtain ⟨before, after, e⟩ := List.append_of_mem hi
    have hblock : ∀ b, c.iv ∈ f.body b → b = l.header := fun b hb => by
      rw [← hf.placed b _ hb, ht.block, hheader]
    rcases hf.inst d hd before i after e hphi _ hiv with hb | ⟨b, -, hb, hdom⟩
    · have hb : c.iv ∈ f.body d := by rw [e]; exact List.mem_append_left _ hb
      exact .inl ⟨hb, hblock d hb⟩
    · have e := hblock b hb
      rw [e] at hb hdom
      exact .inr ⟨hb, hdom⟩
  have havail := hf.exit _ hr (.inst i) (by rw [hterm]; exact List.mem_singleton_self _)
  have hmem : i ∈ f.body l.header ∧ c.iv ∈ f.body l.header := by
    rcases havail with hi | ⟨d, hne, hi, hdom⟩
    · rcases hplace _ hr hi with ⟨hb, -⟩ | ⟨hb, -⟩
      · exact ⟨hi, hb⟩
      · exact ⟨hi, hb⟩
    · rcases hplace d (hdom.reachable hr) hi with ⟨-, e⟩ | ⟨-, hdom'⟩
      · exact absurd e hne
      · exact absurd (Func.Dominates.antisymm hr hdom hdom') hne
  constructor
  · have hmem := hmem.2
    rw [← Func.phis_append_nonPhis] at hmem
    rcases List.mem_append.mp hmem with hb | hb
    · exact hb
    · have hno := hf.phis_first _ _ hb
      rw [ht.isPhi] at hno
      cases hno
  · have hmem := hmem.1
    rw [← Func.phis_append_nonPhis] at hmem
    rcases List.mem_append.mp hmem with hb | hb
    · have hyes := Func.isPhi_of_mem_phis hb
      rw [hphi] at hyes
      cases hyes
    · exact hb

theorem iv_mem : c.iv ∈ f.phis l.header := by
  obtain ⟨i, ht⟩ := h.test
  exact (h.mem_of_isExitTest hf hl ht).1

theorem available_start :
    f.AvailableAt c.shape.preheader (f.body c.shape.preheader) c.start := by
  obtain ⟨-, hr, hedge⟩ := h.singleExit.preheader_mem hf.toClosed hl
  exact hf.available_incoming hr hedge (h.iv_mem hf hl) h.start

/-- The start is computed before the loop. -/
theorem within_start (hp : f.Path D f.entry c.shape.preheader) (hD : D c.shape.preheader) :
    c.start.Within (f.DefinedIn D) :=
  (h.available_start hf hl).within_end hp hD

/-- The bound is computed before the loop. -/
theorem within_bound (hp : f.Path D f.entry l.header) : c.bound.Within (f.DefinedIn D) := by
  obtain ⟨i, ht⟩ := h.test
  obtain ⟨before, after, e⟩ := List.append_of_mem (h.mem_of_isExitTest hf hl ht).2
  have huse : ∀ j, c.bound = .inst j → c.bound ∈ (f.inst i).uses := by
    rintro j hj
    obtain ⟨op, args, -, hcmp⟩ := ht.compares
    have hin : ∀ k, (f.inst i).input k = c.bound → c.bound ∈ (f.inst i).uses := by
      intro k e
      rw [hj] at e ⊢
      exact List.mem_append_left _ (Instr.mem_inputs_of_input e)
    rcases hcmp with ⟨-, e, -⟩ | ⟨e, -, -⟩
    · exact hin 1 e
    · exact hin 0 e
  have hinv := h.invariant
  have hheader := LoopForest.header_mem hl
  cases hb : c.bound with
  | inst j =>
    rw [hb] at hinv
    have hnot : (f.inst j).block ∉ l.blocks := by
      simpa [Loop.isInvariant, Loop.contains] using hinv
    have hout : j ∉ f.body l.header := fun hj => hnot (hf.placed _ _ hj ▸ hheader)
    have hw := hf.within_inst (LoopForest.reachable_header hf.toClosed hl) hp e (huse j hb)
    rw [hb] at hw
    rcases hw with (hj | hj) | hj
    · exact hj
    · exact absurd (Func.mem_body_of_mem_phis hj) hout
    · refine absurd (Func.mem_body_of_mem_nonPhis ?_) hout
      rw [e]
      exact List.mem_append_left _ hj
  | const _ | param _ => trivial

theorem available_bound :
    f.AvailableAt c.shape.preheader (f.body c.shape.preheader) c.bound :=
  have hpre := h.singleExit.preheader_mem hf.toClosed hl
  hf.availableAt_end hpre.2.1 fun _ hp hD => h.within_bound hf hl (hp.tail hD hpre.2.2)

theorem defines_bound : f.Defines c.bound := by
  have hin := h.within_bound hf hl (LoopForest.path_header hf.toClosed hl)
  cases hb : c.bound with
  | inst j =>
    rw [hb] at hin
    obtain ⟨d, -, hj⟩ := hin
    exact hf.body_lt d j hj
  | const _ | param _ => trivial

/-- The induction variable becomes what an addition in the loop computes. -/
theorem exists_next : ∃ j added, f.incomingValue? c.iv c.shape.latch = some (.inst j) ∧
    increment? f l c.iv (.inst j) = some added ∧ added.int? = some c.step ∧
    (f.inst j).block ∈ l.blocks ∧ j ∈ f.nonPhis (f.inst j).block := by
  obtain ⟨next, added, hnext, hadd, hstep⟩ := h.step
  obtain ⟨-, hrlatch, hedge⟩ := h.singleExit.latch_mem hf.toClosed hl
  have hsome := hadd
  unfold increment? at hadd
  split at hadd
  swap
  · cases hadd
  rename_i j
  split at hadd
  swap
  · cases hadd
  rename_i x y hop
  have hin : (f.inst j).block ∈ l.blocks := by
    by_contra hout
    have hc : l.contains (f.inst j).block = false := by simpa [Loop.contains] using hout
    rw [hc] at hadd
    cases hadd
  have hbody : j ∈ f.body (f.inst j).block := by
    rcases hf.available_incoming hrlatch hedge (h.iv_mem hf hl) hnext with hj | ⟨d, -, hj, -⟩
    · rwa [hf.placed _ _ hj]
    · rwa [hf.placed _ _ hj]
  refine ⟨j, added, hnext, hsome, hstep, hin, ?_⟩
  rw [← Func.phis_append_nonPhis] at hbody
  refine (List.mem_append.mp hbody).resolve_left fun hp => ?_
  exact absurd ((Func.isPhi_of_mem_phis hp).symm.trans (f.isPhi_of_op hop)) (by decide)

end

/-! ## Types -/

section

variable (hf : f.Ssa) (ht : f.TypesAgree) (hl : l ∈ (Analyses.ofFunc f).loops.loops)
  (h : l.IsCounted f c)

include hf ht hl h

/-- What flows into the induction variable has its type. -/
theorem typeOf_incoming {p : BlockId} {v : Value} (hv : f.incomingValue? c.iv p = some v) :
    f.typeOf v = (f.inst c.iv).ty := by
  obtain ⟨incoming, hop, hmem⟩ := Run.op_of_mem_incoming (Func.mem_incoming hv)
  exact (ht _ _ (Func.mem_body_of_mem_phis (h.iv_mem hf hl))).phi incoming hop _ hmem

/-- Both sides of the exit test have one type. -/
theorem exitTest (hi : IsExitTest f c i) : ∃ op x y, (f.inst i).op = .apply (.cmp op) [x, y] ∧
    f.typeOf x = (f.inst c.iv).ty ∧ f.typeOf c.bound = (f.inst c.iv).ty ∧
    ((x = .inst c.iv ∧ y = c.bound ∧ ∀ w x y,
        op.onInts w x y = (c.stayOp.onInts w x y).map (· == c.shape.stayOnTrue)) ∨
      (x = c.bound ∧ y = .inst c.iv ∧ ∀ w x y,
        op.onInts w y x = (c.stayOp.onInts w x y).map (· == c.shape.stayOnTrue))) := by
  obtain ⟨op, args, hop, hcmp⟩ := hi.compares
  have hmem := (h.mem_of_isExitTest hf hl hi).2
  obtain ⟨s, hargs, -⟩ := (ht _ _ (Func.mem_body_of_mem_nonPhis hmem)).apply _ _ hop
  obtain ⟨x, y, rfl, hx, hy⟩ : ∃ x y, args = [x, y] ∧ f.typeOf x = s ∧ f.typeOf y = s := by
    rcases args with - | ⟨x, - | ⟨y, - | ⟨z, args⟩⟩⟩ <;> simp at hargs
    exact ⟨x, y, rfl, hargs⟩
  have hsame : f.typeOf y = f.typeOf x := hy.trans hx.symm
  have hin : (f.inst i).inputs = [x, y] := Run.inputs_of_op hop
  have e0 : (f.inst i).input 0 = x := by rw [Instr.input, hin]; rfl
  have e1 : (f.inst i).input 1 = y := by rw [Instr.input, hin]; rfl
  rw [e0, e1] at hcmp
  refine ⟨op, x, y, hop, ?_, ?_, hcmp⟩
  · rcases hcmp with ⟨rfl, -, -⟩ | ⟨-, rfl, -⟩
    · rfl
    · exact hsame.symm
  · rcases hcmp with ⟨rfl, rfl, -⟩ | ⟨rfl, rfl, -⟩
    · exact hsame
    · exact hsame.symm

theorem typeOf_bound : f.typeOf c.bound = (f.inst c.iv).ty := by
  obtain ⟨i, hi⟩ := h.test
  obtain ⟨-, -, -, -, -, hb, -⟩ := h.exitTest hf ht hl hi
  exact hb

/-- The induction variable grows by the step. -/
theorem exists_isIncrement : ∃ j, IsIncrement f l c (f.inst c.iv).ty j := by
  obtain ⟨j, added, hnext, hadd, hstep, hin, hmem⟩ := h.exists_next hf hl
  have htj : (f.inst j).ty = (f.inst c.iv).ty := h.typeOf_incoming hf ht hl hnext
  unfold Loop.increment? at hadd
  dsimp only at hadd
  split at hadd
  swap
  · cases hadd
  rename_i x y hop
  have htyped : [f.typeOf x, f.typeOf y] = [(f.inst j).ty, (f.inst j).ty] :=
    (ht _ _ (Func.mem_body_of_mem_nonPhis hmem)).apply _ _ hop
  rw [htj] at htyped
  obtain ⟨hx, hy⟩ : f.typeOf x = (f.inst c.iv).ty ∧ f.typeOf y = (f.inst c.iv).ty := by
    simpa using htyped
  obtain ⟨ty, rfl⟩ : ∃ ty, added = .const ⟨ty, .int c.step⟩ := by
    unfold Value.int? at hstep
    split at hstep
    · cases hstep
      exact ⟨_, rfl⟩
    · cases hstep
  have hc : l.contains (f.inst j).block = true := List.contains_iff_mem.mpr hin
  rw [hc] at hadd
  have hcases : (x = .inst c.iv ∧ y = .const ⟨(f.inst c.iv).ty, .int c.step⟩ ∨
      y = .inst c.iv ∧ x = .const ⟨(f.inst c.iv).ty, .int c.step⟩) := by
    by_cases e1 : x = .inst c.iv
    · simp only [e1, Bool.not_true, Bool.false_eq_true, if_false, if_true, Option.some.injEq] at hadd
      subst hadd
      have hy : ty = (f.inst c.iv).ty := hy
      exact .inl ⟨e1, by rw [hy]⟩
    · by_cases e2 : y = .inst c.iv
      · simp only [e1, e2, Bool.not_true, Bool.false_eq_true, if_false, if_true,
          Option.some.injEq] at hadd
        subst hadd
        have hx : ty = (f.inst c.iv).ty := hx
        exact .inr ⟨e2, by rw [hx]⟩
      · simp [e1, e2] at hadd
  exact ⟨j, hnext, hin, hmem, ⟨x, y, hop, hcases⟩, htj⟩

/-- The step is a number of the type of the induction variable. -/
theorem increment {w : Nat} (hw : (f.inst c.iv).ty = .int w) : Word.Normal w c.step ∧
    ∃ j, IsIncrement f l c (.int w) j := by
  obtain ⟨j, hj⟩ := h.exists_isIncrement hf ht hl
  rw [hw] at hj
  obtain ⟨x, y, hop, hxy⟩ := hj.op
  have htyped : Value.IsTyped (.const ⟨.int w, .int c.step⟩) := by
    refine (ht _ _ (Func.mem_body_of_mem_nonPhis hj.mem_nonPhis)).inputs _ ?_
    rw [Run.inputs_of_op hop]
    rcases hxy with ⟨-, rfl⟩ | ⟨-, rfl⟩ <;> simp
  refine ⟨?_, j, hj⟩
  rcases htyped with e | ⟨n, e, hn⟩
  · cases e
  · cases e
    exact hn

end

end IsCounted

end Loop

end Lockstep
