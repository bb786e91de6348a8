import Lockstep.Proofs.Loop.SplitSound

/-!
# The visits to the header of a counted loop

What the recognition of a counted loop says is what a single-lane run does
(`Loop.visits_of_counted`). Whenever control comes to the header, it comes from the preheader, and
the induction variable takes the value of the start, or it comes from the latch and has been in the
loop since it was at the header before, and the induction variable has grown by the step while the
bound is still the same. The loop goes on as long as the comparison of the two holds.
-/

namespace Lockstep

open Run

namespace Loop

/-- Control comes to the header of a loop, which finds `x` for the induction variable and `y` for the
bound and goes on to `n`. -/
structure Visit (s : Setup) (f : Func) (start : Machine) (l : Loop) (c : CountedLoop)
    (pred : Option BlockId) (m : Machine) (x y : Int64) (n : BlockId) (m' : Machine) : Prop where
  arrives : Arrives s f start pred l.header m
  block : block s f pred l.header m = (.ok (.inl n), m')
  iv : m'.value 1 (.inst c.iv) = [.int x]
  bound : m'.value 1 c.bound = [.int y]

/-- Control has stayed in the loop behind its header since a visit to it, for `k` blocks. -/
structure Since (s : Setup) (f : Func) (start : Machine) (l : Loop) (c : CountedLoop) (k : Nat)
    (x y : Int64) (pred : Option BlockId) (b : BlockId) (m : Machine) : Prop where
  visit : ∃ pred0 m0 n0 m0', Visit s f start l c pred0 m0 x y n0 m0' ∧ n0 ∈ l.blocks ∧
    Passes s f k (some l.header) n0 m0' pred b m
  inside : ∀ d ∈ m.path.take k, d ∈ l.blocks ∧ d ≠ l.header

variable {s : Setup} {f : Func} {l : Loop} {c : CountedLoop} {j : InstId} {start m m1 : Machine}
  {pred : Option BlockId} {b n : BlockId} {D : BlockId → Prop} {x y : Int64} {k : Nat}

theorem Visit.since (h : Visit s f start l c pred m x y n m1) (hn : n ∈ l.blocks) :
    Since s f start l c 0 x y (some l.header) n m1 :=
  ⟨⟨pred, m, n, m1, h, hn, .refl _ _ _⟩, nofun⟩

/-- Control stays in the loop for one more block. -/
theorem Since.tail (h : Since s f start l c k x y pred b m) (hb : b ∈ l.blocks)
    (hne : b ≠ l.header) (e : Run.block s f pred b m = (.ok (.inl n), m1)) :
    Since s f start l c (k + 1) x y (some b) n m1 := by
  obtain ⟨pred0, m0, n0, m0', hv, hn0, hp⟩ := h.visit
  refine ⟨⟨pred0, m0, n0, m0', hv, hn0, hp.tail e⟩, fun d hd => ?_⟩
  rw [path_block e, List.take_succ_cons] at hd
  rcases List.mem_cons.mp hd with rfl | hd
  · exact ⟨hb, hne⟩
  · exact h.inside d hd

section

variable (hf : f.Ssa) (ht : f.TypesAgree) (hl : l ∈ (Analyses.ofFunc f).loops.loops)
  (h : l.IsCounted f c) (hj : IsIncrement f l c (f.inst c.iv).ty j) (hw : s.width = 1)
  (hstart : start.Full 1) (hsize : start.values.size = f.insts.size)

include hf ht hl h hw hstart hsize

/-- The header goes on in the loop if the comparison of induction variable and bound holds. -/
theorem exists_visit_of_arrives (ha : Arrives s f start pred l.header m)
    {r : BlockId ⊕ Option Lanes} (e : Run.block s f pred l.header m = (.ok r, m1)) :
    ∃ v x y n, Visit s f start l c pred m x y n m1 ∧
      pred.bind (f.incomingValue? c.iv) = some v ∧ m.value 1 v = [.int x] ∧
      m.value 1 c.bound = [.int y] ∧
      c.stayOp.eval (.int x) (.int y) (f.inst c.iv).ty = .ok (.bool (decide (n ∈ l.blocks))) ∧
      (n ∈ l.blocks → n = c.shape.continueTarget) := by
  obtain ⟨onTrue, onFalse, hterm, -, -⟩ := h.singleExit.term
  rw [h.exiting] at hterm
  obtain ⟨n, rfl⟩ : ∃ n, r = .inl n := by
    obtain ⟨-, -, -, hway⟩ := block_eq_ok_iff.mp e
    cases r with
    | inl n => exact ⟨n, rfl⟩
    | inr ret =>
      obtain ⟨v, hv, -⟩ := ret_of_wayOut hway
      cases hterm.symm.trans hv
  have hfull : m.Full 1 := by
    rw [← hw] at hstart ⊢
    exact ha.full hstart
  obtain ⟨v, x, y, stay, hv, hx, hy, hiv, hbound, hstay, hn⟩ :=
    h.exists_visit hf hl ht hw hfull (ha.size.trans hsize) e
  obtain ⟨-, -, hcont⟩ := h.singleExit.continueTarget_mem hf.toClosed hl
    (h.singleExit.exiting_nodup hf.toClosed hl)
  obtain ⟨-, -, -, hout⟩ := h.singleExit.exiting_mem hf.toClosed hl
  have hmem : decide (n ∈ l.blocks) = stay := by
    cases stay with
    | true => exact decide_eq_true (hn ▸ hcont)
    | false => exact decide_eq_false (hn ▸ hout)
  refine ⟨v, x, y, n, ⟨ha, e, hiv, hbound⟩, hv, hx, hy, ?_, fun hin => ?_⟩
  · rw [hmem]
    exact CmpOp.eval_ints hstay
  · rw [decide_eq_true hin] at hmem
    rw [hn, ← hmem]
    rfl

include hj

/-- A run that is in the loop has entered it, and has not left it since. -/
theorem since_of_arrives (ha : Arrives s f start pred b m) (hb : b ∈ l.blocks) :
    (b = l.header ∧ pred = some c.shape.preheader) ∨ ∃ k x y, Since s f start l c k x y pred b m ∧
      (b ≠ l.header → ∃ D, InTurn f l c j x y D b m) ∧
      (b = l.header → pred = some c.shape.latch ∧ m.value 1 c.bound = [.int y] ∧
        m.value 1 (.inst j) =
          [.int (Word.wrap (f.inst c.iv).ty.intWidth (x.toInt + c.step.toInt))]) := by
  have hc := hf.toClosed
  induction ha with
  | entry => exact absurd hb (h.singleExit.entry_not_mem hc hl hf.entry_pred)
  | @next pred p n m m1 ha e1 ih =>
    have htarget := target_of_block e1
    by_cases hp : p ∈ l.blocks
    · by_cases hheader : p = l.header
      · subst hheader
        obtain ⟨-, x, y, n', hv, -, -, -, -, hcont⟩ :=
          exists_visit_of_arrives hf ht hl h hw hstart hsize ha e1
        cases hv.block.symm.trans e1
        obtain rfl := hcont hb
        have hturn := inTurn_of_visit hf hl h hj hw (ha.size.trans hsize) e1 hv.iv hv.bound
        exact .inr ⟨0, x, y, hv.since hb, fun _ => ⟨_, hturn⟩, fun e => absurd e hturn.ne⟩
      · obtain ⟨e', -⟩ | ⟨k, x, y, hsince, hbody, -⟩ := ih hp
        · exact absurd e' hheader
        obtain ⟨D, hturn⟩ := hbody hheader
        obtain ⟨-, hbody', hheader'⟩ :=
          hturn.step hf hl h hj hw ha.reachable (ha.size.trans hsize) e1
        refine .inr ⟨k + 1, x, y, hsince.tail hp hheader e1, fun hne => ⟨_, hbody' hne⟩, ?_⟩
        rintro e'
        obtain ⟨rfl, -, hbound, hsum⟩ := hheader' e'
        exact ⟨rfl, hbound, hsum⟩
    · obtain rfl := LoopForest.eq_header_of_entering hc hl h.singleExit.reducible ha.reachable hp hb
        htarget
      rcases h.singleExit.eq_of_entering hc hl ha.reachable htarget with ⟨rfl, -⟩ | ⟨-, hin⟩
      · exact .inl ⟨rfl, rfl⟩
      · exact absurd hin hp

end

/-- A recognized counted loop counts. In a single-lane run that returns, control comes to the header
from the preheader, and the induction variable is what the start was, or from the latch, and it is
the step more than at the visit before, while the bound is the same. From the header control goes
on in the loop exactly if the comparison of the two holds. -/
theorem visits_of_counted (hf : f.Ssa) (ht : f.TypesAgree)
    (hl : l ∈ (Analyses.ofFunc f).loops.loops) (hc : l.counted f (.ofFunc f) = .ok c)
    (hw : s.width = 1) {args : List Lanes} {memory : Array Scalar} {ret : Option Lanes}
    {last : Machine} (e : f.run s args memory = (.ok ret, last))
    (ha : Arrives s f (startMachine s f args memory) pred l.header m) : ∃ x y n m',
      Visit s f (startMachine s f args memory) l c pred m x y n m' ∧
      c.stayOp.eval (.int x) (.int y) (f.inst c.iv).ty = .ok (.bool (decide (n ∈ l.blocks))) ∧
      (pred = some c.shape.preheader ∧ m.value 1 c.start = [.int x] ∨
        pred = some c.shape.latch ∧ ∃ k x0,
          Since s f (startMachine s f args memory) l c k x0 y pred l.header m ∧
          x = Word.wrap (f.inst c.iv).ty.intWidth (x0.toInt + c.step.toInt)) := by
  obtain ⟨params, hp⟩ := Func.exists_arguments e
  obtain rfl := arguments_one hw hp
  rw [Func.run_eq hp] at e
  have h := isCounted_of_eq_ok hc
  obtain ⟨j, hj⟩ := h.exists_isIncrement hf ht hl
  have hstart : (startMachine s f params memory).Full 1 := by
    have hfull := full_start (length_of_mem_arguments hp) f.insts.size memory
    unfold startMachine
    rw [hw] at hfull ⊢
    exact hfull
  have hsize : (startMachine s f params memory).values.size = f.insts.size := Array.size_replicate
  obtain ⟨r, m', e'⟩ := ha.exists_block e
  obtain ⟨v, x, y, n, hvisit, hv, hx, hy, hstay, -⟩ :=
    exists_visit_of_arrives hf ht hl h hw hstart hsize ha e'
  refine ⟨x, y, n, m', hvisit, hstay, ?_⟩
  rcases since_of_arrives hf ht hl h hj hw hstart hsize ha (LoopForest.header_mem hl) with
    ⟨-, rfl⟩ | ⟨k, x0, y0, hsince, -, hheader⟩
  · cases h.start.symm.trans hv
    exact .inl ⟨rfl, hx⟩
  · obtain ⟨rfl, hbound, hsum⟩ := hheader rfl
    cases hj.incoming.symm.trans hv
    cases hy.symm.trans hbound
    cases hx.symm.trans hsum
    exact .inr ⟨rfl, k, x0, hsince, rfl⟩

/-- Goes up by three, which is the left operand of the sum, until the argument is not above it. -/
def countByThree : Func where
  params := [.int 8]
  retTy := .int 8
  blocks := #[
    { term := .br 1 },
    { insts := [0, 1], term := .brIf (.inst 1) 3 2 },
    { insts := [2], term := .br 1 },
    { term := .ret (some (.inst 0)) }]
  insts := #[
    { op := .phi [(0, .ofInt (.int 8) (-10)), (2, .inst 2)], ty := .int 8, block := 1 },
    { op := .apply (.cmp .ule) [.param 0, .inst 0], ty := .bool, block := 1 },
    { op := .apply (.binary .add) [.ofInt (.int 8) 3, .inst 0], ty := .int 8, block := 2 }]
  layout := [0, 1, 2, 3]

/-- A run as far as the second visit to the header. -/
theorem arrives_countByThree : ∃ m, Arrives (singleLane 20) countByThree
    (startMachine (singleLane 20) countByThree [[.int (-2)]] #[]) (some 2) 1 m := by
  have h : ∃ x ∈ walk (singleLane 20) countByThree 3 none countByThree.entry
      (startMachine (singleLane 20) countByThree [[.int (-2)]] #[]),
        x.1 = some 2 ∧ x.2.1 = 1 := by
    decide +kernel
  obtain ⟨⟨-, -, m⟩, hm, rfl, rfl⟩ := h
  exact ⟨m, Arrives.entry.passes (passes_of_walk hm)⟩

theorem exists_run_countByThree : ∃ m,
    countByThree.run (singleLane 20) [[.int (-2)]] #[] = (.ok (some [.int (-1)]), m) := by
  have h : (countByThree.run (singleLane 20) [[.int (-2)]] #[]).1 = .ok (some [.int (-1)]) := by
    decide +kernel
  generalize countByThree.run (singleLane 20) [[.int (-2)]] #[] = r at h ⊢
  exact ⟨r.2, Prod.ext h rfl⟩

/-- The counter comes back to the header with what it was and three. -/
theorem visits_of_counted_countByThree : ∃ l ∈ (Analyses.ofFunc countByThree).loops.loops,
    ∃ c, l.counted countByThree (.ofFunc countByThree) = .ok c ∧ c.stayOp = .ult ∧ ∃ m,
      let s := singleLane 20
      let start := startMachine s countByThree [[.int (-2)]] #[]
      Arrives s countByThree start (some 2) l.header m ∧ ∃ x y n m',
        Visit s countByThree start l c (some 2) m x y n m' ∧
        c.stayOp.eval (.int x) (.int y) (.int 8) = .ok (.bool (decide (n ∈ l.blocks))) ∧
        ∃ k x0, Since s countByThree start l c k x0 y (some 2) l.header m ∧
          x = Word.wrap 8 (x0.toInt + c.step.toInt) := by
  have h : countByThree.Checks ∧
      firstOf countByThree ∈ (Analyses.ofFunc countByThree).loops.loops ∧
      (firstOf countByThree).header = 1 ∧
      ∃ c ∈ ((firstOf countByThree).counted countByThree (.ofFunc countByThree)).toOption,
        c.stayOp = .ult ∧ (countByThree.inst c.iv).ty = .int 8 ∧ c.shape.preheader = 0 := by
    decide +kernel
  obtain ⟨hchecks, hl, hheader, c, hsome, hult, hty, hpre⟩ := h
  generalize firstOf countByThree = l at hl hheader hsome
  have hc : l.counted countByThree (.ofFunc countByThree) = .ok c := by
    generalize l.counted countByThree (.ofFunc countByThree) = r at hsome ⊢
    cases r with
    | ok _ => exact congrArg Except.ok (Option.some.inj hsome)
    | error _ => cases hsome
  obtain ⟨m, ha⟩ := arrives_countByThree
  obtain ⟨last, e⟩ := exists_run_countByThree
  rw [← hheader] at ha
  obtain ⟨x, y, n, m', hvisit, hstay, ⟨hfirst, -⟩ | ⟨-, k, x0, hsince, hx⟩⟩ :=
    visits_of_counted hchecks.wellFormed hchecks.wellTyped hl hc rfl e ha
  · rw [hpre] at hfirst
    cases hfirst
  · rw [hty] at hstay hx
    exact ⟨l, hl, c, hc, hult, m, ha, x, y, n, m', hvisit, hstay, k, x0, hsince, hx⟩

end Loop

end Lockstep
