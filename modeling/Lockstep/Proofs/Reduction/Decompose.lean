import Lockstep.Proofs.Func.Check
import Lockstep.Proofs.Reduction.Restart

/-!
# Reductions decompose

An iteration of the loop can be run from the neutral element instead of the accumulator, and what
comes out at the latch can be folded into the accumulator afterwards (`Reduction.exists_restart`). The
iteration takes the same way, and does the same to the outside.
-/

namespace Lockstep

open Run

namespace Run

variable {s : Setup} {f : Func} {l : Loop} {start m m2 : Machine} {pred pred' : Option BlockId}
  {b b' q : BlockId} {k : Nat}

/-- The blocks that a run goes through, newest first. -/
theorem Passes.exists_path (h : Passes s f (k + 1) pred b m pred' b' m2) :
    ∃ passed, m2.path = passed ++ b :: m.path := by
  induction k generalizing pred b m with
  | zero =>
    cases h with
    | step e h =>
      cases h
      exact ⟨[], path_block e⟩
  | succ k ih =>
    cases h with
    | step e h =>
      obtain ⟨passed, hpassed⟩ := ih h
      exact ⟨passed ++ [_], by rw [hpassed, path_block e, List.append_assoc]; rfl⟩

/-- In a run control comes to the header of a loop, and comes back to it from the block `q`, without
having left the loop. -/
structure Iteration (s : Setup) (f : Func) (start : Machine) (l : Loop) (pred : Option BlockId)
    (m : Machine) (q : BlockId) (m2 : Machine) : Prop where
  arrives : Arrives s f start pred l.header m
  passes : ∃ k, Passes s f k pred l.header m (some q) l.header m2
  inside : ∃ passed, m2.path = passed ++ l.header :: m.path ∧
    ∀ d ∈ passed, d ∈ l.blocks ∧ d ≠ l.header

/-- Passing blocks of a loop until control is back at the header is going on with an iteration. -/
theorem exists_resumes_of_passes {passed : List BlockId}
    (h : Passes s f k pred b m (some q) l.header m2) (hpath : m2.path = passed ++ b :: m.path)
    (hin : ∀ d ∈ passed, d ∈ l.blocks ∧ d ≠ l.header) : ∃ m1 log,
      phis s f pred b { m with path := b :: m.path } = (.ok (), m1) ∧
        Resumes s f l b m1 log q m2 := by
  induction k generalizing pred b m passed with
  | zero =>
    cases h
    have hlength := congrArg List.length hpath
    rw [List.length_append, List.length_cons] at hlength
    omega
  | succ k ih =>
    cases h with
    | @step _ _ _ _ _ c _ m1 _ e h =>
      obtain ⟨mb, hphis, hops, hway⟩ := block_eq_ok_iff.mp e
      have hleave : leave s f b m1 = (.ok (.inl c), m1) := by rw [leave_apply, hway]
      cases k with
      | zero =>
        cases h
        exact ⟨mb, _, hphis, .back hops hleave⟩
      | succ k =>
        -- the next block is the last of those that have been passed
        obtain ⟨passed', hpassed⟩ := h.exists_path
        have hsplit : passed = passed' ++ [c] := by
          rw [hpath, path_block e] at hpassed
          exact List.append_cancel_right (hpassed.trans (List.append_cons _ _ _))
        have hc := hin c (by simp [hsplit])
        obtain ⟨mc, log, hphis', hres⟩ := ih h hpassed fun d hd => hin d (by simp [hsplit, hd])
        exact ⟨mb, _, hphis, .step hops hleave hc.1 hc.2 hphis' hres⟩

end Run

namespace Reduction

/-- After the phis of the header the root is the only element that has been executed, and the neutral
element may stand for it. -/
theorem Folded.ofNeutral {f : Func} {l : Loop} {r : Reduction} {n : Const} {p : Scalar} {m : Machine}
    (hf : f.Ssa) (hc : r.IsChain f l) (hk : r.kind.isFloat = false)
    (hn : r.kind.neutral? (f.inst r.phi).ty = some n) (hphi : r.phi ∈ f.phis l.header)
    (hsize : m.values.size = f.insts.size) (hp : m.value 1 (.inst r.phi) = [p])
    (hpty : p.HasTy (f.inst r.phi).ty) :
    Folded f f id r p (fun j => f.DefinedIn (fun _ => False) j ∨ j ∈ f.phis l.header) m
      (m.setValue r.phi [n.val]) := by
  have hlt : r.phi < m.values.size := by
    rw [hsize]
    exact hf.body_lt _ _ (Func.mem_body_of_mem_phis hphi)
  have hagrees : m.Agrees f f id (fun i => i < f.insts.size ∧ i ∉ r.elements) m :=
    ⟨hsize, hsize, fun _ hi => hi.1, rfl, rfl, rfl, fun _ _ => rfl⟩
  refine ⟨hagrees.setValue_right (fun j hj (e : j = r.phi) => hj.2 (e ▸ hc.phi_element)) _, rfl,
    fun e0 he0 hS => ?_⟩
  obtain ⟨d, hd, -⟩ | hphi0 := hS
  · exact hd.elim
  obtain rfl : e0 = r.phi := by
    by_contra hne
    exact (hc.phi e0 he0 hne (Func.isPhi_of_mem_phis hphi0)).1 (Func.mem_body_of_mem_phis hphi0)
  exact ⟨rfl, p, n.val, hp, Machine.value_setValue_self _ hlt, ReductionKind.hasTy_neutral hk hn,
    ReductionKind.eval_neutral hk hn hpty⟩

/-- A reduction decomposes. In a single-lane run that returns, an iteration of the loop that comes to
the back edge goes the same way, with the same loads, stores and calls, if the neutral element is put
in the place of the accumulator `p` after the phis of the header. What the accumulator is then at the
latch, accumulated to `p`, is what it was. -/
theorem exists_restart {s : Setup} {f : Func} {l : Loop} {r : Reduction} {n : Const}
    {args : List Lanes} {memory : Array Scalar} {ret : Option Lanes} {m m2 last : Machine}
    {pred : Option BlockId} {q : BlockId} (hf : f.Ssa) (ht : f.TypesAgree)
    (hr : r ∈ findAll f (Analyses.ofFunc f).loops) (hk : r.kind.isFloat = false)
    (hn : r.kind.neutral? (f.inst r.phi).ty = some n) (hw : s.width = 1)
    (e : f.run s args memory = (.ok ret, last)) (hargs : ArgsTyped f args)
    (hout : OutsideTyped s f (startMachine s f args memory))
    (hl : l ∈ (Analyses.ofFunc f).loops.loops) (hphi : r.phi ∈ f.phis l.header)
    (hi : Iteration s f (startMachine s f args memory) l pred m q m2) : ∃ m1 log m2' p x x',
      phis s f pred l.header { m with path := l.header :: m.path } = (.ok (), m1) ∧
      Resumes s f l l.header m1 log q m2 ∧
      Resumes s f l l.header (m1.setValue r.phi [n.val]) log q m2' ∧
      m2'.path = m2.path ∧ m2'.memory = m2.memory ∧ m2'.callLog = m2.callLog ∧
      f.incomingValue? r.phi q = some r.latchValue ∧ m1.value 1 (.inst r.phi) = [p] ∧
      m2.value 1 r.latchValue = [x] ∧ m2'.value 1 r.latchValue = [x'] ∧
      r.kind.binOp.eval p x' (f.inst r.phi).ty = .ok x := by
  obtain ⟨params, hparams⟩ := Func.exists_arguments e
  obtain rfl := arguments_one hw hparams
  have R := singleLane_start hw hargs hout hparams
  have hc := isChain_of_mem_findAll hf hr hl hphi
  have hheader := LoopForest.header_mem hl
  obtain ⟨htyped, hfull, hsize⟩ := R.arrives ht hi.arrives
  obtain ⟨k, hpasses⟩ := hi.passes
  obtain ⟨passed, hpath, hin⟩ := hi.inside
  obtain ⟨m1, log, hphis, hres⟩ := exists_resumes_of_passes hpasses hpath hin
  have hnone : f.nonPhis l.header = [] ++ f.nonPhis l.header := (List.nil_append _).symm
  have htyped1 := typed_before ht R.outside hi.arrives htyped hphis hnone rfl
  have hfull1 : m1.Full 1 := by
    rw [← hw] at hfull ⊢
    have hvisit : Machine.Full s.width { m with path := l.header :: m.path } :=
      hfull.ofEq rfl rfl
    exact full_phis hvisit hphis
  have hsize1 : m1.values.size = f.insts.size := by
    rw [size_phis hphis]
    exact hsize
  obtain ⟨p, hp⟩ := List.length_eq_one_iff.mp (hfull1.value (.inst r.phi))
  have hpty : p.HasTy (f.inst r.phi).ty := by
    have h := htyped1.value (v := .inst r.phi) trivial 1 0
    rw [hp] at h
    exact h
  have hstart := Folded.ofNeutral hf hc hk hn hphi hsize1 hp hpty
  obtain ⟨m2', D', hres', hfolded, hq, hpathq, hqmem, htarget⟩ := Folded.exists_resumes hf hw ht hc
    hk hn hpty R hres hi.arrives hphis hheader
    ((LoopForest.path_header hf.toClosed hl).mono fun _ => .inl) hstart
  have hreachq := Cfg.reachable_of_path hpathq
  obtain ⟨v, hv, havail⟩ := hf.exists_incoming hreachq htarget hphi
  obtain rfl := hc.incoming hqmem hv
  obtain ⟨e0, he0, hlatch⟩ := hc.latch
  have hS : f.DefinedIn D' e0 := by
    rw [hlatch] at havail
    exact hc.definedIn hf he0 (havail.within_end hpathq (.inr hq))
  obtain ⟨x, x', hx, hx', -, hfold⟩ := (hfolded.folds e0 he0 hS).values
  rw [← hlatch] at hx hx'
  exact ⟨m1, log, m2', p, x, x', hphis, hres, hres', hfolded.path, hfolded.agrees.memory,
    hfolded.agrees.callLog, hv, hp, hx, hx', hfold⟩

/-- Adds up the numbers below the first argument, the number one twice, and stores each where the second
argument says. -/
def sumBelow : Func where
  params := [.int 8, .ptr (.int 8)]
  retTy := .int 8
  blocks := #[
    { term := .br 1 },
    { insts := [0, 1, 2], term := .brIf (.inst 2) 2 5 },
    { insts := [3, 4, 5], term := .brIf (.inst 5) 3 4 },
    { insts := [6], term := .br 4 },
    { insts := [7, 8], term := .br 1 },
    { term := .ret (some (.inst 0)) }]
  insts := #[
    { op := .phi [(0, .ofInt (.int 8) 100), (4, .inst 7)], ty := .int 8, block := 1 },
    { op := .phi [(0, .ofInt (.int 8) 0), (4, .inst 8)], ty := .int 8, block := 1 },
    { op := .apply (.cmp .slt) [.inst 1, .param 0], ty := .bool, block := 1 },
    { op := .apply (.binary .add) [.inst 1, .inst 0], ty := .int 8, block := 2 },
    { op := .apply .store [.param 1, .inst 1], ty := .void, block := 2 },
    { op := .apply (.cmp .eq) [.inst 1, .ofInt (.int 8) 1], ty := .bool, block := 2 },
    { op := .apply (.binary .add) [.inst 3, .inst 1], ty := .int 8, block := 3 },
    { op := .phi [(2, .inst 3), (3, .inst 6)], ty := .int 8, block := 4 },
    { op := .apply (.binary .add) [.inst 1, .ofInt (.int 8) 1], ty := .int 8, block := 4 }]
  layout := [0, 1, 2, 3, 4, 5]

/-- The second iteration, in which the number one is added twice. -/
theorem exists_iteration_sumBelow {l : Loop} (hheader : l.header = 1)
    (hblocks : l.blocks = [1, 2, 3, 4]) : ∃ m m2, Iteration { width := 1, limit := 20 } sumBelow
      (startMachine { width := 1, limit := 20 } sumBelow [[.int 2], [.int 0]] #[.int 9]) l (some 4) m
      4 m2 := by
  have h : ∃ x ∈ walk { width := 1, limit := 20 } sumBelow 4 none sumBelow.entry
      (startMachine { width := 1, limit := 20 } sumBelow [[.int 2], [.int 0]] #[.int 9]),
      (x.1 = some 4 ∧ x.2.1 = 1) ∧ ∃ y ∈ walk { width := 1, limit := 20 } sumBelow 4 x.1 x.2.1 x.2.2,
        (y.1 = some 4 ∧ y.2.1 = 1) ∧ y.2.2.path = [4, 3, 2] ++ 1 :: x.2.2.path := by
    decide +kernel
  obtain ⟨⟨-, -, m⟩, hm, ⟨rfl, rfl⟩, ⟨-, -, m2⟩, hm2, ⟨rfl, rfl⟩, hpath⟩ := h
  refine ⟨m, m2, ?_, ⟨4, ?_⟩, [4, 3, 2], ?_, ?_⟩
  · rw [hheader]
    exact Arrives.entry.passes (passes_of_walk hm)
  · rw [hheader]
    exact passes_of_walk hm2
  · rw [hheader]
    exact hpath
  · simp [hheader, hblocks]

theorem argsTyped_sumBelow : ArgsTyped sumBelow [[.int 2], [.int 0]] :=
  argsTyped_of_forall₂ (by decide +kernel)

theorem exists_run_sumBelow : ∃ last, sumBelow.run { width := 1, limit := 20 } [[.int 2], [.int 0]]
    #[.int 9] = (.ok (some [.int 102]), last) := by
  have h : (sumBelow.run { width := 1, limit := 20 } [[.int 2], [.int 0]] #[.int 9]).1 =
      .ok (some [.int 102]) := by
    decide +kernel
  generalize sumBelow.run { width := 1, limit := 20 } [[.int 2], [.int 0]] #[.int 9] = r at h ⊢
  exact ⟨r.2, Prod.ext h rfl⟩

/-- In the second iteration two numbers are added from zero on, and then to the sum of the others. -/
theorem exists_restart_sumBelow : ∃ r ∈ findAll sumBelow (Analyses.ofFunc sumBelow).loops,
    ∃ n ∈ r.kind.neutral? (sumBelow.inst r.phi).ty,
    ∃ l ∈ (Analyses.ofFunc sumBelow).loops.loops, r.phi ∈ sumBelow.phis l.header ∧ ∃ m m2,
      let s : Setup := { width := 1, limit := 20 }
      Iteration s sumBelow (startMachine s sumBelow [[.int 2], [.int 0]] #[.int 9]) l (some 4) m 4
        m2 ∧
      ∃ m1 log m2' p x x', Resumes s sumBelow l l.header m1 log 4 m2 ∧
        Resumes s sumBelow l l.header (m1.setValue r.phi [n.val]) log 4 m2' ∧
        m1.value 1 (.inst r.phi) = [p] ∧ m2.value 1 r.latchValue = [x] ∧
        m2'.value 1 r.latchValue = [x'] ∧ r.kind.binOp.eval p x' (.int 8) = .ok x := by
  have h : sumBelow.Checks ∧ ∃ r ∈ findAll sumBelow (Analyses.ofFunc sumBelow).loops,
      r.kind.isFloat = false ∧ (sumBelow.inst r.phi).ty = .int 8 ∧
      (∃ n ∈ r.kind.neutral? (sumBelow.inst r.phi).ty, n.ty = .int 8) ∧
      ∃ l ∈ (Analyses.ofFunc sumBelow).loops.loops, r.phi ∈ sumBelow.phis l.header ∧
        l.header = 1 ∧ l.blocks = [1, 2, 3, 4] := by
    decide +kernel
  obtain ⟨hchecks, r, hr, hk, hty, ⟨n, hn, -⟩, l, hl, hphi, hheader, hblocks⟩ := h
  obtain ⟨last, e⟩ := exists_run_sumBelow
  obtain ⟨m, m2, hi⟩ := exists_iteration_sumBelow hheader hblocks
  have hout : OutsideTyped { width := 1, limit := 20 } sumBelow
      (startMachine { width := 1, limit := 20 } sumBelow [[.int 2], [.int 0]] #[.int 9]) :=
    outsideTyped_of_not_isPlain (by decide)
  obtain ⟨m1, log, m2', p, x, x', -, hres, hres', -, -, -, -, hp, hx, hx', hfold⟩ :=
    exists_restart hchecks.wellFormed hchecks.wellTyped hr hk hn rfl e argsTyped_sumBelow hout hl
      hphi hi
  rw [hty] at hfold
  exact ⟨r, hr, n, hn, l, hl, hphi, m, m2, hi, m1, log, m2', p, x, x', hres, hres', hp, hx, hx',
    hfold⟩

end Reduction

end Lockstep
