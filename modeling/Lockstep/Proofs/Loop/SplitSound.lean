import Lockstep.Proofs.Func.Check
import Lockstep.Proofs.Loop.Trips

/-!
# Splitting off a remainder preserves the program

A function with a remainder split off from one of its loops returns what the function returns, and
leaves the same memory after the same calls (`Loop.exists_run_split`), if the header of the loop
neither stores nor calls: the header is passed once more than before. The main loop makes the turns
that fill whole vectors, and the remainder makes the others (`Loop.exists_turns_split`), if the
induction variable does not wrap around.
-/

namespace Lockstep

open Run

/-- Every increment of the induction variable that a run makes leads further in the order of the
exit test: the induction variable does not wrap around. -/
def CountedLoop.NeverWraps (c : CountedLoop) (s : Setup) (f : Func) (start : Machine) : Prop :=
  ∀ w j, (f.inst c.iv).ty = .int w → f.incomingValue? c.iv c.shape.latch = some (.inst j) →
    Counts.Increments s f c j start (c.Below w)

namespace Loop

/-- An induction variable that grows by one behind the exit test does not wrap around. -/
theorem neverWraps_of_step_one {s : Setup} {f : Func} {l : Loop} {c : CountedLoop} {start : Machine}
    (hf : f.WellFormed) (ht : f.WellTyped) (hnd : ∀ b, (f.term b).targets.Nodup)
    (hl : l ∈ (Analyses.ofFunc f).loops.loops) (hc : l.splittable f (.ofFunc f) = .ok c)
    (hty : (f.inst c.iv).ty ≠ .int 0) (hone : c.step = 1)
    (hbehind : ∀ j ∈ f.body l.header, f.incomingValue? c.iv c.shape.latch ≠ some (.inst j))
    (R : SingleLane s f start) : c.NeverWraps s f start := by
  intro w j hw hj
  have hcounted := (splittable_eq_ok hc).1
  obtain ⟨hstep, j', hj'⟩ := hcounted.increment hf ht hl hw
  cases hj.symm.trans hj'.incoming
  have H : Counts f l c w j := ⟨hf, ht, hnd, hl, hcounted, hw, hstep, hj'⟩
  exact H.increments_below_of_step_one R (Nat.pos_of_ne_zero fun e => hty (e ▸ hw)) hone
    fun hmem => hbehind j hmem hj

section

variable {f : Func} {l : Loop} {uniform : List Value} {width align : Nat} {sp : Loop.Split}
  {s s' : Setup} {args : List Lanes} {memory : Array Scalar} {ret : Option Lanes} {m : Machine}
  (hf : f.WellFormed) (ht : f.WellTyped) (hnd : ∀ b, (f.term b).targets.Nodup)
  (hl : l ∈ (Analyses.ofFunc f).loops.loops)
  (hsplit : l.split? f (.ofFunc f) uniform width align = some sp)
  (hq : ∀ i ∈ f.nonPhis l.header, (f.inst i).op.isQuiet = true)
  (hs : s.Alike s') (hw : s.width = 1) (hlimit : 3 * s.limit ≤ s'.limit)
  (hargs : ArgsTyped f args) (hout : OutsideTyped s f (startMachine s f args memory))
  (e : f.run s args memory = (.ok ret, m))

include hf ht hnd hl hsplit hq hs hw hargs hout e hlimit

/-- A single-lane run that returns is matched by one of the function with the split loop, in which
main loop and remainder share the turns. -/
theorem exists_run_shares {rem : RemainderLoop} (hrem : sp.loop.remainder = some rem)
    (P : CountedLoop → Nat → Int64 → Int64 → Prop)
    (hP : ∀ c w j, l.splittable f (.ofFunc f) = .ok c → (f.inst c.iv).ty = .int w →
      f.incomingValue? c.iv c.shape.latch = some (.inst j) →
      Counts.Increments s f c j (startMachine s f args memory) (P c w)) :
    ∃ c w m', l.splittable f (.ofFunc f) = .ok c ∧ (f.inst c.iv).ty = .int w ∧
      widthFits width w = true ∧ sp.func.run s' args memory = (.ok ret, m') ∧
      m'.memory = m.memory ∧ m'.callLog = m.callLog ∧
      Shares (c.MainPart w (Int64.ofNat width) (P c w)) l rem m.trace m'.trace := by
  obtain ⟨params, hp⟩ := Func.exists_arguments e
  obtain rfl := arguments_one hw hp
  rcases exists_splitSteps hf hl hsplit with ⟨-, hnone⟩ | ⟨c, w, ρ, β, _, f1, g, hc, hty, hfits,
    hsteps, hloop, hheader, hblocks⟩
  · rw [hnone] at hrem
    cases hrem
  rw [hloop] at hrem
  cases hrem
  have hcounted := (splittable_eq_ok hc).1
  rw [hcounted.typeOf_incoming hf ht hl hcounted.start, hcounted.typeOf_bound hf ht hl, hty] at hsteps
  obtain ⟨hstep, j, hj⟩ := hcounted.increment hf ht hl hty
  have X : SplitRun f f1 g sp.func l c w (Int64.ofNat width) ρ β rem.preheader j s s'
      (startMachine s f params memory) (P c w) :=
    { steps := hsteps
      counts := ⟨hf, ht, hnd, hl, hcounted, hty, hstep, hj⟩
      quiet := hq
      alike := hs
      lane := singleLane_start hw hargs hout hp
      increments := hP c w j hc hty hj.incoming }
  obtain ⟨m', e', hmem, hcalls, hshares⟩ := X.exists_run hp hlimit e
  have hsame : l.remainder β rem.preheader = rem := by
    unfold Loop.remainder
    rw [← hheader, ← hblocks]
  exact ⟨c, w, m', hc, hty, hfits, e', hmem, hcalls, hsame ▸ hshares⟩

/-- A single-lane run that returns is matched by one of the function with the split loop: the value
that is returned, the memory and the calls are the same. -/
theorem exists_run_split : ∃ m', sp.func.run s' args memory = (.ok ret, m') ∧
    m'.memory = m.memory ∧ m'.calls = m.calls := by
  cases hrem : sp.loop.remainder with
  | none =>
    rcases exists_splitSteps hf hl hsplit with ⟨hsame, -⟩ | ⟨c, w, ρ, β, rem', f1, g, -, -, -, -,
      hloop, -⟩
    · rw [hsame]
      obtain ⟨m', e', hmem, hcalls⟩ := Func.exists_run_alike hs hw hf
        (Nat.le_trans (Nat.le_mul_of_pos_left _ (by decide)) hlimit) e
      exact ⟨m', e', hmem, congrArg List.reverse hcalls⟩
    · rw [hloop] at hrem
      cases hrem
  | some rem =>
    obtain ⟨-, -, m', -, -, -, e', hmem, hcalls, -⟩ := exists_run_shares hf ht hnd hl hsplit hq hs hw
      hlimit hargs hout e hrem (fun _ _ _ _ => True) fun _ _ _ _ _ _ _ _ _ _ _ _ _ _ => trivial
    exact ⟨m', e', hmem, congrArg List.reverse hcalls⟩

/-- Whenever the loop is entered, the main loop makes the turns that fill whole vectors, and the
remainder makes the turns that are left. -/
theorem exists_turns_split {rem : RemainderLoop} (hrem : sp.loop.remainder = some rem)
    {c : CountedLoop} (hc : l.splittable f (.ofFunc f) = .ok c) (hty : (f.inst c.iv).ty ≠ .int 0)
    (hwrap : c.NeverWraps s f (startMachine s f args memory)) : ∃ m',
      sp.func.run s' args memory = (.ok ret, m') ∧
      turns l.header l.blocks m'.trace =
        (turns l.header l.blocks m.trace).map (fun t => t / width * width) ∧
      turns rem.header rem.blocks m'.trace = (turns l.header l.blocks m.trace).map (· % width) := by
  obtain ⟨c', w, m', hc', hw', hfits, e', -, -, es, hes, h1, h2, h3⟩ := exists_run_shares hf ht hnd hl
    hsplit hq hs hw hlimit hargs hout e hrem (fun c w => c.Below w) fun c' w j hc' hw' hj => by
      cases hc.symm.trans hc'
      exact hwrap w j hw' hj
  cases hc.symm.trans hc'
  have hpos : 0 < w := Nat.pos_of_ne_zero fun e => hty (e ▸ hw')
  have hcounted := (splittable_eq_ok hc).1
  have hstep := (hcounted.increment hf ht hl hw').1
  have hpart : ∀ e ∈ es, e.2 = e.1 / width * width := by
    intro e he
    obtain ⟨n0, nb, h⟩ := hes e he
    exact h.eq_div_mul hcounted.stayOp hpos hstep hcounted.step_pos hfits
  refine ⟨m', e', ?_, ?_⟩
  · rw [h1, h2, List.map_map]
    exact List.map_congr_left hpart
  · rw [h1, h3, List.map_map]
    refine List.map_congr_left fun e he => ?_
    have h := Nat.div_add_mod' e.1 width
    show e.1 - e.2 = e.1 % width
    rw [hpart e he]
    omega

end

/-! ## Examples -/

/-- Counts up from a start by a step, while the counter is below the argument. -/
def countBy (w : Nat) (start step : Int64) : Func where
  params := [.int w]
  retTy := .int w
  blocks := #[
    { term := .br 1 },
    { insts := [0, 1], term := .brIf (.inst 1) 2 3 },
    { insts := [2], term := .br 1 },
    { term := .ret (some (.inst 0)) }]
  insts := #[
    { op := .phi [(0, .ofInt (.int w) start), (2, .inst 2)], ty := .int w, block := 1 },
    { op := .apply (.cmp .slt) [.inst 0, .param 0], ty := .bool, block := 1 },
    { op := .apply (.binary .add) [.inst 0, .ofInt (.int w) step], ty := .int w, block := 2 }]
  layout := [0, 1, 2, 3]

/-- Counts up by one, and makes a call with the counter before every test. -/
def countAndCall : Func where
  params := [.int 32]
  retTy := .int 32
  blocks := #[
    { term := .br 1 },
    { insts := [0, 1, 2], term := .brIf (.inst 2) 2 3 },
    { insts := [3], term := .br 1 },
    { term := .ret (some (.inst 0)) }]
  insts := #[
    { op := .phi [(0, .ofInt (.int 32) 0), (2, .inst 3)], ty := .int 32, block := 1 },
    { op := .apply (.call 0) [.inst 0], ty := .void, block := 1 },
    { op := .apply (.cmp .slt) [.inst 0, .param 0], ty := .bool, block := 1 },
    { op := .apply (.binary .add) [.inst 0, .ofInt (.int 32) 1], ty := .int 32, block := 2 }]
  layout := [0, 1, 2, 3]

/-- The first loop of a function. -/
def firstOf (f : Func) : Loop := (Analyses.ofFunc f).loops.loops.head?.getD default

/-- A function with its first loop split for two lanes. -/
def splitFirst (f : Func) : Option Loop.Split := (firstOf f).split? f (.ofFunc f) [] 2 1

/-- A run in a single lane, with a function outside that returns nothing. -/
def singleLane (limit : Nat) : Setup := { width := 1, limit, host := some fun _ _ => .undefined }

/-- Counting by one up to five, with the loop split for two lanes. -/
theorem checks_countBy : (countBy 32 0 1).Checks ∧
    firstOf (countBy 32 0 1) ∈ (Analyses.ofFunc (countBy 32 0 1)).loops.loops ∧
    (firstOf (countBy 32 0 1)).header = 1 ∧ (firstOf (countBy 32 0 1)).blocks = [1, 2] ∧
    (∃ sp ∈ splitFirst (countBy 32 0 1), sp.loop.remainder.isSome) ∧
    (∃ c ∈ ((firstOf (countBy 32 0 1)).splittable (countBy 32 0 1)
      (.ofFunc (countBy 32 0 1))).toOption, ((countBy 32 0 1).inst c.iv).ty ≠ .int 0 ∧ c.step = 1 ∧
      ∀ j ∈ (countBy 32 0 1).body (firstOf (countBy 32 0 1)).header,
        (countBy 32 0 1).incomingValue? c.iv c.shape.latch ≠ some (.inst j)) ∧
    let r := (countBy 32 0 1).run (singleLane 20) [[.int 5]] #[]
    r.1 = .ok (some [.int 5]) ∧ r.2.memory = #[] ∧ r.2.calls = [] ∧
      turns 1 [1, 2] r.2.trace = [5] := by
  decide +kernel

theorem exists_run_countBy : ∃ m, (countBy 32 0 1).run (singleLane 20) [[.int 5]] #[] =
      (.ok (some [.int 5]), m) ∧
    m.memory = #[] ∧ m.calls = [] ∧ turns 1 [1, 2] m.trace = [5] := by
  obtain ⟨-, -, -, -, -, -, h⟩ := checks_countBy
  generalize (countBy 32 0 1).run (singleLane 20) [[.int 5]] #[] = r at h ⊢
  exact ⟨r.2, Prod.ext h.1 rfl, h.2⟩

theorem argsTyped_countBy : ArgsTyped (countBy 32 0 1) [[.int 5]] :=
  argsTyped_of_forall₂ (by decide +kernel)

theorem outsideTyped_countBy : OutsideTyped (singleLane 20) (countBy 32 0 1)
    (startMachine (singleLane 20) (countBy 32 0 1) [[.int 5]] #[]) :=
  outsideTyped_of_pure (by decide)

/-- A counter that is split counts as far as before. -/
theorem exists_run_split_countBy : ∃ sp ∈ splitFirst (countBy 32 0 1), sp.loop.remainder.isSome ∧
    ∃ m', sp.func.run (singleLane 60) [[.int 5]] #[] = (.ok (some [.int 5]), m') ∧
      m'.memory = #[] ∧ m'.calls = [] := by
  obtain ⟨hchecks, hl, -, -, ⟨sp, hsplit, hrem⟩, -⟩ := checks_countBy
  obtain ⟨m, e, hmemory, hcalls, -⟩ := exists_run_countBy
  obtain ⟨m', e', hmemory', hcalls'⟩ := exists_run_split hchecks.wellFormed hchecks.wellTyped
    hchecks.nodup_targets hl hsplit (by decide)
    (⟨rfl, rfl, rfl⟩ : (singleLane 20).Alike (singleLane 60)) rfl (by decide) argsTyped_countBy
    outsideTyped_countBy e
  exact ⟨sp, hsplit, hrem, m', e', hmemory'.trans hmemory, hcalls'.trans hcalls⟩

/-- The header of the main loop makes its call once more before the remainder is entered. -/
theorem calls_split_countAndCall : countAndCall.WellFormed ∧ countAndCall.WellTyped ∧
    ∃ sp ∈ splitFirst countAndCall, ∃ m m',
      countAndCall.run (singleLane 20) [[.int 3]] #[] = (.ok (some [.int 3]), m) ∧
      sp.func.run (singleLane 60) [[.int 3]] #[] = (.ok (some [.int 3]), m') ∧
      m.calls.map (·.args) = [[.int 0], [.int 1], [.int 2], [.int 3]] ∧
      m'.calls.map (·.args) = [[.int 0], [.int 1], [.int 2], [.int 2], [.int 3]] := by
  have h : countAndCall.Checks ∧ ∃ sp ∈ splitFirst countAndCall,
      let r := countAndCall.run (singleLane 20) [[.int 3]] #[]
      let r' := sp.func.run (singleLane 60) [[.int 3]] #[]
      (r.1 = .ok (some [.int 3]) ∧ r'.1 = .ok (some [.int 3])) ∧
        r.2.calls.map (·.args) = [[.int 0], [.int 1], [.int 2], [.int 3]] ∧
        r'.2.calls.map (·.args) = [[.int 0], [.int 1], [.int 2], [.int 2], [.int 3]] := by
    decide +kernel
  obtain ⟨hchecks, sp, hsp, h⟩ := h
  refine ⟨hchecks.wellFormed, hchecks.wellTyped, sp, hsp, ?_⟩
  generalize countAndCall.run (singleLane 20) [[.int 3]] #[] = r at h ⊢
  generalize sp.func.run (singleLane 60) [[.int 3]] #[] = r' at h ⊢
  exact ⟨r.2, r'.2, Prod.ext h.1.1 rfl, Prod.ext h.1.2 rfl, h.2⟩

theorem exists_neverWraps_countBy : ∃ c,
    (firstOf (countBy 32 0 1)).splittable (countBy 32 0 1) (.ofFunc (countBy 32 0 1)) = .ok c ∧
    ((countBy 32 0 1).inst c.iv).ty ≠ .int 0 ∧ c.NeverWraps (singleLane 20) (countBy 32 0 1)
      (startMachine (singleLane 20) (countBy 32 0 1) [[.int 5]] #[]) := by
  obtain ⟨hchecks, hl, -, -, -, ⟨c, hsome, hty, hone, hbehind⟩, -⟩ := checks_countBy
  have hc : (firstOf (countBy 32 0 1)).splittable (countBy 32 0 1)
      (.ofFunc (countBy 32 0 1)) = .ok c := by
    generalize (firstOf (countBy 32 0 1)).splittable (countBy 32 0 1)
      (.ofFunc (countBy 32 0 1)) = r at hsome ⊢
    cases r with
    | ok _ => exact congrArg Except.ok (Option.some.inj hsome)
    | error _ => cases hsome
  exact ⟨c, hc, hty, neverWraps_of_step_one hchecks.wellFormed hchecks.wellTyped
    hchecks.nodup_targets hl hc hty hone hbehind
    (singleLane_start rfl argsTyped_countBy outsideTyped_countBy rfl)⟩

/-- Of five turns, the main loop makes four and the remainder makes one. -/
theorem exists_turns_split_countBy : ∃ sp ∈ splitFirst (countBy 32 0 1),
    ∃ rem ∈ sp.loop.remainder, ∃ m',
      sp.func.run (singleLane 60) [[.int 5]] #[] = (.ok (some [.int 5]), m') ∧
      turns 1 [1, 2] m'.trace = [4] ∧ turns rem.header rem.blocks m'.trace = [1] := by
  obtain ⟨hchecks, hl, hheader, hblocks, ⟨sp, hsplit, hsome⟩, -⟩ := checks_countBy
  obtain ⟨rem, hrem⟩ := Option.isSome_iff_exists.mp hsome
  obtain ⟨c, hc, hty, hwrap⟩ := exists_neverWraps_countBy
  obtain ⟨m, e, -, -, hturns⟩ := exists_run_countBy
  obtain ⟨m', e', hmain, hrest⟩ := exists_turns_split hchecks.wellFormed hchecks.wellTyped
    hchecks.nodup_targets hl hsplit (by decide)
    (⟨rfl, rfl, rfl⟩ : (singleLane 20).Alike (singleLane 60)) rfl (by decide) argsTyped_countBy
    outsideTyped_countBy e hrem hc hty hwrap
  rw [hheader, hblocks, hturns] at hmain hrest
  exact ⟨sp, hsplit, rem, hrem, m', e', hmain, hrest⟩

/-- A counter of eight bits that goes up by 85 from -42 to 127 wraps around, which the computation of
the trips takes no notice of. The main loop makes all five turns. -/
theorem turns_split_of_wrapping :
    (countBy 8 (-42) 85).WellFormed ∧ (countBy 8 (-42) 85).WellTyped ∧
    ∃ sp ∈ splitFirst (countBy 8 (-42) 85), ∃ rem ∈ sp.loop.remainder, ∃ m m',
      (countBy 8 (-42) 85).run (singleLane 20) [[.int 127]] #[] = (.ok (some [.int 127]), m) ∧
      sp.func.run (singleLane 60) [[.int 127]] #[] = (.ok (some [.int 127]), m') ∧
      turns 1 [1, 2] m.trace = [5] ∧
      turns 1 [1, 2] m'.trace ≠ (turns 1 [1, 2] m.trace).map (fun t => t / 2 * 2) ∧
      turns rem.header rem.blocks m'.trace ≠ (turns 1 [1, 2] m.trace).map (· % 2) := by
  have h : (countBy 8 (-42) 85).Checks ∧
      ∃ sp ∈ splitFirst (countBy 8 (-42) 85), ∃ rem ∈ sp.loop.remainder,
      let r := (countBy 8 (-42) 85).run (singleLane 20) [[.int 127]] #[]
      let r' := sp.func.run (singleLane 60) [[.int 127]] #[]
      (r.1 = .ok (some [.int 127]) ∧ r'.1 = .ok (some [.int 127])) ∧
        turns 1 [1, 2] r.2.trace = [5] ∧
        turns 1 [1, 2] r'.2.trace ≠ (turns 1 [1, 2] r.2.trace).map (fun t => t / 2 * 2) ∧
        turns rem.header rem.blocks r'.2.trace ≠ (turns 1 [1, 2] r.2.trace).map (· % 2) := by
    decide +kernel
  obtain ⟨hchecks, sp, hsp, rem, hrem, h⟩ := h
  refine ⟨hchecks.wellFormed, hchecks.wellTyped, sp, hsp, rem, hrem, ?_⟩
  generalize (countBy 8 (-42) 85).run (singleLane 20) [[.int 127]] #[] = r at h ⊢
  generalize sp.func.run (singleLane 60) [[.int 127]] #[] = r' at h ⊢
  exact ⟨r.2, r'.2, Prod.ext h.1.1 rfl, Prod.ext h.1.2 rfl, h.2⟩

end Loop

end Lockstep
