import Lockstep.Proofs.Eval.Along
import Lockstep.Proofs.Eval.Soundness
import Lockstep.Proofs.Loop.NormalizeRun
import Lockstep.Proofs.Vector.MaskStep

/-!
# Masks describe the edge taken

Making all masks adds to a function without changing it: what was there stays as it is, and a run
in a single lane goes the same way. Whenever a block of the region has been run, its mask is true,
the mask of the edge that control takes is true, and the masks of its other edges are false.

1. Making masks lays an overlay over the function, in which every mask tells what it should
   (`triple_traced_expandMasks`).
2. It asks no question across lanes, and leaves old instructions and all terminators alone
   (`Unaltered`).
3. A run of the function with the overlay follows a run of the function block by block
   (`Run.Arrives.exists_arrived`), so that the masks are told after every block.
-/

namespace Lockstep

namespace Stage

variable {f : Func} {anyFn : FuncId} {s t : Stage} {b c : BlockId}

/-! ## Masks of the region -/

/-- All masks that are made tell what they should. -/
theorem triple_traced_expandMasks (hf : f.WellFormed) :
    Triple (fun s => ∃ γ, Traced f anyFn (fun _ _ => False) [] γ s) (expandMasks (.ofFunc f))
      fun _ s => ∃ γ, Traced f anyFn (fun _ _ => False) [] γ s := by
  let Told (s : Stage) : Prop := ∃ γ, Traced f anyFn (fun _ _ => False) [] γ s
  unfold expandMasks
  refine Triple.forM (J := fun _ => Told) _ fun b _ hb => ?_
  have hr : f.Reachable b := (Cfg.mem_rpo hf.toClosed).mp hb
  refine Triple.bind Triple.get fun u => ?_
  split
  · refine Triple.bind (R := fun _ => Told) ?_ fun _ => ?_
    · rintro s m s' ⟨-, γ, hs⟩ e
      obtain ⟨γ', -, hs', -⟩ := givesTold_blockMask hf hr γ [] s m s' hs e
      exact ⟨γ', hs'⟩
    · refine Triple.forM (J := fun _ => Told) _ fun c _ hc => ?_
      refine Triple.bind (R := fun _ => Told) ?_ fun _ => Triple.pure fun s hs => hs
      rintro s m s' ⟨γ, hs⟩ e
      have hc := ((Cfg.mem_succs hf.toClosed).mp hc).2
      obtain ⟨γ', -, hs', -⟩ := givesTold_edgeMask hf hr hc γ [] s m s' hs e
      exact ⟨γ', hs'⟩
  · exact Triple.pure fun s hs => hs.2

/-! ## What stays as it is -/

/-- The instructions and terminators of `f` are still there, and what is new is no call. -/
structure Unaltered (f : Func) (s : Stage) : Prop where
  size : f.insts.size ≤ s.func.insts.size
  inst : ∀ i < f.insts.size, s.func.inst i = f.inst i
  term : ∀ b, s.func.term b = f.term b
  callee : ∀ i, f.insts.size ≤ i → (s.func.inst i).callee? = none

theorem Unaltered.step {g : Cfg} (h : Unaltered f s) (hs : MaskStep g f.insts.size s t) :
    Unaltered f t where
  size := Nat.le_trans h.size hs.size_le
  inst i hi := (hs.inst h.size hi).trans (h.inst i hi)
  term b := (hs.term b).trans (h.term b)
  callee i hi := hs.callee?_eq_none (h.callee i hi)

theorem MaskSteps.unaltered {g : Cfg} (h : MaskSteps g s.func.insts.size s t) :
    Unaltered s.func t := by
  refine h.invariant (J := Unaltered s.func) ⟨Nat.le_refl _, fun _ _ => rfl, fun _ => rfl, ?_⟩
    fun hs h => h.step hs
  intro i hi
  rw [Func.inst, Array.getElem?_eq_none hi]
  rfl

end Stage

/-- What is no call of a marker asks nothing. -/
theorem Annotates.not_asks {f t : Func} {anyFn : FuncId} {γ : Overlay} (hA : Annotates f anyFn γ t)
    (hcallee : ∀ i, f.insts.size ≤ i → (t.inst i).callee? = none) : ¬ γ.Asks anyFn := by
  rintro ⟨b, i, hi, v, hop⟩
  obtain ⟨before, hadd⟩ := hA.mem_ops hi
  have hseen := (hA.seen i hadd.lt).op
  have hnone := hcallee i hadd.new
  unfold Instr.callee? at hnone
  rw [hop] at hseen
  generalize (t.inst i).op = o at hseen hnone
  cases hseen with
  | apply h => cases hnone

namespace Run

variable {f t : Func} {anyFn : FuncId} {γ : Overlay} {s s' : Setup} {pred : Option BlockId}
  {b : BlockId} {m n' mEnd : Machine}

/-- Where a run of a function with a complete overlay gets to, the run of the function gets to as
well, and goes on from there to its end. -/
theorem Arrives.exists_arrived (hA : Annotates f anyFn γ t) (hf : f.WellFormed)
    (hnd : ∀ b, (f.term b).targets.Nodup) (hc : ∀ b, ∀ i ∈ γ.phis b, γ.Complete f anyFn b i)
    (hs : s.Alike s') (hw : s.width = 1) (hany : γ.Asks anyFn → s.marker? anyFn = some .any)
    {start start' : Machine} (hstart : Arrived f t anyFn γ none f.entry start start')
    {steps : Nat} {ret : Option Lanes} (e : blocks s f steps none f.entry start = (.ok ret, mEnd))
    (h : Arrives s' t start' pred b n') :
    ∃ m k, Arrived f t anyFn γ pred b m n' ∧ blocks s f k pred b m = (.ok ret, mEnd) := by
  induction h with
  | entry => exact ⟨start, steps, hstart, e⟩
  | @next pred b c n' n1' h hblock ih =>
    obtain ⟨m, k, hm, e⟩ := ih
    cases k with
    | zero => cases e
    | succ k =>
      obtain ⟨r, m1, h1, e⟩ := exists_of_bind_run_eq_ok e
      obtain ⟨m1', h1', -, -, hnext⟩ := hm.exists_block hA hf hnd hc hs hw hany h1
      cases hblock.symm.trans h1'
      exact ⟨m1, k, hnext c rfl, e⟩

end Run

namespace Stage

variable {f : Func} {t : Stage}

/-- With the masks `masks` and the machine `m` after the block `b`: the mask of the block is true,
and of the masks of its edges the one of the edge that is taken is. -/
def TellsTaken (masks : Masks) (f : Func) (b : BlockId) (r : BlockId ⊕ Option Lanes) (m : Machine) :
    Prop :=
  (∃ k, masks.block? b = some k ∧ m.value 1 k = [.bool true]) ∧
    ∀ c ∈ (f.term b).targets, ∃ k, masks.edge? b c = some k ∧
      m.value 1 k = [.bool (r.getLeft? == some c)]

/-- What masks tell is the case after a block. -/
theorem tellsTaken_of_traced {anyFn : FuncId} {γ : Overlay} {b : BlockId}
    (ht : Traced f anyFn (fun _ _ => False) [] γ t) (hf : f.Closed) (hb : f.Reachable b)
    (hr : t.info.inRegion b = true) (hmasks : AllMasked (.ofFunc f) (Cfg.ofFunc f).rpo t)
    {s : Setup} {pred : Option BlockId} {m m1 m' : Machine}
    {r : BlockId ⊕ Option Lanes} (e : Run.block s f pred b m = (.ok r, m1))
    (hk : KnownAfter f anyFn γ b r m') : TellsTaken t.masks f b r m' := by
  obtain ⟨hblock, hedge⟩ := hmasks b ((Cfg.mem_rpo hf).mpr hb) hr
  obtain ⟨k, hk1⟩ := Option.isSome_iff_exists.mp hblock
  obtain ⟨-, -, -, hway⟩ := Run.block_eq_ok_iff.mp e
  refine ⟨⟨k, hk1, ?_⟩, fun c hc => ?_⟩
  · have htells := (ht.block b k hk1).mono_ops (List.nil_prefix (l := γ.ops b))
    exact hk (r.getLeft?.getD 0) (fun c hc => by rw [hc]; rfl) k _ htells
  obtain ⟨k, hk1⟩ := Option.isSome_iff_exists.mp (hedge c ((Cfg.mem_succs hf).mpr ⟨hb, hc⟩))
  obtain ⟨φ, htells, hφ, honly⟩ := ht.edge b c k hk1
  refine ⟨k, hk1, ?_⟩
  cases r with
  | inr ret =>
    obtain ⟨v, hterm, -⟩ := Run.ret_of_wayOut hway
    rw [hterm] at hc
    cases hc
  | inl n =>
    have hn : n ∈ (f.term b).targets := Run.target_of_wayOut hway
    rw [hk n (fun c hc => (Sum.inl.inj hc).symm) k φ htells]
    by_cases hnc : n = c
    · rw [hnc, hφ]
      simp
    · rw [Bool.eq_false_iff.mpr fun hφn => hnc (honly id n hn hφn)]
      simp [hnc]

/-! ## Runs -/

/-- Making all masks leaves what is there as it is, and a single-lane run that returns is matched by
the run with masks. Whenever that run finishes a block of the region, the mask of the block is true,
and of the masks of its edges the one of the edge that is taken is. -/
theorem exists_run_expandMasks (hf : f.WellFormed) (hnd : ∀ b, (f.term b).targets.Nodup)
    {info : VectorInfo} (h : expandMasks (.ofFunc f) { func := f, info } = ((), t)) :
    ((∀ i < f.insts.size, t.func.inst i = f.inst i) ∧ ∀ b, t.func.term b = f.term b) ∧
      ∀ {s s' : Setup} {args : List Lanes} {memory : Array Scalar} {ret : Option Lanes} {m : Machine},
        s.Alike s' → s.width = 1 → s.limit ≤ s'.limit → f.run s args memory = (.ok ret, m) →
          ∃ params m', Run.arguments s' t.func args = .ok params ∧
            t.func.run s' args memory = (.ok ret, m') ∧
            m'.trace = m.trace ∧ m'.memory = m.memory ∧ m'.calls = m.calls ∧
            ∀ {pred b r n n'},
              Run.Arrives s' t.func (startMachine s' t.func params memory) pred b n →
              Run.block s' t.func pred b n = (.ok r, n') → info.inRegion b = true →
                TellsTaken t.masks f b r n' := by
  obtain ⟨hsteps, hmasks⟩ := takesMaskSteps_expandMasks { func := f, info } _ _ _
    (.refl (Nat.le_refl _)) h
  have hun : Unaltered f t := hsteps.unaltered
  obtain ⟨γ, ht⟩ := @triple_traced_expandMasks f 0 hf { func := f, info } _ _
    ⟨overlayOf f, annotates_overlayOf _ _, fun _ _ h => absurd h List.not_mem_nil,
      fun b m hm => (by cases hm), fun p q m hm => (by cases hm)⟩ h
  have hA := ht.annotates
  have hc : ∀ b, ∀ i ∈ γ.phis b, γ.Complete f 0 b i := fun b i hi =>
    ht.complete b i hi List.not_mem_nil
  refine ⟨⟨hun.inst, hun.term⟩, fun {s s'} {args} {memory} {ret} {m} hs hw hlimit e => ?_⟩
  have hany : γ.Asks 0 → s.marker? 0 = some .any := fun h => absurd h (hA.not_asks hun.callee)
  obtain ⟨m', hrun, hpath, hmem, hcalls⟩ := hA.exists_run_of_asks hf hnd hc hs hw hlimit hany e
  obtain ⟨params, hp⟩ := Func.exists_arguments e
  have hp' : Run.arguments s' t.func args = .ok params := by
    rw [← hp]
    unfold Run.arguments
    rw [hs.width, hA.params]
  refine ⟨params, m', hp', hrun, congrArg List.reverse hpath, hmem, congrArg List.reverse hcalls,
    fun {pred b r n n'} ha hblock hr => ?_⟩
  have hlen := Run.length_of_mem_arguments hp
  rw [hw] at hlen
  have hstart : Arrived f t.func 0 γ none f.entry (startMachine s f params memory)
      (startMachine s' t.func params memory) := by
    unfold startMachine
    rw [hs.width, hw]
    exact hA.arrived hlen memory
  rw [Func.run_eq hp] at e
  obtain ⟨m0, k, hm, e⟩ := ha.exists_arrived hA hf hnd hc hs hw hany hstart e
  cases k with
  | zero => cases e
  | succ k =>
    obtain ⟨r1, m1, h1, -⟩ := exists_of_bind_run_eq_ok e
    obtain ⟨m1', h1', -, hk, -⟩ := hm.exists_block hA hf hnd hc hs hw hany h1
    cases hblock.symm.trans h1'
    exact tellsTaken_of_traced ht hf.toClosed hm.reachable ((hsteps.inRegion b).trans hr) hmasks
      h1 hk

/-- The counter with all masks made. -/
def countUpMasked : Stage :=
  (expandMasks (.ofFunc countUp) { func := countUp, info := { width := 4 } }).2

/-- Its run from the entry to the header. -/
def countUpEntered : Except EvalError (BlockId ⊕ Option Lanes) × Machine :=
  Run.block singleLane countUpMasked.func none 0
    (startMachine singleLane countUpMasked.func [[.int 2]] #[])

/-- Its first turn through the header. -/
def countUpTested : Except EvalError (BlockId ⊕ Option Lanes) × Machine :=
  Run.block singleLane countUpMasked.func (some 0) 1 countUpEntered.2

/-- Control goes on to the body: the mask of that edge is true, and the mask of the edge out of the
loop is false. -/
theorem tellsTaken_countUpTested : countUpTested.1 = .ok (.inl 2) ∧
    TellsTaken countUpMasked.masks countUp 1 (.inl 2) countUpTested.2 := by
  have hf : countUp.Checks := by decide +kernel
  have hmade : expandMasks (.ofFunc countUp) { func := countUp, info := { width := 4 } } =
      ((), countUpMasked) := Prod.fst_eq_iff.mp (Subsingleton.elim _ _)
  have hret : (countUp.run singleLane [[.int 2]] #[]).1 = .ok (some [.int 2]) := by decide +kernel
  have hentered : countUpEntered.1 = .ok (.inl 1) := by decide +kernel
  have htested : countUpTested.1 = .ok (.inl 2) := by decide +kernel
  obtain ⟨-, hrun⟩ := exists_run_expandMasks hf.wellFormed hf.nodup_targets hmade
  have halike : singleLane.Alike singleLane := ⟨rfl, rfl, rfl⟩
  obtain ⟨params, m', hp, -, -, -, -, htells⟩ :=
    hrun halike rfl (Nat.le_refl _) (Prod.fst_eq_iff.mp hret)
  obtain rfl : params = [[.int 2]] := Run.arguments_one rfl hp
  exact ⟨htested, htells (.next .entry (Prod.fst_eq_iff.mp hentered)) (Prod.fst_eq_iff.mp htested)
    rfl⟩

end Stage

end Lockstep
