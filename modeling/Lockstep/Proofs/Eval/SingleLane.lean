import Lockstep.Proofs.Eval.Along
import Lockstep.Proofs.Eval.Lanes
import Lockstep.Proofs.Func.Check

/-!
# Runs in a single lane

A single-lane run has the right types throughout if arguments, loads and calls have theirs
(`SingleLane.arrives`).
-/

namespace Lockstep

open Run

/-- A single-lane run that starts with a machine of the right types. -/
structure SingleLane (s : Setup) (f : Func) (start : Machine) : Prop where
  width : s.width = 1
  outside : OutsideTyped s f start
  typed : start.Typed f
  full : start.Full 1
  size : start.values.size = f.insts.size

/-- Arguments that have the types of the parameters. -/
def ArgsTyped (f : Func) (args : List Lanes) : Prop :=
  ∀ (k : Nat) xs, args[k]? = some xs → ∀ i, (xs.lane i).HasTy (f.typeOf (.param k))

/-- Arguments have the types of the parameters if each has the type of its own. -/
theorem argsTyped_of_forall₂ {f : Func} {args : List Lanes}
    (h : List.Forall₂ (fun xs ty => ∀ x ∈ xs, x.HasTy ty) args f.params) : ArgsTyped f args := by
  obtain ⟨hlen, h⟩ := List.forall₂_iff_get.mp h
  intro k xs hk l
  obtain ⟨hlt, rfl⟩ := List.getElem?_eq_some_iff.mp hk
  have hparam : f.typeOf (.param k) = f.params[k] := by
    show f.params[k]?.getD .void = _
    rw [List.getElem?_eq_getElem (hlen ▸ hlt)]
    rfl
  rw [hparam]
  unfold Lanes.lane
  cases hx : args[k][l]? with
  | none => exact Scalar.hasTy_undefined _
  | some x => exact h k hlt (hlen ▸ hlt) x (List.mem_of_getElem? hx)

variable {s : Setup} {f : Func} {start m : Machine} {pred : Option BlockId} {b : BlockId}

/-- All machines of such a run have the right types and all their lanes. -/
theorem SingleLane.arrives (h : SingleLane s f start) (hf : f.TypesAgree)
    (ha : Arrives s f start pred b m) :
    m.Typed f ∧ m.Full 1 ∧ m.values.size = f.insts.size := by
  have hfull := h.full
  rw [← h.width] at hfull
  exact ⟨ha.typed hf h.outside h.typed, h.width ▸ ha.full hfull, ha.size.trans h.size⟩

/-- A single-lane run with arguments, loads and calls of the right types. -/
theorem singleLane_start {args : List Lanes} {memory : Array Scalar} (hw : s.width = 1)
    (hargs : ArgsTyped f args)
    (hout : OutsideTyped s f (startMachine s f args memory))
    (hp : arguments s f args = .ok args) : SingleLane s f (startMachine s f args memory) where
  width := hw
  outside := hout
  typed :=
    { params := hargs
      insts := fun i xs hi => by
        have hi : (Array.replicate f.insts.size (Lanes.splat s.width .undefined))[i]? = some xs := hi
        rw [Array.getElem?_replicate] at hi
        split at hi
        · cases hi
          exact Lanes.hasTy_splat (Scalar.hasTy_undefined _) s.width
        · cases hi }
  full := by
    have h := full_start (length_of_mem_arguments hp) f.insts.size memory
    rw [hw] at h
    unfold startMachine
    rwa [hw]
  size := Array.size_replicate

/-- Whether what an effect gives has its type. -/
def Run.givesTyped (s : Setup) (f : Func) (i : InstId) (m : Machine) : Bool :=
  match (f.inst i).op.hasSideEffects, instr s f i m with
  | true, (.ok _, m') => (m'.value s.width (.inst i)).all fun x => decide (x.HasTy (f.inst i).ty)
  | _, _ => true

theorem Run.outsideTyped_of_holds {steps : Nat}
    (h : holdsOfBlocks (givesTyped s f) s f steps none f.entry start = true) : OutsideTyped s f start := by
  intro i m m' hx heff e l
  have hgives := hx.holds h
  unfold givesTyped at hgives
  rw [heff, e] at hgives
  unfold Lanes.lane
  cases hl : (m'.value s.width (.inst i))[l]? with
  | none => exact Scalar.hasTy_undefined _
  | some x => exact of_decide_eq_true (List.all_eq_true.mp hgives x (List.mem_of_getElem? hl))

theorem Run.givesTyped_of_forall {i : InstId} {m' : Machine} (e : instr s f i m = (.ok (), m'))
    (h : (f.inst i).op.hasSideEffects = true →
      ∀ l, ((m'.value s.width (.inst i)).lane l).HasTy (f.inst i).ty) : givesTyped s f i m = true := by
  unfold givesTyped
  rw [e]
  cases heff : (f.inst i).op.hasSideEffects with
  | false => rfl
  | true =>
    refine List.all_eq_true.mpr fun x hx => decide_eq_true ?_
    obtain ⟨l, hl⟩ := List.mem_iff_getElem?.mp hx
    have hlane := h heff l
    unfold Lanes.lane at hlane
    rwa [hl] at hlane

/-- Nothing outside is asked if side effects give no truth values, integers or addresses. -/
theorem outsideTyped_of_not_isPlain (h : ∀ b < f.blocks.size, ∀ i ∈ f.nonPhis b,
    (f.inst i).op.hasSideEffects = true → ¬ (f.inst i).ty.IsPlain) : OutsideTyped s f start := by
  rintro i m m' ⟨-, b, -, -, before, after, -, -, esplit, -⟩ heff - l
  have hi : i ∈ f.nonPhis b := by rw [esplit]; simp
  have hb := f.lt_of_mem_body (Func.mem_body_of_mem_nonPhis hi)
  exact Scalar.hasTy_of_not_isPlain (h b hb i hi heff) _

/-- Nothing outside is asked if no instruction has side effects. -/
theorem outsideTyped_of_pure
    (h : ∀ b < f.blocks.size, ∀ i ∈ f.nonPhis b, (f.inst i).op.hasSideEffects = false) :
    OutsideTyped s f start :=
  outsideTyped_of_not_isPlain fun b hb i hi heff => by simp [h b hb i hi] at heff

end Lockstep
