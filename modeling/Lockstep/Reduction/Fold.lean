import Lockstep.Reduction.Find
import Lockstep.Vector.Stage

/-!
# Folding reductions once

In the loop that is vectorized a reduction feeds its accumulator through every update. The chain
is restarted in each iteration from the neutral element, and folded into the accumulator once at
its end; uses after the loop see the folded value. Associativity and commutativity make this the
same.
-/

namespace Lockstep

namespace Stage

/-- The predecessor and the instruction that a phi gets its value from inside the region. -/
def regionLatch? (s : Stage) (phi : InstId) : Option (BlockId × InstId) :=
  match (s.func.inst phi).incoming with
  | [(p, v), (q, w)] =>
    let inRegion (v : Value) := v.inst?.filter fun _ => s.info.definesValue s.func v
    match inRegion v, inRegion w with
    | some latch, _ => some (p, latch)
    | none, some latch => some (q, latch)
    | none, none => none
  | _ => none

/-- Restarts a chain from `neutral`, and folds its result into the phi. -/
def foldChain (phi : InstId) (op : BinOp) (neutral : Value) (pred : BlockId) (latch : InstId) :
    StateM Stage Unit := do
  let info := (← get).info
  modifyFunc fun f => f.replaceUsesWhere (.inst phi) neutral fun u =>
    info.inRegion (f.userBlock u) && u != .inst phi
  let f := (← get).func
  let point := if f.isPhi latch then .afterPhis (f.inst latch).block else .after latch
  let fold ← build point (Build.binary op (.inst phi) (.inst latch))
  setShape fold (info.shape (.inst phi))
  let info := (← get).info
  modifyFunc fun f => f.replaceUsesWhere (.inst latch) fold fun u =>
    !info.inRegion (f.userBlock u)
  modifyFunc (·.setIncoming phi pred fold)

/-- Folds a reduction once per iteration, and says whether there was anything to gain and to
do. -/
def foldReduction (r : Reduction) : StageM Bool := do
  let s ← get
  if (UseMap.compute s.func).numUsers (.inst r.phi) = 1 then return false
  match r.kind.neutral? (s.func.inst r.phi).ty with
  | none => return false
  | some neutral =>
    match s.regionLatch? r.phi with
    | none => throw (.bug (.noLatchValue r.phi))
    | some (pred, latch) =>
      foldChain r.phi r.kind.binOp (.const neutral) pred latch
      return true

/-- Folds the reductions at the header of the region, and returns how many were changed.
Without a region there is no loop to look at. -/
def foldReductions (rs : List Reduction) : StageM Nat := do
  let s ← get
  if s.info.region.isNone then return 0
  (s.func.phis (s.info.entry s.func)).foldlM (fun n phi => do
    match rs.find? (·.phi == phi) with
    | some r => return if ← foldReduction r then n + 1 else n
    | none => return n) 0

end Stage

end Lockstep
