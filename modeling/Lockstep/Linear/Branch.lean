import Lockstep.Linear.Chain
import Lockstep.Linear.Merge

/-!
# Making a divergent branch straight

The nodes of the chain are made to follow each other, whatever the branch says, and the last
leads to the join. A phi in the chain, of a loop header or of the join then has fewer ways in:
the values of the ways that are gone are merged by the masks of their edges.
-/

namespace Lockstep

namespace Stage

/-- The mask that a block must have by now. -/
def knownBlockMask (b : BlockId) : StageM Value := do
  match (← get).masks.block? b with
  | some mask => return mask
  | none => throw (.bug (.blockMaskMissing b))

/-- The mask that an edge must have by now. -/
def knownEdgeMask (pred succ : BlockId) : StageM Value := do
  match (← get).masks.edge? pred succ with
  | some mask => return mask
  | none => throw (.bug (.edgeMaskMissing pred succ))

/-- Merges the values that came into a block along some edges. -/
def mergeIncoming (point : InsertPoint) (incoming : List (BlockId × Value)) (b : BlockId) :
    StageM (Value × InsertPoint) := do
  let keyed ← incoming.mapM fun (pred, v) => do return (← knownEdgeMask pred b, v)
  merge point keyed

/-- Replaces a phi by a value, in the function, in predicates and in masks, and detaches it. -/
def replacePhi (phi : InstId) (v : Value) : StateM Stage Unit := do
  let old := Value.inst phi
  modifyFunc fun f => (f.replaceAllUses old v).detach phi
  modifyInfo (·.dropShape old)
  let layout := (← get).func.layout
  modifyInfo (·.remapPredicates layout old v)
  modifyMasks (·.replace layout old v)

/-- Replaces the phis of a block by merges of their values. -/
def mergePhis (b : BlockId) : StageM Unit := do
  let f := (← get).func
  let (merged, _) ← (f.phis b).foldlM (fun (merged, point) phi => do
    let (v, point) ← mergeIncoming point ((← get).func.inst phi).incoming b
    return (merged ++ [(phi, v)], point)) (([] : List (InstId × Value)), .afterPhis b)
  for (phi, v) in merged do
    replacePhi phi v

/-- Lets the phis of a block have one way in from `pred`, instead of the ways in from the blocks
that satisfy `gone`. A phi without such ways stays as it is unless `always` is set; `after` is run
on every phi that was changed. -/
def funnelPhis (b pred : BlockId) (gone : BlockId → Bool) (always : Bool)
    (after : InstId → StageM Unit) : StageM Unit := do
  for phi in (← get).func.phis b do
    let (incoming, func) := (← get).func.removeIncoming phi gone
    modify fun s => { s with func }
    if always || !incoming.isEmpty then
      let (v, _) ← mergeIncoming (.blockEnd pred) incoming b
      modifyFunc (·.setIncoming phi pred v)
      after phi

/-- Replaces a phi that has a single value left by this value. -/
def dropSinglePhi (phi : InstId) : StageM Unit := do
  match ((← get).func.inst phi).inputs with
  | [v] => replacePhi phi v
  | _ => return

/-- Lets a node lead to `target`. -/
def redirect (node : ChainNode) (target : BlockId) : StateM Stage Unit :=
  match node.loop with
  | none => modifyFunc (·.setTerm node.exit (.br target))
  | some (_, old) =>
    modifyFunc fun f =>
      f.setTerm node.exit ((f.term node.exit).map (fun b => if b = old then target else b) id)

/-- Makes a divergent branch straight, and returns the number of nodes of its chain. -/
def linearizeBranch (a : Analyses) (branch : BlockId) : StageM Nat := do
  let some join := a.postDom.parent? branch
    | throw (.unsupportedBranch branch .neverJoins)
  let bs ← liftExcept (Chain.blocks (← get).info a branch join)
  let ns ← liftExcept (Chain.nodes a.loops bs branch join)
  let chain := (← liftExcept (Chain.order a.cfg ns join)).map ns.get
  let branchMask ← knownBlockMask branch
  for node in chain.drop 1 do
    if node.loop.isNone then mergePhis node.entry
  for (prev, node) in chain.zip (chain.drop 1) do
    if let some (blocks, _) := node.loop then
      funnelPhis node.entry prev.exit (fun b => !blocks.contains b) true fun _ => return
  if let some last := chain.getLast? then
    funnelPhis join last.exit ns.nodeOf.contains false dropSinglePhi
  let targets := (chain.drop 1).map ChainNode.entry ++ [join]
  for (node, target) in chain.zip targets do
    redirect node target
    setEdgeMask node.exit target branchMask
  return chain.length
where
  liftExcept {α : Type} : Except VectorizeError α → StageM α
    | .ok x => return x
    | .error e => throw e

end Stage

end Lockstep
