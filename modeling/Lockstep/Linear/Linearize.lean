import Lockstep.Config
import Lockstep.Linear.Branch
import Lockstep.Vector.Cascade

/-!
# Linearization

All divergent branches of the region are made straight, inner ones first. Then loads, stores and
calls are masked with the predicates of their blocks, masked calls are made lane by lane if the
configuration asks for it, and the layout is brought into reverse post-order. Every block and
edge of the region must have its mask beforehand.
-/

namespace Lockstep

/-- What a linearization did. -/
structure LinearizeStats where
  /-- Branches made straight. -/
  regions : Nat := 0
  /-- Nodes of their chains. -/
  blocks : Nat := 0
  scalarizedCalls : Nat := 0
  deriving DecidableEq, Repr, Inhabited

/-- Brings the layout into reverse post-order; unreachable blocks follow as they were. -/
def Func.relayout (f : Func) : Func :=
  let g := Cfg.ofFunc f
  { f with layout := g.rpo ++ f.layout.filter fun b => !g.isReachable b }

namespace Stage

/-- Whether a block of the region ends in a branch whose condition differs between lanes. -/
def isDivergentBranch (s : Stage) (b : BlockId) : Bool :=
  s.info.inRegion b &&
    match s.func.term b with
    | .brIf cond _ _ => !s.info.isUniform cond
    | _ => false

/-- Makes a branch straight if it is still divergent. -/
def linearizeIfDivergent (stats : LinearizeStats) (b : BlockId) : StageM LinearizeStats := do
  let s ← get
  if s.isDivergentBranch b then
    let nodes ← linearizeBranch (.ofFunc s.func) b
    return { stats with regions := stats.regions + 1, blocks := stats.blocks + nodes }
  else return stats

/-- Whether an instruction has effects that its block's mask has to guard: a load, a store or a
call of a function that is no marker. -/
def needsMask (markers : Markers) (d : Instr) : Bool :=
  d.op.hasSideEffects && (d.callee?.bind markers.kindOf?).isNone

/-- Masks the effects in a block with its predicate, unless that is always true. An instruction
that has a mask keeps it. -/
def maskBlock (markers : Markers) (b : BlockId) : StateM Stage Unit := do
  let s ← get
  if s.info.inRegion b then
    match s.info.predicate? b with
    | none => return
    | some mask =>
      if mask.bool? = some true then return
      for i in s.func.body b do
        modifyFunc (·.modifyInst i fun d =>
          if needsMask markers d && d.mask.isNone then { d with mask := some mask } else d)

/-- Masks the effects in all blocks of the region. -/
def maskEffects (markers : Markers) : StateM Stage Unit := do
  (← get).func.layout.forM (maskBlock markers)

/-- The masked calls of the region that can be made lane by lane. -/
def maskedCalls (markers : Markers) (s : Stage) : List InstId :=
  ((s.func.layout.filter s.info.inRegion).flatMap s.func.body).filter fun i =>
    let d := s.func.inst i
    d.callee?.isSome && d.mask.isSome && needsMask markers d
      && !s.info.isUniform (.inst i) && s.func.isSupported i

/-- Makes all masked calls of the region lane by lane where that is possible, and returns how
many were. -/
def scalarizeCalls (markers : Markers) : StageM Nat := do
  (maskedCalls markers (← get)).foldlM (fun n call => do
    return if ← scalarizeCall markers call then n + 1 else n) 0

/-- Linearizes the region. -/
def linearize (markers : Markers) (config : Config) : StageM LinearizeStats := do
  let s ← get
  let branches := (Cfg.ofFunc s.func).rpo.reverse.filter s.isDivergentBranch
  let stats ← branches.foldlM linearizeIfDivergent {}
  maskEffects markers
  let scalarizedCalls ← if config.cascadeCalls then scalarizeCalls markers else pure 0
  modifyFunc Func.relayout
  return { stats with scalarizedCalls }

end Stage

end Lockstep
