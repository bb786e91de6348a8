import Lockstep.Loop.Counted
import Lockstep.Vector.Marker
import Lockstep.Vector.Mask

/-!
# Loops that lanes leave at different times

Lanes that leave a loop in different iterations cannot do so in lock-step. Such a loop is made
to go on while any lane stays. Its header gets two phis: the lanes that are still live, which
is the mask of the header, and the lanes that entered, which is the mask of the exit. The exit
test asks whether any lane stays, a uniform question. Every value that is used after the loop
gets a tracker, which takes the value in the iteration in which a lane leaves and holds it from
then on.

All loops are checked before any of them is changed, so that a rejected loop leaves everything
as it was.
-/

namespace Lockstep

namespace Stage

/-- Whether a loop is left by a branch whose condition differs between lanes. -/
def hasDivergentExit (s : Stage) (l : Loop) : Bool :=
  l.exitEdges.any fun (exiting, _) =>
    match s.func.term exiting with
    | .brIf cond _ _ => !s.info.isUniform cond
    | _ => false

/-- The loops to normalize, inner ones first, with their shapes. The loop that is the region
itself is left alone. -/
def divergentLoops (check : LoopCheck) (a : Analyses) (s : Stage) :
    Except VectorizeError (List (Loop × SingleExitLoop)) :=
  let entry := s.info.entry s.func
  let divergent (l : Loop) :=
    l.header != entry && s.info.inRegion l.header && s.hasDivergentExit l
  ((a.loops.innerToOuter.map a.loops.get).filter divergent).mapM fun l =>
    match check s.func a l with
    | .ok shape => .ok (l, shape)
    | .error reason => .error (.unsupportedLoop l.header reason)

/-- The two mask phis of a normalized loop. -/
structure LoopMasks where
  /-- The lanes that have not left. -/
  live : InstId
  /-- The lanes that entered. -/
  entered : InstId

/-- Gives a loop its mask phis, still without values, and records them as masks. -/
def addLoopMasks (l : Loop) (shape : SingleExitLoop) : StateM Stage LoopMasks := do
  let live ← appendPhi shape.header .bool []
  let entered ← appendPhi shape.header .bool []
  setShape (.inst live) .vary
  setShape (.inst entered) .vary
  setBlockMask shape.header (.inst live)
  setEdgeMask shape.exiting shape.exit (.inst entered)
  for b in l.blocks do
    modifyInfo (·.setDivergent b true)
  return { live, entered }

/-- The instructions of a loop whose values are used outside of it. -/
def liveOuts (f : Func) (l : Loop) : List InstId :=
  let uses := UseMap.compute f
  (l.blocks.flatMap f.body).filter fun i =>
    (f.inst i).ty != .void
      && (uses.usersOf (.inst i)).any fun u => !l.contains (f.userBlock u)

/-- Gives a value of a loop a tracker, which the uses after the loop see instead. -/
def track (l : Loop) (shape : SingleExitLoop) (exitNow : Value) (i : InstId) :
    StateM Stage Unit := do
  let ty := ((← get).func.inst i).ty
  let tracker ← appendPhi shape.header ty [(shape.preheader, .undefined ty)]
  let tracked ← build (.blockEnd shape.exiting)
    (Build.select exitNow (.inst i) (.inst tracker))
  modifyFunc (·.setIncoming tracker shape.latch tracked)
  modifyFunc fun f =>
    f.replaceUsesWhere (.inst i) tracked fun u => !l.contains (f.userBlock u)
  setShape (.inst tracker) .vary
  setShape tracked .vary

/-- Gives the mask phis of a loop their values, and changes its exit test and live-outs. -/
def normalizeLoop (markers : Markers) (g : Cfg) (l : Loop) (shape : SingleExitLoop)
    (masks : LoopMasks) : StateM Stage Unit := do
  let entering ← edgeMask g shape.preheader shape.header
  let stay ← edgeMask g shape.exiting shape.continueTarget
  let exitingMask ← blockMask g shape.exiting
  modifyFunc (·.setIncoming masks.live shape.preheader entering)
  modifyFunc (·.setIncoming masks.live shape.latch stay)
  modifyFunc (·.setIncoming masks.entered shape.preheader entering)
  modifyFunc (·.setIncoming masks.entered shape.latch (.inst masks.entered))
  let (exitCond, exitNow, any) ← build (.blockEnd shape.exiting) do
    let exitCond ← if shape.stayOnTrue then Build.not shape.cond else pure shape.cond
    let exitNow ← Build.and exitingMask exitCond
    let any ← Build.call (markers.func .any) .bool [stay]
    return (exitCond, exitNow, any)
  for v in [exitCond, exitNow] do
    if v != shape.cond && v != exitingMask && v.inst?.isSome then setShape v .vary
  setShape (.inst any) .uni
  for i in liveOuts (← get).func l do
    track l shape exitNow i
  modifyFunc (·.setTerm shape.exiting (.brIf (.inst any) shape.continueTarget shape.exit))

/-- Normalizes all loops of the region with a divergent exit, and returns their number. The
masks that a normalized loop has are recorded before any other mask is asked for. -/
def normalizeLoops (markers : Markers) (check : LoopCheck) (a : Analyses) : StageM Nat := do
  match divergentLoops check a (← get) with
  | .error e => throw e
  | .ok loops =>
    let masks ← loops.mapM fun (l, shape) => do return (l, shape, ← addLoopMasks l shape)
    for (l, shape, m) in masks do
      normalizeLoop markers a.cfg l shape m
    return loops.length

end Stage

end Lockstep
