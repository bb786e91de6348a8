import Lockstep.Vector.Marker
import Lockstep.Vector.Stage

/-!
# Calls lane by lane

A masked call whose result nobody uses can be replaced by a cascade: for each lane a block that
asks whether the lane is active, and a block that makes the call with the arguments of that
lane. Also here: which instructions can be vectorized at all.
-/

namespace Lockstep

namespace Func

/-! ## What can be vectorized -/

/-- Whether an instruction reads or writes a structure or a part of one. -/
def isStructAccess (f : Func) (i : InstId) : Bool :=
  match (f.inst i).op with
  | .apply (.extractValue _) _ | .apply (.insertValue _) _ => true
  | .apply .load _ | .apply .store _ => (f.typeOf ((f.inst i).input 0)).containsStruct
  | _ => false

/-- Whether an instruction can be vectorized: element-wise operations on vectors and calls that
return vectors or structures cannot, and structures have to be homogeneous. -/
def isSupported (f : Func) (i : InstId) : Bool :=
  let ty := f.typeOf ((f.inst i).input 0)
  match (f.inst i).op with
  | .apply .extractElement _ | .apply .insertElement _ | .apply .shuffleVector _ => false
  | .apply (.call _) _ =>
    match (f.inst i).ty with
    | .vector _ _ | .struct _ => false
    | _ => true
  | .apply (.extractValue _) _ | .apply (.insertValue _) _ => ty.isHomogeneousStruct
  | .apply .load _ | .apply .store _ =>
    ty.pointee?.all fun t => !t.containsStruct || t.isHomogeneousStruct
  | _ => true

end Func

/-! ## Cascades -/

/-- The blocks of a cascade. -/
structure Cascade where
  /-- For each lane the test, and the block that is executed if the lane is active. -/
  lanes : List (BlockId × BlockId)
  /-- Where the last lane leads. -/
  finish : BlockId
  deriving DecidableEq, Repr, Inhabited

namespace Cascade

def conds (c : Cascade) : List BlockId := c.lanes.map Prod.fst

def masked (c : Cascade) : List BlockId := c.lanes.map Prod.snd

/-- The test of a lane, or the end after the last lane. -/
def test (c : Cascade) (lane : Nat) : BlockId := c.conds[lane]?.getD c.finish

/-- All blocks: the tests, the masked blocks, the end. -/
def blocks (c : Cascade) : List BlockId := c.conds ++ c.masked ++ [c.finish]

/-- Makes the two blocks of one lane. -/
def addLane (f : Func) (lane : Nat) : (BlockId × BlockId) × Func :=
  let (cond, f) := f.addBlock (some ("cascade_cond_" ++ toString lane))
  let (masked, f) := f.addBlock (some ("cascade_masked_" ++ toString lane))
  ((cond, masked), f)

/-- Makes the blocks of a cascade. Only the masked blocks get their terminators, which lead to
the next lane. -/
def create (f : Func) (width : Nat) : Cascade × Func :=
  let (lanes, f) := (List.range width).foldl (fun (lanes, f) lane =>
    let (blocks, f) := addLane f lane
    (lanes ++ [blocks], f)) (([] : List (BlockId × BlockId)), f)
  let (finish, f) := f.addBlock (some "cascade_end")
  let c : Cascade := { lanes, finish }
  (c, c.masked.zipIdx.foldl (fun f (b, lane) => f.setTerm b (.br (c.test (lane + 1)))) f)

/-- Moves what follows a position of a block to the end of the cascade, and lets the block lead
into the cascade. The instruction at the position is dropped. -/
def split (c : Cascade) (f : Func) (b : BlockId) (pos : Nat) : Func :=
  let body := f.body b
  let tail := body.drop (pos + 1)
  let term := f.term b
  let f := f.setBody b (body.take pos)
  let f := tail.foldl (fun f i => f.modifyInst i fun d => { d with block := c.finish }) f
  let f := (f.setBody c.finish tail).setTerm b (.br (c.test 0))
  let f := term.targets.foldl (fun f succ => f.replacePhiPred succ b c.finish) f
  f.setTerm c.finish term

/-- Fills in the blocks of one lane, and returns the values made, which are uniform. An argument
that is uniform is passed as it is. -/
def buildLane (markers : Markers) (isUniform : Value → Bool) (d : Instr) (callee : FuncId)
    (mask : Value) (next : BlockId) (lane : Nat) (cond masked : BlockId) :
    Build (List Value) := do
  let extract (v : Value) (ty : Ty) : Build Value :=
    Build.apply (.call (markers.func .extract)) [v, .ofInt (.int 32) (Int64.ofNat lane)] ty
  Build.switchTo cond
  let active ← extract mask .bool
  Build.brIf active masked next
  Build.switchTo masked
  let args ← d.inputs.mapM fun v =>
    if isUniform v then pure v else do extract v (← Build.typeOf v)
  let made := (args.zip d.inputs).filterMap fun (arg, v) => if isUniform v then none else some arg
  let call ← Build.apply (.call callee) args d.ty
  return active :: made ++ [call]

end Cascade

namespace Stage

/-- Records a cascade in the place of a block: its values are uniform, its blocks belong to the
region and are not divergent, and the blocks outside the masked ones inherit the predicate. -/
def recordCascade (c : Cascade) (b : BlockId) (made : List Value) : StateM Stage Unit := do
  let predicate := (← get).info.predicate? b
  for v in made do
    setShape v .uni
  for new in c.blocks do
    modifyInfo fun v => (v.addBlock new).setDivergent new false
  match predicate with
  | some mask =>
    for new in c.conds ++ [c.finish] do
      modifyInfo (·.setPredicate new mask)
  | none => return

/-- Fills in the blocks of all lanes, and returns the values made. -/
def buildCascade (markers : Markers) (c : Cascade) (d : Instr) (callee : FuncId) (mask : Value) :
    StateM Stage (List Value) := do
  let isUniform := (← get).info.isUniform
  let made ← c.lanes.zipIdx.mapM fun ((cond, masked), lane) =>
    build (.blockEnd cond)
      (Cascade.buildLane markers isUniform d callee mask (c.test (lane + 1)) lane cond masked)
  return made.flatten

/-- Makes a masked call lane by lane, and says whether that could be done: a call without a mask
and one whose result is used stay as they are. -/
def scalarizeCall (markers : Markers) (call : InstId) : StageM Bool := do
  let s ← get
  let d := s.func.inst call
  let some callee := d.callee? | throw (.bug (.notACall call))
  let some mask := d.mask | return false
  if d.ty ≠ .void ∧ 0 < (UseMap.compute s.func).numUsers (.inst call) then return false
  let some pos := s.func.positionOf? call | throw (.bug (.detachedCall call d.block))
  let (c, func) := Cascade.create s.func s.info.width
  let func := c.split func d.block pos
  set { s with func }
  recordCascade c d.block (← buildCascade markers c d callee mask)
  return true

end Stage

end Lockstep
