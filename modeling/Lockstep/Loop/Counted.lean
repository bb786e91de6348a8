import Lockstep.Cfg.Analyses
import Lockstep.Vector.Error

/-!
# Shapes of loops

Two shapes that transformations need. A single-exit loop is reducible, has a preheader and one
latch, and is left along one edge, from a conditional branch that every iteration passes. A
counted loop in addition tests in its header whether an induction variable, which grows by a
positive constant, is below an invariant bound; the test may be written in any equivalent way.
-/

namespace Lockstep

/-- A loop that is left along one edge. -/
structure SingleExitLoop where
  header : BlockId
  preheader : BlockId
  latch : BlockId
  /-- The block with the edge that leaves the loop. -/
  exiting : BlockId
  /-- Where this edge leads. -/
  exit : BlockId
  /-- The other target of the exiting block. -/
  continueTarget : BlockId
  /-- The branch condition of the exiting block. -/
  cond : Value
  /-- Whether the loop goes on if the condition is true. -/
  stayOnTrue : Bool
  deriving DecidableEq, Repr

/-- A loop that goes on while an induction variable is below a bound. -/
structure CountedLoop where
  shape : SingleExitLoop
  /-- The induction variable, a phi of the header. -/
  iv : InstId
  start : Value
  step : Int64
  bound : Value
  /-- The comparison of induction variable and bound, signed or unsigned. -/
  stayOp : CmpOp
  deriving DecidableEq, Repr

/-- A test for loops that a transformation can handle. -/
abbrev LoopCheck := Func → Analyses → Loop → Except LoopRejection SingleExitLoop

namespace Loop

/-- Recognizes a single-exit loop. -/
def singleExit (f : Func) (a : Analyses) (l : Loop) : Except LoopRejection SingleExitLoop := do
  if !l.reducible then throw .irreducible
  let some preheader := l.preheader? f | throw .noPreheader
  let some latch := l.latch? | throw (.notSingleLatch l.latches.length)
  let [(exiting, exit)] := l.exitEdges | throw (.notSingleExit l.exitEdges.length)
  let .brIf cond onTrue onFalse := f.term exiting | throw (.exitNotConditional exiting)
  if !a.dom.dominates exiting latch then throw (.exitNotDominatingLatch exiting)
  let stayOnTrue := onFalse == exit
  return {
    header := l.header, preheader, latch, exiting, exit, cond, stayOnTrue
    continueTarget := if stayOnTrue then onTrue else onFalse }

/-- The comparison that a condition makes. -/
def comparison? (f : Func) (cond : Value) : Option (CmpOp × Value × Value) :=
  match cond with
  | .inst i =>
    match (f.inst i).op with
    | .apply (.cmp op) _ => some (op, (f.inst i).input 0, (f.inst i).input 1)
    | _ => none
  | _ => none

/-- A value as a phi of a block. -/
def phiOf? (f : Func) (b : BlockId) (v : Value) : Option InstId :=
  match v with
  | .inst i => if (f.inst i).block = b ∧ f.isPhi i then some i else none
  | _ => none

/-- The exit test of a loop, as a comparison that says whether the loop goes on. The operand
that is a phi of the header comes first; the left one if both are. -/
def stayTest? (f : Func) (s : SingleExitLoop) : Option (CmpOp × InstId × Value) := do
  let (op, lhs, rhs) ← comparison? f s.cond
  let op := if s.stayOnTrue then op else op.inverse
  match phiOf? f s.header lhs, phiOf? f s.header rhs with
  | some iv, _ => return (op, iv, rhs)
  | none, some iv => return (op.swapped, iv, lhs)
  | none, none => none

/-- What a value of the loop adds to the induction variable. -/
def increment? (f : Func) (l : Loop) (iv : InstId) (next : Value) : Option Value :=
  match next with
  | .inst i =>
    match (f.inst i).op with
    | .apply (.binary .add) [x, y] =>
      if !l.contains (f.inst i).block then none
      else if x = .inst iv then some y
      else if y = .inst iv then some x
      else none
    | _ => none
  | _ => none

/-- Recognizes a counted loop. -/
def counted (f : Func) (a : Analyses) (l : Loop) : Except LoopRejection CountedLoop := do
  let shape ← singleExit f a l
  if shape.exiting ≠ shape.header then throw (.exitNotInHeader shape.exiting)
  if shape.latch = shape.header then throw (.latchNotUnconditional shape.latch)
  let .br _ := f.term shape.latch | throw (.latchNotUnconditional shape.latch)
  let some (stayOp, iv, bound) := stayTest? f shape | throw .unrecognizedExitTest
  if !(stayOp = .slt ∨ stayOp = .ult) || !l.isInvariant f bound then
    throw .unrecognizedExitTest
  let some start := f.incomingValue? iv shape.preheader | throw .unrecognizedExitTest
  let some next := f.incomingValue? iv shape.latch | throw .unrecognizedExitTest
  let some added := increment? f l iv next | throw .unrecognizedExitTest
  let some step := added.int? | throw .nonPositiveStep
  if step ≤ 0 then throw .nonPositiveStep
  return { shape, iv, start, step, bound, stayOp }

end Loop

end Lockstep
