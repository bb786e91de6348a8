import Lockstep.Func.Print

/-!
# Failures of the vectorizer

A loop or a branch that is beyond the vectorizer is no defect of the program: the caller can
keep the scalar code. A cycle without a header and a broken invariant are defects of what the
vectorizer was given.
-/

namespace Lockstep

/-- Why a loop does not have the shape that a transformation needs. -/
inductive LoopRejection where
  | irreducible
  | noPreheader
  | notSingleLatch (latches : Nat)
  | notSingleExit (edges : Nat)
  | exitNotConditional (b : BlockId)
  | exitNotDominatingLatch (b : BlockId)
  | exitNotInHeader (b : BlockId)
  | latchNotUnconditional (b : BlockId)
  | unrecognizedExitTest
  | nonPositiveStep
  deriving DecidableEq, Repr

def LoopRejection.message : LoopRejection → String
  | irreducible => "loop is irreducible"
  | noPreheader => "no dedicated preheader"
  | notSingleLatch latches => toString latches ++ " latches (expected exactly one)"
  | notSingleExit edges => toString edges ++ " exit edges (expected exactly one)"
  | exitNotConditional b => "exiting block " ++ BlockId.text b ++ " doesn't end in `br_if`"
  | exitNotDominatingLatch b =>
    "exiting block " ++ BlockId.text b ++ " doesn't dominate the latch"
  | exitNotInHeader b => "exit test is in " ++ BlockId.text b ++ ", not in the header"
  | latchNotUnconditional b =>
    "latch " ++ BlockId.text b ++ " doesn't branch straight back to the header"
  | unrecognizedExitTest =>
    "exit test is not an induction variable compared against a loop-invariant bound"
  | nonPositiveStep => "induction step is not a positive constant"

/-- Why a divergent branch cannot be made straight. -/
inductive BranchRejection where
  | neverJoins
  | cycleBack (join : BlockId)
  | outsideRegion (b join : BlockId)
  | bypassed (b : BlockId)
  | loopPastJoin (header outside join : BlockId)
  | loopExits (header : BlockId) (edges : Nat)
  /-- Another stage refuses the branch, for a reason of its own. -/
  | other (reason : String)
  deriving DecidableEq, Repr

def BranchRejection.message : BranchRejection → String
  | neverJoins => "paths from the branch never join again"
  | cycleBack join => "cycle back to the branch before " ++ BlockId.text join
  | outsideRegion b join =>
    BlockId.text b ++ " (before " ++ BlockId.text join ++ ") is outside the region"
  | bypassed b => BlockId.text b ++ " can be entered bypassing the branch"
  | loopPastJoin header outside join =>
    "loop " ++ BlockId.text header ++ " reaches " ++ BlockId.text outside ++ ", past "
      ++ BlockId.text join
  | loopExits header edges =>
    "loop " ++ BlockId.text header ++ " has " ++ toString edges
      ++ " exit edges (expected exactly one)"
  | other reason => reason

/-- A condition that a stage relies on and that does not hold. -/
inductive BrokenInvariant where
  | blockMaskMissing (b : BlockId)
  | edgeMaskMissing (pred succ : BlockId)
  | outsideChain (target exit : BlockId)
  | notACall (i : InstId)
  | detachedCall (i : InstId) (b : BlockId)
  | noLatchValue (phi : InstId)
  /-- Another stage reports a defect. -/
  | other (reason : String)
  deriving DecidableEq, Repr

def BrokenInvariant.message : BrokenInvariant → String
  | blockMaskMissing b => "mask of " ++ BlockId.text b ++ " wasn't expanded"
  | edgeMaskMissing pred succ =>
    "mask of edge " ++ BlockId.text pred ++ " -> " ++ BlockId.text succ ++ " wasn't expanded"
  | outsideChain target exit =>
    BlockId.text target ++ " (after " ++ BlockId.text exit ++ ") isn't part of the chain"
  | notACall i => (Value.inst i).text ++ " is not a call"
  | detachedCall i b => (Value.inst i).text ++ " is not attached to " ++ BlockId.text b
  | noLatchValue phi => "reduction " ++ (Value.inst phi).text ++ " has no in-region latch value"
  | other reason => reason

/-- Why a function is not vectorized. -/
inductive VectorizeError where
  | unsupportedLoop (header : BlockId) (reason : LoopRejection)
  | unsupportedBranch (b : BlockId) (reason : BranchRejection)
  | irreducibleCycle (b : BlockId)
  | bug (reason : BrokenInvariant)
  deriving DecidableEq, Repr

namespace VectorizeError

def message : VectorizeError → String
  | unsupportedLoop header reason =>
    "unsupported loop (header " ++ BlockId.text header ++ "): " ++ reason.message
  | unsupportedBranch b reason =>
    "unsupported divergent branch in " ++ BlockId.text b ++ ": " ++ reason.message
  | irreducibleCycle b =>
    "control-flow cycle through " ++ BlockId.text b ++ " is not a recognized loop"
  | bug reason => reason.message

/-- Whether the scalar code is right to keep. -/
def isRecoverable : VectorizeError → Bool
  | unsupportedLoop _ _ | unsupportedBranch _ _ => true
  | irreducibleCycle _ | bug _ => false

end VectorizeError

end Lockstep
