import Lockstep.Cfg.Loop
import Lockstep.Func.Uses
import Lockstep.Reduction.Kind

/-!
# Finding reductions

A reduction is a phi of a loop header that accumulates a value through a chain of updates by one
operation. The chain is followed from the phi through its users in the loop. Nothing in the loop
but the chain may see a partial result, and outside only the phi and the latch value may be
seen.
-/

namespace Lockstep

/-- A reduction of a loop. -/
structure Reduction where
  kind : ReductionKind
  phi : InstId
  /-- The value of the phi in the next iteration. -/
  latchValue : Value
  /-- The phi and the instructions of the chain, in the order in which they were met. -/
  elements : List InstId
  deriving DecidableEq, Repr, Inhabited

namespace Reduction

/-- What a chain is found by. -/
structure Search where
  func : Func
  uses : UseMap
  loop : Loop
  phi : InstId
  latchValue : Value

/-- The part of a chain that has been found. -/
structure Chain where
  kind : Option ReductionKind := none
  elements : List InstId
  /-- Elements whose users are still to be looked at, newest first. -/
  queue : List InstId
  deriving Repr

namespace Search

/-- The value of a header phi from inside the loop, if it has one value from inside and one from
outside. -/
def latchValue? (l : Loop) (incoming : List (BlockId × Value)) : Option Value :=
  match incoming with
  | [(p, v), (q, w)] =>
    match l.contains p, l.contains q with
    | true, false => some v
    | false, true => some w
    | _, _ => none
  | _ => none

/-- Adds an update to a chain. -/
def Chain.push (c : Chain) (i : InstId) : Chain :=
  { c with elements := c.elements ++ [i], queue := i :: c.queue }

/-- Looks at an instruction of the loop that uses an element. It has to be an update of the kind
of the chain or a phi outside the header. -/
def addUser (s : Search) (c : Chain) (i : InstId) : Option Chain :=
  let d := s.func.inst i
  if c.elements.contains i then some c
  else
    match d.op with
    | .phi _ => if d.block = s.loop.header then none else some (Chain.push c i)
    | .apply (.binary op) _ =>
      if d.mask.isSome then none
      else
        match ReductionKind.ofBinOp? op with
        | none => none
        | some kind =>
          if c.kind.all (· == kind) then some (Chain.push { c with kind := some kind } i) else none
    | .apply _ _ => none

/-- Looks at a user of an element. A use outside the loop is allowed if the element may be seen
there. -/
def visitUser (s : Search) (observable : Bool) (c : Chain) (u : User) : Option Chain :=
  match u with
  | .terminator b => if s.loop.contains b || !observable then none else some c
  | .inst i =>
    if s.loop.contains (s.func.inst i).block then s.addUser c i
    else if observable then some c
    else none

/-- Looks at all users of an element. -/
def visitElement (s : Search) (c : Chain) (i : InstId) : Option Chain :=
  let observable := i == s.phi || Value.inst i == s.latchValue
  (s.uses.usersOf (.inst i)).foldlM (s.visitUser observable) c

/-- Follows a chain until no element is left to look at. -/
def follow (s : Search) : (fuel : Nat) → Chain → Option Chain
  | 0, c => some c
  | fuel + 1, c =>
    match c.queue with
    | [] => some c
    | i :: queue => (s.visitElement { c with queue } i).bind (s.follow fuel)

/-- Whether an element takes the chain up in the right way: a phi from the chain alone, an update
from the chain exactly once. -/
def isProper (s : Search) (elements : List InstId) (i : InstId) : Bool :=
  let d := s.func.inst i
  let inChain (v : Value) := v.inst?.any elements.contains
  if d.isPhi then d.inputs.all inChain else (d.inputs.filter inChain).length == 1

/-- Whether a chain updates its value once in an iteration: it has one update, and does not run
through an inner loop. -/
def updatesOnce (s : Search) (loops : LoopForest) (elements : List InstId) : Bool :=
  (elements.filter fun i => !s.func.isPhi i).length ≤ 1
    && elements.all fun i => i == s.phi || !loops.isHeader (s.func.inst i).block

end Search

/-- The reduction that a header phi is the root of, if there is one. -/
def ofHeaderPhi? (f : Func) (uses : UseMap) (loops : LoopForest) (l : Loop) (phi : InstId) :
    Option Reduction := do
  let latchValue ← Search.latchValue? l (f.inst phi).incoming
  if (f.inst phi).ty = .void then none
  let s : Search := { func := f, uses, loop := l, phi, latchValue }
  let chain ← s.follow (f.insts.size + 1) { elements := [phi], queue := [phi] }
  let kind ← chain.kind
  let elements := chain.elements
  if !kind.isAssociative && !s.updatesOnce loops elements then none
  if !latchValue.inst?.any elements.contains then none
  if !elements.all fun i => i == phi || s.isProper elements i then none
  return { kind, phi, latchValue, elements }

/-- The reductions of all loops. -/
def findAll (f : Func) (loops : LoopForest) : List Reduction :=
  let uses := UseMap.compute f
  loops.loops.flatMap fun l => (f.phis l.header).filterMap (ofHeaderPhi? f uses loops l)

end Reduction

end Lockstep
