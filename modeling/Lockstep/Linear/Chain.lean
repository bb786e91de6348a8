import Lockstep.Cfg.Analyses
import Lockstep.Vector.Error
import Lockstep.Vector.Info

/-!
# The chain of a divergent branch

Between a divergent branch and the block where its ways join again lie the blocks of its chain.
They are grouped into nodes, a loop being one node, and the nodes are put into an order in which
every edge goes forward; of the nodes that could come next, the first in reverse post-order
does.
-/

namespace Lockstep

/-- An element of a chain. -/
structure ChainNode where
  /-- Where control enters: the block itself, or the header of the loop. -/
  entry : BlockId
  /-- Whose terminator leaves the node: the block itself, or the exiting block of the loop. -/
  exit : BlockId
  /-- For a loop its blocks, and where its exit edge leads. -/
  loop : Option (List BlockId × BlockId) := none
  deriving DecidableEq, Repr, Inhabited

namespace Chain

/-! ## Blocks -/

/-- Collects the blocks that a branch reaches before the join, from a stack of blocks. -/
def collect (v : VectorInfo) (a : Analyses) (branch join : BlockId) :
    (fuel : Nat) → (stack blocks : List BlockId) → Except VectorizeError (List BlockId)
  | 0, _, blocks => .ok blocks
  | _ + 1, [], blocks => .ok blocks
  | fuel + 1, b :: stack, blocks =>
    if b = join then collect v a branch join fuel stack blocks
    else if b = branch then .error (.unsupportedBranch branch (.cycleBack join))
    else if blocks.contains b then collect v a branch join fuel stack blocks
    else if !v.inRegion b then .error (.unsupportedBranch branch (.outsideRegion b join))
    else if !a.dom.dominates branch b then .error (.unsupportedBranch branch (.bypassed b))
    else collect v a branch join fuel (a.cfg.succs b ++ stack) (blocks ++ [b])

/-- The blocks of a chain, in reverse post-order. -/
def blocks (v : VectorInfo) (a : Analyses) (branch join : BlockId) :
    Except VectorizeError (List BlockId) := do
  let bs ← collect v a branch join (3 * a.cfg.rpo.length + 3) (a.cfg.succs branch) [branch]
  return a.cfg.rpo.filter bs.contains

/-! ## Nodes -/

/-- The nodes of a chain, and for each block the position of its node. -/
structure Nodes where
  list : List ChainNode := []
  nodeOf : Table BlockId Nat := .empty
  deriving Repr, Inhabited

namespace Nodes

def get (ns : Nodes) (n : Nat) : ChainNode := ns.list[n]?.getD default

def size (ns : Nodes) : Nat := ns.list.length

/-- Adds a node that stands for some blocks. -/
def add (ns : Nodes) (node : ChainNode) (bs : List BlockId) : Nodes where
  list := ns.list ++ [node]
  nodeOf := bs.foldl (fun t b => t.set b ns.size) ns.nodeOf

end Nodes

/-- A loop and the loops around it, inner ones first, at most `fuel` of them. -/
def enclosing (t : LoopForest) : (fuel : Nat) → Option LoopId → List LoopId
  | 0, _ | _, none => []
  | fuel + 1, some id => id :: enclosing t fuel (t.get id).parent

/-- The outermost loop around a block whose header lies in the chain after the branch. -/
def outermostLoop? (t : LoopForest) (bs : List BlockId) (branch b : BlockId) : Option LoopId :=
  let inChain (id : LoopId) := (t.get id).header != branch && bs.contains (t.get id).header
  ((enclosing t (t.size + 1) (t.innermostOf? b)).filter inChain).getLast?

/-- A loop as a node. -/
def loopNode (l : Loop) (bs : List BlockId) (branch join : BlockId) :
    Except VectorizeError ChainNode := do
  if !l.reducible then throw (.irreducibleCycle l.header)
  if let some outside := l.blocks.find? fun b => !bs.contains b then
    throw (.unsupportedBranch branch (.loopPastJoin l.header outside join))
  let [(exiting, target)] := l.exitEdges
    | throw (.unsupportedBranch branch (.loopExits l.header l.exitEdges.length))
  return { entry := l.header, exit := exiting, loop := some (l.blocks, target) }

/-- Adds the node of a block, unless the block belongs to a node already. -/
def addBlock (t : LoopForest) (bs : List BlockId) (branch join : BlockId) (ns : Nodes)
    (b : BlockId) : Except VectorizeError Nodes :=
  if ns.nodeOf.contains b then .ok ns
  else
    match outermostLoop? t bs branch b with
    | none => .ok (ns.add { entry := b, exit := b } [b])
    | some id => do return ns.add (← loopNode (t.get id) bs branch join) (t.get id).blocks

/-- Groups the blocks of a chain into nodes. -/
def nodes (t : LoopForest) (bs : List BlockId) (branch join : BlockId) :
    Except VectorizeError Nodes :=
  bs.foldlM (addBlock t bs branch join) {}

/-! ## Order -/

/-- The node that an edge out of a node leads to, if it is not the join. -/
def target? (ns : Nodes) (node : ChainNode) (join target : BlockId) :
    Except VectorizeError (Option Nat) :=
  if target = join then .ok none
  else
    match ns.nodeOf.get? target with
    | none => .error (.bug (.outsideChain target node.exit))
    | some n =>
      if (ns.get n).entry = target then .ok (some n) else .error (.irreducibleCycle target)

/-- The nodes that a node leads to. -/
def successors (g : Cfg) (ns : Nodes) (join : BlockId) (node : ChainNode) :
    Except VectorizeError (List Nat) := do
  let targets :=
    match node.loop with
    | none => g.succs node.exit
    | some (_, target) => [target]
  return ((← targets.mapM (target? ns node join)).filterMap id).eraseDups

/-- The node that comes next: it has no predecessor among the nodes left, and of those it is
the first by `key`. -/
def next? (succs : List (List Nat)) (key : Nat → Nat) (rest : List Nat) : Option Nat :=
  let isReady (n : Nat) := rest.all fun m => !(succs[m]?.getD []).contains n
  (rest.filter isReady).foldl (fun best n =>
    match best with
    | none => some n
    | some m => if key n < key m then some n else some m) none

/-- Puts nodes in order until none of those left can come next. -/
def sortFrom (succs : List (List Nat)) (key : Nat → Nat) :
    (fuel : Nat) → (rest : List Nat) → List Nat
  | 0, _ => []
  | fuel + 1, rest =>
    match next? succs key rest with
    | none => []
    | some n => n :: sortFrom succs key fuel (rest.erase n)

/-- The nodes in topological order. -/
def order (g : Cfg) (ns : Nodes) (join : BlockId) : Except VectorizeError (List Nat) := do
  let succs ← ns.list.mapM (successors g ns join)
  let key (n : Nat) := (g.rpoIndex? (ns.get n).entry).getD g.rpo.length
  let all := List.range ns.size
  let sorted := sortFrom succs key ns.size all
  match all.find? fun n => !sorted.contains n with
  | some stuck => throw (.irreducibleCycle (ns.get stuck).entry)
  | none => return sorted

end Chain

end Lockstep
