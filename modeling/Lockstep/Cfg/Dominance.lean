import Lockstep.Cfg.Graph
import Lockstep.Table

/-!
# Dominance

Immediate dominators by iteration to a fixed point: nodes are numbered so that every node but
the root has a predecessor with a smaller number, and two candidates are merged by walking up
from the larger number. The same computation on the reversed graph, rooted in a virtual exit,
gives the post-dominators.
-/

namespace Lockstep

/-! ## Immediate dominators of numbered nodes -/

namespace Idom

/-- What is known about the immediate dominator of each node; the root is its own. -/
abbrev Candidates := Array (Option Nat)

/-- The nearest common ancestor of two nodes, walking up from the larger number. There is none
if a node on the way has no candidate. -/
def meet (idoms : Candidates) : (fuel : Nat) → (a b : Nat) → Option Nat
  | 0, _, _ => none
  | fuel + 1, a, b =>
    if a = b then some a
    else if b < a then
      match idoms[a]?.join with
      | some a => meet idoms fuel a b
      | none => none
    else
      match idoms[b]?.join with
      | some b => meet idoms fuel a b
      | none => none

/-- The common ancestor of those predecessors that have a candidate; the outer `none` says that
the walk failed. -/
def meetAll (idoms : Candidates) : List Nat → Option Nat → Option (Option Nat)
  | [], acc => some acc
  | p :: ps, acc =>
    match idoms[p]?.join with
    | none => meetAll idoms ps acc
    | some _ =>
      match acc with
      | none => meetAll idoms ps (some p)
      | some other =>
        match meet idoms (p + other + 1) p other with
        | some m => meetAll idoms ps (some m)
        | none => none

/-- Renews the candidate of one node. -/
def update (preds : List (List Nat)) (idoms : Candidates) (v : Nat) : Option Candidates :=
  match meetAll idoms (preds[v]?.getD []) none with
  | some (some m) => some (idoms.setIfInBounds v (some m))
  | some none => some idoms
  | none => none

/-- Renews the candidates of all nodes but the root, in order. -/
def pass (preds : List (List Nat)) (idoms : Candidates) : Option Candidates :=
  (List.range' 1 (preds.length - 1)).foldlM (update preds) idoms

/-- Repeats passes until one changes nothing. -/
def fixpoint (preds : List (List Nat)) : (fuel : Nat) → Candidates → Option Candidates
  | 0, _ => none
  | fuel + 1, idoms =>
    match pass preds idoms with
    | none => none
    | some next => if next = idoms then some idoms else fixpoint preds fuel next

/-- The candidates before the first pass: only the root has one. -/
def initial (n : Nat) : Candidates := (Array.replicate n none).setIfInBounds 0 (some 0)

/-- Immediate dominators of the nodes `0` up to `preds.length`, of which `0` is the root. -/
def compute? (preds : List (List Nat)) : Option Candidates :=
  let n := preds.length
  fixpoint preds (n * n + n + 2) (initial n)

/-- The immediate dominators; none if the numbering is not as required. -/
def compute (preds : List (List Nat)) : Candidates := (compute? preds).getD #[]

end Idom

/-! ## Trees -/

/-- A dominator tree. Ancestors come first in `order`. -/
structure DomTree where
  order : List BlockId
  parents : Table BlockId BlockId
  deriving Repr, DecidableEq, Inhabited

namespace DomTree

/-- The immediate dominator of a block. -/
def parent? (t : DomTree) (b : BlockId) : Option BlockId := t.parents.get? b

def number? (t : DomTree) (b : BlockId) : Option Nat := t.order.idxOf? b

/-- Walks up from `node` to `a`, no further than the position of `a` in the order. -/
def walk (t : DomTree) (a : BlockId) (limit : Nat) : (fuel : Nat) → (node : BlockId) → Bool
  | 0, _ => false
  | fuel + 1, node =>
    if node = a then true
    else if (t.number? node).any (decide <| · < limit) then false
    else
      match t.parent? node with
      | some p => walk t a limit fuel p
      | none => false

/-- Whether `a` is `b` or one of its ancestors. -/
def dominates (t : DomTree) (a b : BlockId) : Bool :=
  match t.number? a, t.number? b with
  | some limit, some _ => t.walk a limit (t.order.length + 1) b
  | _, _ => false

def strictlyDominates (t : DomTree) (a b : BlockId) : Bool := a != b && t.dominates a b

/-- The tree of the blocks in `order`, where `node` gives the immediate dominator of a position
as a block. -/
def ofParents (order : List BlockId) (node : Nat → Option BlockId) : DomTree where
  order
  parents :=
    order.zipIdx.foldl (fun t (b, k) =>
      match node k with
      | some p => t.set b p
      | none => t) .empty

end DomTree

namespace Cfg

/-- The dominator tree. -/
def dominators (g : Cfg) : DomTree :=
  let idoms := Idom.compute (g.rpo.map fun b => (g.preds b).filterMap g.rpoIndex?)
  .ofParents g.rpo fun k =>
    match idoms[k]?.join with
    | some m => if m = k then none else g.rpo[m]?
    | none => none

/-- The reachable blocks where control leaves the function. -/
def exits (g : Cfg) (f : Func) : List BlockId := g.rpo.filter fun b => (f.term b).isExit

/-- The blocks that reach an exit, in reverse post-order of the reversed graph. -/
def exitOrder (g : Cfg) (f : Func) : List BlockId :=
  (Search.visitAll g.preds (f.blocks.size + 1) (g.exits f) .empty).left

/-- The post-dominator tree. Node `0` is the virtual exit that all exits lead to, and node
`k + 1` the block at position `k`; a block has no parent if that would be the virtual exit. -/
def postDominators (g : Cfg) (f : Func) : DomTree :=
  let order := g.exitOrder f
  let nexts (b : BlockId) : List Nat :=
    (g.succs b).filterMap (fun s => (order.idxOf? s).map (· + 1))
      ++ (if (f.term b).isExit then [0] else [])
  let idoms := Idom.compute ([] :: order.map nexts)
  .ofParents order fun k =>
    match idoms[k + 1]?.join with
    | some (m + 1) => order[m]?
    | _ => none

end Cfg

end Lockstep
