import Lockstep.Cfg.Search
import Lockstep.Func.Basic

/-!
# Control-flow graphs

The graph of a function as seen from its entry: the reachable blocks in reverse post-order, and
the edges between them without duplicates. An unreachable block has no edges and is nobody's
predecessor.
-/

namespace Lockstep

/-- The control-flow graph of a function. -/
structure Cfg where
  entry : BlockId
  /-- The reachable blocks in reverse post-order. -/
  rpo : List BlockId
  succTable : Array (List BlockId)
  predTable : Array (List BlockId)
  deriving DecidableEq, Repr, Inhabited

namespace Func

/-- Searches the blocks that `start` reaches, without those in `seen`. -/
def search (f : Func) (start : BlockId) (reverse : Bool) (seen : List BlockId) : Search :=
  let next (b : BlockId) := if reverse then (f.term b).targets.reverse else (f.term b).targets
  Search.visit next (f.blocks.size + 1) start { seen }

/-- The reachable blocks in reverse post-order. The search takes the targets of a block from the
last to the first, so that the order keeps them as written where it can. -/
def reversePostOrder (f : Func) : List BlockId := (f.search f.entry true []).left

end Func

namespace Cfg

/-- The graph of a function. -/
def ofFunc (f : Func) : Cfg :=
  let rpo := f.reversePostOrder
  let succs (b : BlockId) := if rpo.contains b then (f.term b).targets.eraseDups else []
  let succTable := (f.blockIds.map succs).toArray
  let preds (b : BlockId) := rpo.filter fun p => (succTable[p]?.getD []).contains b
  { entry := f.entry, rpo, succTable, predTable := (f.blockIds.map preds).toArray }

/-- The successors of a block, in the order of its targets. -/
def succs (g : Cfg) (b : BlockId) : List BlockId := g.succTable[b]?.getD []

/-- Only the blocks of the table have successors. -/
theorem succs_eq_nil (g : Cfg) {b : BlockId} (h : g.succTable.size ≤ b) : g.succs b = [] := by
  rw [succs, Array.getElem?_eq_none h]
  rfl

/-- The reachable predecessors of a block, in reverse post-order. -/
def preds (g : Cfg) (b : BlockId) : List BlockId := g.predTable[b]?.getD []

/-- The position of a block in the reverse post-order. -/
def rpoIndex? (g : Cfg) (b : BlockId) : Option Nat := g.rpo.idxOf? b

def isReachable (g : Cfg) (b : BlockId) : Bool := g.rpo.contains b

end Cfg

end Lockstep
