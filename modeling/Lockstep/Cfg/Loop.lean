import Lockstep.Cfg.Dominance
import Lockstep.Func.Basic

/-!
# Loops

Loops are strongly connected components, at every level of nesting: a component found by the
search is a loop whose header is the first of its blocks to be reached; then the header is
struck out and the search repeated on the rest, which finds the loops inside. `LoopForest`
numbers the loops so that an enclosing loop comes before the loops in it.
-/

namespace Lockstep

/-! ## Search for components -/

/-- The two ways in which the bookkeeping of the search could fail. -/
inductive LoopSearchFault where
  /-- The search in a loop left the stack changed. -/
  | unbalanced
  /-- A block outside all cycles is left while it is not on top of the stack. -/
  | misplaced
  /-- The search went deeper than the fuel allows. -/
  | tooDeep
  deriving DecidableEq, Repr

/-- What the search knows about a block that it has reached. -/
inductive LoopSearchMark where
  /-- The block waits on the stack, at this position. -/
  | pending (slot : Nat)
  | complete
  deriving DecidableEq, Repr

/-- The state of the search for loops. -/
structure LoopSearch where
  /-- The blocks whose component is not complete, oldest first. -/
  stack : List BlockId := []
  marks : Table BlockId LoopSearchMark := .empty
  /-- Headers with the blocks of their loops, as they were found. -/
  found : List (BlockId × List BlockId) := []
  deriving Repr, Inhabited

namespace LoopSearch

/-- The smaller of two positions, if there is any. -/
def earlier : Option Nat → Option Nat → Option Nat
  | none, b => b
  | a, none => a
  | some a, some b => some (min a b)

def push (s : LoopSearch) (b : BlockId) : LoopSearch :=
  { s with stack := s.stack ++ [b], marks := s.marks.set b (.pending s.stack.length) }

def complete (s : LoopSearch) (b : BlockId) : LoopSearch :=
  { s with marks := s.marks.set b .complete }

/-- Records the loop that lies on the stack from `slot` on, and forgets the marks of its blocks
but the header. -/
def recordLoop (s : LoopSearch) (header : BlockId) (slot : Nat) : LoopSearch :=
  let body := s.stack.drop slot
  let s := { s with found := s.found ++ [(header, body)] }.complete header
  { s with marks := (body.drop 1).foldl (fun t b => t.erase b) s.marks }

/-- The first position on the stack that a block reaches, or none if the block lies on no cycle
with the stack. -/
def visit (succs : BlockId → List BlockId) :
    (fuel : Nat) → BlockId → LoopSearch → Except LoopSearchFault (Option Nat × LoopSearch)
  | 0, _, _ => .error .tooDeep
  | fuel + 1, b, s =>
    match s.marks.get? b with
    | some (.pending slot) => .ok (some slot, s)
    | some .complete => .ok (none, s)
    | none => do
      let slot := s.stack.length
      let (first, s) ← (succs b).foldlM (fun (first, s) c => do
        let (next, s) ← visit succs fuel c s
        return (earlier first next, s)) (none, s.push b)
      if first = some slot then
        let top := s.stack.length
        let inner := s.stack.drop (slot + 1)
        let s ← inner.foldlM (fun s c => do return (← visit succs fuel c s).2)
          (s.recordLoop b slot)
        if s.stack.length ≠ top then throw .unbalanced
        return (none, { s with stack := s.stack.take slot })
      else if first = none then
        if s.stack.getLast? ≠ some b then throw .misplaced
        return (none, { s with stack := s.stack.dropLast }.complete b)
      else return (first, s)

/-- The search from the entry of a graph. -/
def run (g : Cfg) : Except LoopSearchFault LoopSearch := do
  return (← visit g.succs (g.succTable.size + 2) g.entry {}).2

end LoopSearch

/-! ## Loops and their nesting -/

/-- A loop of a loop forest. -/
abbrev LoopId := Nat

/-- A loop with its edges. -/
structure Loop where
  header : BlockId
  /-- The blocks of the loop, inner loops included, header first. -/
  blocks : List BlockId
  /-- The predecessors of the header in the loop. -/
  latches : List BlockId
  /-- The predecessors of the header outside the loop. -/
  entering : List BlockId
  /-- The edges that leave the loop. -/
  exitEdges : List (BlockId × BlockId)
  parent : Option LoopId
  /-- The number of loops around the header, this one included. -/
  depth : Nat
  /-- Whether the header dominates the loop. -/
  reducible : Bool
  deriving DecidableEq, Repr, Inhabited

namespace Loop

def contains (l : Loop) (b : BlockId) : Bool := l.blocks.contains b

/-- The latch, if there is exactly one. -/
def latch? (l : Loop) : Option BlockId :=
  match l.latches with
  | [latch] => some latch
  | _ => none

/-- The only entering block, if it leads nowhere but to the header. -/
def preheader? (l : Loop) (f : Func) : Option BlockId :=
  match l.entering with
  | [pre] => if f.term pre = .br l.header then some pre else none
  | _ => none

/-- The blocks that the exit edges lead to. -/
def exitBlocks (l : Loop) : List BlockId := (l.exitEdges.map Prod.snd).eraseDups

/-- Whether a value is defined outside the loop; constants and parameters are. -/
def isInvariant (l : Loop) (f : Func) : Value → Bool
  | .const _ | .param _ => true
  | .inst i => !l.contains (f.inst i).block

end Loop

/-- The loops of a function. -/
structure LoopForest where
  loops : List Loop := []
  /-- The innermost loop around each block. -/
  innermost : Table BlockId LoopId := .empty
  deriving Repr, Inhabited

namespace LoopForest

def size (t : LoopForest) : Nat := t.loops.length

def get (t : LoopForest) (id : LoopId) : Loop := t.loops[id]?.getD default

def ids (t : LoopForest) : List LoopId := List.range t.size

def isEmpty (t : LoopForest) : Bool := t.loops.isEmpty

/-- Adds a loop; the loops around it are there already. -/
def add (g : Cfg) (dom : DomTree) (t : LoopForest) (header : BlockId) (blocks : List BlockId) :
    LoopForest :=
  let inside (b : BlockId) := blocks.contains b
  let (latches, entering) := (g.preds header).partition inside
  let edges := blocks.flatMap fun b => (g.succs b).map fun s => (b, s)
  let parent := t.innermost.get? header
  let l : Loop := {
    header, blocks, latches, entering, parent
    exitEdges := edges.filter fun e => !inside e.2
    depth := (parent.map fun p => (t.get p).depth + 1).getD 1
    reducible := blocks.all (dom.dominates header) }
  { loops := t.loops ++ [l]
    innermost := blocks.foldl (fun m b => m.set b t.size) t.innermost }

/-- The loops of a graph. -/
def ofCfg (g : Cfg) (dom : DomTree) : LoopForest :=
  match LoopSearch.run g with
  | .ok s => s.found.foldl (fun t (header, blocks) => t.add g dom header blocks) {}
  | .error _ => {}

/-- All loops, deeper ones first. -/
def innerToOuter (t : LoopForest) : List LoopId :=
  t.ids.mergeSort fun a b => decide ((t.get b).depth ≤ (t.get a).depth)

def innermostOf? (t : LoopForest) (b : BlockId) : Option LoopId := t.innermost.get? b

/-- The loop that a block is the header of. -/
def withHeader? (t : LoopForest) (b : BlockId) : Option LoopId :=
  (t.innermostOf? b).filter fun id => (t.get id).header == b

def isHeader (t : LoopForest) (b : BlockId) : Bool := (t.withHeader? b).isSome

end LoopForest

end Lockstep
