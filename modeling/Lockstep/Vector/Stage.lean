import Lockstep.Func.Builder
import Lockstep.Func.Uses
import Lockstep.Vector.Error
import Lockstep.Vector.Info

/-!
# The state of a stage

A stage works on a function, on what is known about it, and on the masks of its blocks and
edges. A stage that fails keeps the changes made so far; to undo them is up to its caller.
-/

namespace Lockstep

/-! ## Masks -/

/-- The truth values that say in which lanes control reaches a block or takes an edge. -/
structure Masks where
  blocks : Table BlockId Value := .empty
  edges : Table (BlockId × BlockId) Value := .empty
  deriving Repr, DecidableEq, Inhabited

namespace Masks

def block? (m : Masks) (b : BlockId) : Option Value := m.blocks.get? b

def edge? (m : Masks) (pred succ : BlockId) : Option Value := m.edges.get? (pred, succ)

def setBlock (m : Masks) (b : BlockId) (mask : Value) : Masks :=
  { m with blocks := m.blocks.set b mask }

def setEdge (m : Masks) (pred succ : BlockId) (mask : Value) : Masks :=
  { m with edges := m.edges.set (pred, succ) mask }

theorem block?_setBlock (m : Masks) (b c : BlockId) (mask : Value) :
    (m.setBlock b mask).block? c = if c = b then some mask else m.block? c :=
  Table.get?_set _ _ _ _

theorem edge?_setEdge (m : Masks) (pred succ p q : BlockId) (mask : Value) :
    (m.setEdge pred succ mask).edge? p q =
      if (p, q) = (pred, succ) then some mask else m.edge? p q :=
  Table.get?_set _ _ _ _

/-- Replaces a value in the masks of some blocks and of all edges. -/
def replace (m : Masks) (bs : List BlockId) (old new : Value) : Masks where
  blocks := bs.foldl (fun t b => t.modify b fun v => if v = old then new else v) m.blocks
  edges := m.edges.mapValues fun v => if v = old then new else v

end Masks

/-! ## Stages -/

/-- What a stage works on. -/
structure Stage where
  func : Func
  info : VectorInfo
  masks : Masks := {}
  deriving Repr, Inhabited

/-- A part of a stage, which may fail. -/
abbrev StageM := ExceptT VectorizeError (StateM Stage)

namespace Stage

def modifyFunc (g : Func → Func) : StateM Stage Unit := modify fun s => { s with func := g s.func }

def modifyInfo (g : VectorInfo → VectorInfo) : StateM Stage Unit :=
  modify fun s => { s with info := g s.info }

def modifyMasks (g : Masks → Masks) : StateM Stage Unit :=
  modify fun s => { s with masks := g s.masks }

def setShape (v : Value) (shape : Shape) : StateM Stage Unit := modifyInfo (·.setShape v shape)

/-- Builds at a point, and returns the point after what was built. -/
def buildOn {α : Type} (point : InsertPoint) (build : Build α) : StateM Stage (α × InsertPoint) :=
  fun s =>
    let (x, b) := build { func := s.func, point }
    ((x, b.point), { s with func := b.func })

/-- Builds at a point. -/
def build {α : Type} (point : InsertPoint) (build : Build α) : StateM Stage α := do
  return (← buildOn point build).1

def appendPhi (b : BlockId) (ty : Ty) (incoming : List (BlockId × Value)) :
    StateM Stage InstId :=
  fun s =>
    let (phi, func) := s.func.appendPhi b ty incoming
    (phi, { s with func })

/-- Sets the mask of a block, which becomes its predicate. -/
def setBlockMask (b : BlockId) (mask : Value) : StateM Stage Unit := do
  modifyMasks (·.setBlock b mask)
  modifyInfo (·.setPredicate b mask)

def setEdgeMask (pred succ : BlockId) (mask : Value) : StateM Stage Unit :=
  modifyMasks (·.setEdge pred succ mask)

end Stage

end Lockstep
