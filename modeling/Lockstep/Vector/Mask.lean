import Lockstep.Vector.Stage

/-!
# Masks of blocks and edges

The mask of a block says in which lanes control reaches it. It is true for the entry of the
region and for a block that is not divergent, the mask of the edge for a block with one
predecessor, and a phi of the edge masks for a block with several. The mask of an edge is that
of its source, narrowed by the branch condition. A mask is made once; a phi is recorded before
the masks of its edges are asked for, because they may depend on it around a loop.
-/

namespace Lockstep

namespace Stage

/-- The mask of an edge, where `blockMask` gives the mask of its source. -/
def edgeMaskBy (blockMask : BlockId → StateM Stage Value) (pred succ : BlockId) :
    StateM Stage Value := do
  match (← get).masks.edge? pred succ with
  | some mask => return mask
  | none =>
    let predMask ← blockMask pred
    let s ← get
    let mask ←
      match s.func.term pred with
      | .brIf cond onTrue _ =>
        let shape := s.info.shapeOfInputs [predMask, cond]
        let (taken, mask) ← build (.blockEnd pred) do
          let taken ← if onTrue = succ then pure cond else Build.not cond
          let mask ← Build.and predMask taken
          return (taken, mask)
        for v in [taken, mask] do
          if v.inst?.isSome && v != cond && v != predMask then setShape v shape
        pure mask
      | _ => pure predMask
    setEdgeMask pred succ mask
    return mask

/-- The mask of a block, asking for masks at most `fuel` blocks deep. -/
def blockMaskWithin (g : Cfg) : (fuel : Nat) → BlockId → StateM Stage Value
  | 0, _ => return .ofBool true
  | fuel + 1, b => do
    let s ← get
    match s.masks.block? b with
    | some mask => return mask
    | none =>
      if b = s.info.entry s.func || !s.info.inRegion b || !s.info.isDivergent b then
        setBlockMask b (.ofBool true)
        return .ofBool true
      match g.preds b with
      | [] =>
        setBlockMask b (.ofBool true)
        return .ofBool true
      | [pred] =>
        let mask ← edgeMaskBy (blockMaskWithin g fuel) pred b
        setBlockMask b mask
        return mask
      | preds =>
        let phi ← appendPhi b .bool []
        setShape (.inst phi) .vary
        setBlockMask b (.inst phi)
        for pred in preds do
          let mask ← edgeMaskBy (blockMaskWithin g fuel) pred b
          modifyFunc (·.setIncoming phi pred mask)
        return .inst phi

/-- How deep requests for masks may nest. A request climbs single predecessors, at most past all
blocks, until it comes to a block with several, which then has its phi. -/
def maskDepth (g : Cfg) : Nat := (g.succTable.size + 1) * (g.succTable.size + 1)

theorem maskDepth_ne_zero (g : Cfg) : maskDepth g ≠ 0 :=
  Nat.mul_ne_zero (Nat.succ_ne_zero _) (Nat.succ_ne_zero _)

/-- The mask of a block. -/
def blockMask (g : Cfg) (b : BlockId) : StateM Stage Value := blockMaskWithin g (maskDepth g) b

/-- The mask of an edge. -/
def edgeMask (g : Cfg) (pred succ : BlockId) : StateM Stage Value :=
  edgeMaskBy (blockMask g) pred succ

/-- Makes the masks of all reachable blocks of the region, and of the edges that leave them. -/
def expandMasks (g : Cfg) : StateM Stage Unit :=
  g.rpo.forM fun b => do
    if (← get).info.inRegion b then
      let _ ← blockMask g b
      (g.succs b).forM fun succ => do
        let _ ← edgeMask g b succ

end Stage

end Lockstep
