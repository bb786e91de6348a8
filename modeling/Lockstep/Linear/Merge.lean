import Lockstep.Vector.Stage

/-!
# Merging values by their edges

What a phi did by the edge that control came along, a merge does by masks: in each lane it is
the value whose edge mask is set in that lane, where exactly one is assumed to be. Masks that
merge with their own edge masks need no choice, only a disjunction.
-/

namespace Lockstep

namespace Merge

/-- A value that was built, and the values it was built from. -/
structure Built where
  value : Value
  inputs : List Value

/-- The disjunction of masks, with all that was built. -/
def disjunction (acc : Value) : List Value → Build (Value × List Built)
  | [] => return (acc, [])
  | mask :: masks => do
    let value ← Build.or acc mask
    let (result, built) ← disjunction value masks
    return (result, { value, inputs := [acc, mask] } :: built)

/-- Choices by edge masks, each falling back on the one before, with all that was built. -/
def choices (acc : Value) : List (Value × Value) → Build (Value × List Built)
  | [] => return (acc, [])
  | (mask, v) :: rest => do
    let value ← Build.select mask v acc
    let (result, built) ← choices value rest
    return (result, { value, inputs := [mask, v, acc] } :: built)

/-- Gives what was built a shape: uniform if its inputs are. A value that is one of its own
inputs was not built. -/
def recordShape (b : Built) : StateM Stage Unit := do
  if b.value.inst?.isSome && !b.inputs.contains b.value then
    Stage.setShape b.value ((← get).info.shapeOfInputs b.inputs)

end Merge

namespace Stage

/-- Merges values with their edge masks at a point, and returns the point after what was
built. -/
def merge (point : InsertPoint) (incoming : List (Value × Value)) :
    StateM Stage (Value × InsertPoint) := do
  match incoming.getLast?, incoming with
  | some (_, last), (_, first) :: rest =>
    if incoming.all fun (_, v) => v == last then return (last, point)
    let ((value, built), next) ← buildOn point <|
      if incoming.all fun (mask, v) => mask == v then
        Merge.disjunction first (rest.map Prod.fst)
      else Merge.choices last incoming.dropLast.reverse
    built.forM Merge.recordShape
    return (value, next)
  | _, _ => return (.ofBool false, point)

end Stage

end Lockstep
