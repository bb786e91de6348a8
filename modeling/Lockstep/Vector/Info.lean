import Lockstep.Vector.Region
import Lockstep.Vector.Shape

/-!
# What is known about a function that is vectorized

Width, region, the shapes of values, the divergence of blocks and their predicates. What is not
recorded reads as the cautious answer: a value without a shape is not uniform, and a block
without a mark is divergent. Constants are always uniform.
-/

namespace Lockstep

/-- Knowledge about the values and blocks of a function. -/
structure VectorInfo where
  width : Nat
  /-- The part that is vectorized; the whole function if there is none. -/
  region : Option Region := none
  shapes : Table Value Shape := .empty
  divergence : Table BlockId Bool := .empty
  /-- For a block the truth value of the lanes that are active in it. -/
  predicates : Table BlockId Value := .empty
  deriving Repr, DecidableEq, Inhabited

namespace VectorInfo

/-- The entry of the region or of the function. -/
def entry (v : VectorInfo) (f : Func) : BlockId := (v.region.map Region.entry).getD f.entry

def inRegion (v : VectorInfo) (b : BlockId) : Bool := v.region.all (·.contains b)

/-- Whether a value is computed by an instruction of the region. -/
def definesValue (v : VectorInfo) (f : Func) : Value → Bool
  | .inst i => v.inRegion (f.inst i).block
  | _ => false

/-! ## Shapes -/

def shape (v : VectorInfo) : Value → Shape
  | .const _ => .uni
  | x => v.shapes.getD x .unknown

def setShape (v : VectorInfo) (x : Value) (s : Shape) : VectorInfo :=
  { v with shapes := v.shapes.set x s }

theorem shape_setShape (v : VectorInfo) (x y : Value) (s : Shape) :
    (v.setShape x s).shape y = if y = x ∧ y.isConst = false then s else v.shape y := by
  cases y with
  | const c => simp [shape, Value.isConst]
  | param k =>
    show ((v.shapes.set x s).get? (.param k)).getD .unknown = _
    rw [Table.get?_set]
    by_cases h : Value.param k = x <;> simp [h, Value.isConst, shape, Table.getD]
  | inst i =>
    show ((v.shapes.set x s).get? (.inst i)).getD .unknown = _
    rw [Table.get?_set]
    by_cases h : Value.inst i = x <;> simp [h, Value.isConst, shape, Table.getD]

/-- Forgets the shape of a value. -/
def dropShape (v : VectorInfo) (x : Value) : VectorInfo := { v with shapes := v.shapes.erase x }

def isUniform (v : VectorInfo) (x : Value) : Bool := (v.shape x).isUniform

/-- The shape of a value computed from others: uniform if they all are. -/
def shapeOfInputs (v : VectorInfo) (xs : List Value) : Shape :=
  if xs.all v.isUniform then .uni else .vary

/-! ## Blocks -/

def isDivergent (v : VectorInfo) (b : BlockId) : Bool := v.divergence.getD b true

def setDivergent (v : VectorInfo) (b : BlockId) (divergent : Bool) : VectorInfo :=
  { v with divergence := v.divergence.set b divergent }

theorem isDivergent_setDivergent (v : VectorInfo) (b c : BlockId) (divergent : Bool) :
    (v.setDivergent b divergent).isDivergent c = if c = b then divergent else v.isDivergent c := by
  show ((v.divergence.set b divergent).get? c).getD true = _
  rw [Table.get?_set]
  split <;> rfl

def predicate? (v : VectorInfo) (b : BlockId) : Option Value := v.predicates.get? b

def setPredicate (v : VectorInfo) (b : BlockId) (mask : Value) : VectorInfo :=
  { v with predicates := v.predicates.set b mask }

theorem predicate?_setPredicate (v : VectorInfo) (b c : BlockId) (mask : Value) :
    (v.setPredicate b mask).predicate? c = if c = b then some mask else v.predicate? c :=
  Table.get?_set _ _ _ _

/-- Replaces a value in the predicates of some blocks. -/
def remapPredicates (v : VectorInfo) (bs : List BlockId) (old new : Value) : VectorInfo :=
  let replace (t : Table BlockId Value) (b : BlockId) :=
    t.modify b fun mask => if mask = old then new else mask
  { v with predicates := bs.foldl replace v.predicates }

/-- Adds a block to the region, if there is one. -/
def addBlock (v : VectorInfo) (b : BlockId) : VectorInfo :=
  { v with region := v.region.map (·.addBlock b) }

end VectorInfo

end Lockstep
