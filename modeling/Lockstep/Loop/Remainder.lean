import Lockstep.Func.Uses
import Lockstep.Func.Builder
import Lockstep.Loop.Counted

/-!
# Splitting off a remainder

A counted loop is split into a main loop, whose trip count is a multiple of the vector width, and
a copy of the loop for the iterations left. The trip count is computed before the loop:

* `trip` is `(bound - start - 1) / step + 1` if `start` is below `bound`, and zero otherwise;
* the main loop makes `trip - trip % width` trips, so that it ends at `bound` if the width
  divides `trip`, and at `start + (trip - trip % width) * step` otherwise.

The division is unsigned, since `bound - start` need not fit a signed number. The end of the
main loop never overflows: it lies between `start` and `bound`.
-/

namespace Lockstep

/-- The loop for the iterations left. -/
structure RemainderLoop where
  /-- The block between the main loop and the remainder. -/
  preheader : BlockId
  header : BlockId
  /-- The copies of the blocks of the loop, in the same order. -/
  blocks : List BlockId
  deriving DecidableEq, Repr, Inhabited

/-- A loop whose trip count is a multiple of the vector width. -/
structure VectorizableLoop where
  header : BlockId
  /-- What the induction variable is compared with. -/
  mainBound : Value
  /-- The remainder, unless the loop needs none. -/
  remainder : Option RemainderLoop
  deriving DecidableEq, Repr, Inhabited

namespace Loop

/-- Whether the exit test of a loop is understood. -/
def hasCountedExit (f : Func) (a : Analyses) (l : Loop) : Bool :=
  match l.counted f a with
  | .ok _ => true
  | .error _ => false

/-- Accepts the loops that can be split: counted loops over integers. -/
def splittable (f : Func) (a : Analyses) (l : Loop) : Except LoopRejection CountedLoop := do
  let c ← l.counted f a
  match (f.inst c.iv).ty with
  | .int _ => return c
  | _ => throw .unrecognizedExitTest

end Loop

namespace CountedLoop

/-! ## The bound of the main loop -/

/-- Computes the bound of the main loop, and returns it with all values made on the way. -/
def buildMainBound (c : CountedLoop) (ty : Ty) (width : Int64) : Build (Value × List Value) := do
  let zero := Value.ofInt ty 0
  let one := Value.ofInt ty 1
  let step := Value.ofInt ty c.step
  let hasIters ← Build.cmp c.stayOp c.start c.bound
  let span ← Build.binary .sub c.bound c.start
  let lastOffset ← Build.binary .sub span one
  let lastIndex ← Build.binary .udiv lastOffset step
  let tripIfAny ← Build.binary .add lastIndex one
  let trip ← Build.select hasIters tripIfAny zero
  let remTrips ← Build.binary .urem trip (.ofInt ty width)
  let mainTrips ← Build.binary .sub trip remTrips
  let mainSpan ← Build.binary .mul mainTrips step
  let partialBound ← Build.binary .add c.start mainSpan
  let noRem ← Build.cmp .eq remTrips zero
  let mainBound ← Build.select noRem c.bound partialBound
  return (mainBound, [hasIters, span, lastOffset, lastIndex, tripIfAny, trip, remTrips, mainTrips,
    mainSpan, partialBound, noRem, mainBound])

/-! ## The copy of the loop -/

/-- A copy of some blocks. -/
structure Copy where
  blocks : List (BlockId × BlockId) := []
  values : List (Value × Value) := []
  deriving Repr, Inhabited

/-- The name of the copy of a block. -/
def copyName (f : Func) (b : BlockId) (suffix : String) : String :=
  ((f.block b).name.getD (BlockId.text b)) ++ suffix

/-- Copies an instruction to the end of a block. -/
def copyInst (target : BlockId) (s : Copy × Func) (i : InstId) : Copy × Func :=
  let (new, f) := s.2.append target (s.2.inst i)
  ({ s.1 with values := s.1.values ++ [(.inst i, .inst new)] }, f)

/-- Copies a block with its operands as they are, and without its terminator. -/
def copyBlock (s : Copy × Func) (b : BlockId) : Copy × Func :=
  let (new, f) := s.2.addBlock (some (copyName s.2 b ".rem"))
  let c := { s.1 with blocks := s.1.blocks ++ [(b, new)] }
  (f.body b).foldl (copyInst new) (c, f)

namespace Copy

def block (c : Copy) (b : BlockId) : BlockId := (c.blocks.lookup b).getD b

def value (c : Copy) (v : Value) : Value := (c.values.lookup v).getD v

/-- The replacement of what was copied by its copy. -/
def substitution (c : Copy) : Substitution where
  value := c.value
  block := c.block

/-- The instructions of a copy. -/
def insts (c : Copy) : List InstId := c.values.filterMap (·.2.inst?)

/-- Connects copies with each other instead of with the blocks and values of the loop. -/
def connect (c : Copy) (f : Func) : Func :=
  let f := c.insts.foldl (fun f i => f.substUser c.substitution (.inst i)) f
  c.blocks.foldl (fun f (old, new) => f.setTerm new ((f.term old).map c.block c.value)) f

/-- Replaces the values of the loop by their copies in all blocks outside the loop and its copy. -/
def replaceOutside (c : Copy) (f : Func) : Func :=
  let isInside (b : BlockId) := c.blocks.any fun (old, new) => old == b || new == b
  let users := (f.layout.filter fun b => !isInside b).flatMap f.blockUsers
  users.foldl (fun f u => f.substUser { value := c.value } u) f

end Copy

/-- Adds the remainder: a copy of the loop with a preheader of its own, which starts from the
state in which the main loop stops and ends where the loop ended. -/
def addRemainder (c : CountedLoop) (l : Loop) (f : Func) : RemainderLoop × Func :=
  let header := c.shape.header
  let (preheader, f) := f.addBlock (some (copyName f header ".rem.preheader"))
  let (copy, f) := l.blocks.foldl copyBlock (({} : Copy), f)
  let f := copy.connect f
  let newHeader := copy.block header
  let f := (f.setTerm preheader (.br newHeader)).replacePhiPred newHeader c.shape.preheader
    preheader
  let f := ((f.body header).filter f.isPhi).foldl (fun f phi =>
    match copy.value (.inst phi) with
    | .inst new => f.setIncoming new preheader (.inst phi)
    | _ => f) f
  let f := copy.replaceOutside (f.replacePhiPred c.shape.exit header newHeader)
  ({ preheader, header := newHeader, blocks := l.blocks.map copy.block }, f)

end CountedLoop

/-- Adds the values that a set does not have yet, at its end. -/
def insertAll (set new : List Value) : List Value :=
  new.foldl (fun s v => if s.contains v then s else s ++ [v]) set

namespace Loop

/-- What splitting a loop gives. -/
structure Split where
  loop : VectorizableLoop
  func : Func
  /-- Values known to be uniform, those that the splitting made included. -/
  uniform : List Value
  deriving Repr, Inhabited

/-- Whether a vector width can be written in an integer type. -/
def widthFits (width : Nat) (bits : Nat) : Bool :=
  width != 0 && decide ((Word.signExtend (Int64.ofNat width) bits).toInt = width)

/-- Splits off a remainder, if the loop has the right shape and the width fits its type. A trip
count that is known to be a multiple of the width needs no remainder; `tripAlignment` is a
divisor of the trip count that is known, zero or one if there is none. -/
def split? (f : Func) (a : Analyses) (l : Loop) (uniform : List Value)
    (width tripAlignment : Nat) : Option Split :=
  match l.splittable f a with
  | .error _ => none
  | .ok c =>
    let ty := (f.inst c.iv).ty
    let header := c.shape.header
    if !widthFits width ty.bitWidth then none
    else if max tripAlignment 1 % width = 0 then
      some { loop := { header, mainBound := c.bound, remainder := none }, func := f, uniform }
    else
      let ((mainBound, made), f) :=
        f.buildAt (.blockEnd c.shape.preheader) (c.buildMainBound ty (Int64.ofNat width))
      let (remainder, f) := c.addRemainder l f
      let (_, f) := f.buildAt (.blockEnd header) do
        let stay ← Build.cmp c.stayOp (.inst c.iv) mainBound
        Build.brIf stay c.shape.continueTarget remainder.preheader
      some {
        loop := { header, mainBound, remainder := some remainder }
        func := f
        uniform := insertAll uniform made }

/-! ## In place -/

/-- A function that a loop is split off in, and the values known to be uniform. -/
structure Splitting where
  func : Func
  uniform : List Value
  deriving Repr, Inhabited

namespace Splitting

variable {α β : Type} (s : Splitting)

/-- Changes the function. -/
def change (m : Func → α × Func) : StateM Splitting α :=
  fun s => ((m s.func).1, { s with func := (m s.func).2 })

theorem get_bind (k : Splitting → StateM Splitting β) : (get >>= k) s = k s s := rfl

theorem modify_bind (g : Splitting → Splitting) (k : PUnit → StateM Splitting β) :
    (modify g >>= k) s = k ⟨⟩ (g s) := rfl

theorem change_bind (m : Func → α × Func) (k : α → StateM Splitting β) :
    (change m >>= k) s = k (m s.func).1 { s with func := (m s.func).2 } := rfl

end Splitting

/-- Splits off a remainder in place. Whether the loop can be split is found out first; function and
uniform values are then changed one after the other. -/
def splitOff (a : Analyses) (l : Loop) (width tripAlignment : Nat) :
    StateM Splitting (Option VectorizableLoop) := do
  let f := (← get).func
  let .ok c := l.splittable f a | return none
  let ty := (f.inst c.iv).ty
  if !widthFits width ty.bitWidth then return none
  let header := c.shape.header
  if max tripAlignment 1 % width = 0 then
    return some { header, mainBound := c.bound, remainder := none }
  let (mainBound, made) ← Splitting.change fun f =>
    f.buildAt (.blockEnd c.shape.preheader) (c.buildMainBound ty (Int64.ofNat width))
  modify fun s => { s with uniform := insertAll s.uniform made }
  let remainder ← Splitting.change (c.addRemainder l)
  Splitting.change fun f => f.buildAt (.blockEnd header) do
    let stay ← Build.cmp c.stayOp (.inst c.iv) mainBound
    Build.brIf stay c.shape.continueTarget remainder.preheader
  return some { header, mainBound, remainder := some remainder }

/-- What splitting in place does to a function is what `split?` returns. -/
theorem splitOff_eq (a : Analyses) (l : Loop) (width tripAlignment : Nat) (s : Splitting) :
    splitOff a l width tripAlignment s =
      match l.split? s.func a s.uniform width tripAlignment with
      | none => (none, s)
      | some r => (some r.loop, { func := r.func, uniform := r.uniform }) := by
  unfold splitOff split?
  rw [Splitting.get_bind]
  cases l.splittable s.func a with
  | error e => rfl
  | ok c =>
    dsimp only
    split
    · rfl
    split
    · rfl
    rw [Splitting.change_bind]
    dsimp only
    generalize s.func.buildAt _ _ = built
    obtain ⟨⟨mainBound, made⟩, f⟩ := built
    dsimp only
    rw [Splitting.modify_bind, Splitting.change_bind]
    dsimp only
    generalize c.addRemainder l f = added
    rw [Splitting.change_bind]
    rfl

end Loop

end Lockstep
