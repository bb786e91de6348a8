import Lockstep.Func.Edit

/-!
# Building instructions at a point

A builder is a function with a point where the next instruction goes. Insertions that follow
each other stay in order, whatever the kind of point. Truth values that are known are folded
away.
-/

namespace Lockstep

/-- Where the next instruction goes. -/
inductive InsertPoint where
  /-- Right before the terminator of a block. -/
  | blockEnd (b : BlockId)
  /-- After the phis of a block. -/
  | afterPhis (b : BlockId)
  | before (i : InstId)
  | after (i : InstId)
  deriving DecidableEq, Repr, Inhabited

/-- A function that is being built, and the point of the next insertion. -/
structure Builder where
  func : Func
  point : InsertPoint
  deriving Repr, Inhabited

/-- A step of building. -/
abbrev Build := StateM Builder

namespace Builder

/-- The block that instructions are inserted into. -/
def currentBlock (b : Builder) : BlockId :=
  match b.point with
  | .blockEnd c | .afterPhis c => c
  | .before i | .after i => (b.func.inst i).block

/-- The position of the next instruction in the current block. A detached instruction counts as
the end of its block for an insertion before it, and as the start for one after it. -/
def position (b : Builder) : Nat :=
  match b.point with
  | .blockEnd c => (b.func.body c).length
  | .afterPhis c => b.func.firstNonPhi c
  | .before i => (b.func.positionOf? i).getD (b.func.body (b.func.inst i).block).length
  | .after i => ((b.func.positionOf? i).map (· + 1)).getD 0

/-- The point after an insertion: what follows goes behind the new instruction. -/
def advance (point : InsertPoint) (new : InstId) : InsertPoint :=
  match point with
  | .blockEnd b => .blockEnd b
  | .before i => .before i
  | .afterPhis _ | .after _ => .after new

/-- Inserts an instruction at the point. -/
def insert (b : Builder) (op : Op) (ty : Ty) : InstId × Builder :=
  let (i, func) := b.func.insertAt b.currentBlock b.position { op, ty, block := b.currentBlock }
  (i, { func, point := advance b.point i })

end Builder

namespace Build

/-! ## Instructions -/

/-- Inserts an operation, and returns the instruction. -/
def instr (code : Opcode) (args : List Value) (ty : Ty) : Build InstId :=
  fun b => b.insert (.apply code args) ty

/-- Inserts an operation, and returns its value. -/
def apply (code : Opcode) (args : List Value) (ty : Ty) : Build Value := do
  return .inst (← instr code args ty)

def typeOf (v : Value) : Build Ty := do return (← get).func.typeOf v

def binary (op : BinOp) (x y : Value) : Build Value := do
  apply (.binary op) [x, y] (← typeOf x)

def cmp (op : CmpOp) (x y : Value) : Build Value := apply (.cmp op) [x, y] .bool

/-- The conjunction of truth values; an operand known to be true is dropped. -/
def and (x y : Value) : Build Value :=
  if x.bool? = some true then pure y
  else if y.bool? = some true then pure x
  else binary .and x y

/-- The disjunction of truth values; an operand known to be false is dropped. -/
def or (x y : Value) : Build Value :=
  if x.bool? = some false then pure y
  else if y.bool? = some false then pure x
  else binary .or x y

/-- The negation of a truth value. -/
def not (x : Value) : Build Value :=
  match x.bool? with
  | some b => pure (.ofBool !b)
  | none => binary .xor x (.ofBool true)

/-- A choice between two values, which needs no instruction if they are one value. -/
def select (cond onTrue onFalse : Value) : Build Value := do
  if onTrue = onFalse then return onTrue
  apply .select [cond, onTrue, onFalse] (← typeOf onTrue)

def cast (op : CastOp) (v : Value) (ty : Ty) : Build Value := apply (.cast op) [v] ty

def ptrOffset (base offset : Value) : Build Value := do
  apply .ptrOffset [base, offset] (← typeOf base)

def load (ty : Ty) (address : Value) : Build Value := apply .load [address] ty

def store (address v : Value) : Build InstId := instr .store [address, v] .void

def call (callee : FuncId) (ty : Ty) (args : List Value) : Build InstId :=
  instr (.call callee) args ty

/-- Adds a phi to a block, wherever the point is. -/
def phi (b : BlockId) (ty : Ty) (incoming : List (BlockId × Value)) : Build Value := do
  let s ← get
  let (i, func) := s.func.appendPhi b ty incoming
  set { s with func }
  return .inst i

/-! ## Blocks and the point -/

def addBlock (name : String) : Build BlockId := do
  let s ← get
  let (b, func) := s.func.addBlock (some name)
  set { s with func }
  return b

def setPoint (point : InsertPoint) : Build Unit := modify fun s => { s with point }

/-- Moves the point to the end of a block. -/
def switchTo (b : BlockId) : Build Unit := setPoint (.blockEnd b)

def currentBlock : Build BlockId := do return (← get).currentBlock

/-- Ends the current block. -/
def setTerm (t : Terminator) : Build Unit :=
  modify fun s => { s with func := s.func.setTerm s.currentBlock t }

def br (target : BlockId) : Build Unit := setTerm (.br target)

def brIf (cond : Value) (onTrue onFalse : BlockId) : Build Unit :=
  setTerm (.brIf cond onTrue onFalse)

def ret (v : Option Value) : Build Unit := setTerm (.ret v)

end Build

/-- Builds at a point of a function. -/
def Func.buildAt {α : Type} (f : Func) (point : InsertPoint) (build : Build α) : α × Func :=
  let (x, b) := build { func := f, point }
  (x, b.func)

end Lockstep
