import Lockstep.Decimal.Text
import Lockstep.Op
import Lockstep.Scalar
import Lockstep.Ty

/-!
# Functions

A function is a control-flow graph of blocks over instructions in static single assignment
form. Blocks and instructions are never deleted: an instruction that is taken out of its block
stays defined, detached. `Func.layout` lists the blocks in printing order, entry first.
-/

namespace Lockstep

/-- A block of a function; `0` is the entry. -/
abbrev BlockId := Nat

/-- An instruction of a function. -/
abbrev InstId := Nat

/-- A function of a module. -/
abbrev FuncId := Nat

/-! ## Values -/

/-- A constant of a type. -/
structure Const where
  ty : Ty
  val : Scalar
  deriving DecidableEq, Repr, Inhabited

namespace Const

def ofBool (b : Bool) : Const := ⟨.bool, .bool b⟩

/-- An integer constant, wrapped at the width of an integer type. -/
def ofInt (ty : Ty) (x : Int64) : Const :=
  match ty with
  | .int width => ⟨ty, .int (Word.signExtend x width)⟩
  | _ => ⟨ty, .int x⟩

/-- A floating-point constant, rounded if its type is single precision. -/
def ofFloat (ty : Ty) (x : Binary64) : Const :=
  match ty with
  | .float 32 => ⟨ty, .float x.round32⟩
  | _ => ⟨ty, .float x⟩

def undefined (ty : Ty) : Const := ⟨ty, .undefined⟩

/-- The number followed by its type; a truth value stands alone. -/
def text (c : Const) : String :=
  match c.val with
  | .undefined => "undef." ++ c.ty.text
  | .bool b => if b then "true" else "false"
  | .int x => toString x.toInt ++ c.ty.text
  | .float x => x.text ++ c.ty.text

end Const

/-- An operand. -/
inductive Value where
  | const (c : Const)
  /-- A parameter of the function. -/
  | param (index : Nat)
  /-- What an instruction computes. -/
  | inst (i : InstId)
  deriving DecidableEq, Repr, Inhabited

namespace Value

def ofBool (b : Bool) : Value := .const (.ofBool b)

def ofInt (ty : Ty) (x : Int64) : Value := .const (.ofInt ty x)

def undefined (ty : Ty) : Value := .const (.undefined ty)

/-- The truth value that an operand is known to have. -/
def bool? : Value → Option Bool
  | .const ⟨_, .bool b⟩ => some b
  | _ => none

/-- The integer that an operand is known to be. -/
def int? : Value → Option Int64
  | .const ⟨_, .int x⟩ => some x
  | _ => none

def inst? : Value → Option InstId
  | .inst i => some i
  | _ => none

def isConst : Value → Bool
  | .const _ => true
  | _ => false

def text : Value → String
  | .const c => c.text
  | .param index => "%" ++ toString index
  | .inst i => "v" ++ toString i

end Value

/-! ## Instructions -/

/-- What an instruction other than a phi does with its arguments. -/
inductive Opcode where
  | binary (op : BinOp)
  | cmp (op : CmpOp)
  /-- Condition, value if true, value if false. -/
  | select
  | cast (op : CastOp)
  /-- Base and offset in cells. -/
  | ptrOffset
  | load
  /-- Address and stored value. -/
  | store
  | call (callee : FuncId)
  | extractElement
  | insertElement
  | shuffleVector
  | extractValue (index : Nat)
  | insertValue (index : Nat)
  deriving DecidableEq, Repr, Inhabited

/-- Whether an operation reads or changes anything beyond its arguments. -/
def Opcode.hasSideEffects : Opcode → Bool
  | .load | .store | .call _ => true
  | _ => false

/-- An operation with its operands. -/
inductive Op where
  /-- The value that belongs to the predecessor control came from. -/
  | phi (incoming : List (BlockId × Value))
  | apply (code : Opcode) (args : List Value)
  deriving DecidableEq, Repr

instance : Inhabited Op := ⟨.apply .select []⟩

namespace Op

def isPhi : Op → Bool
  | .phi _ => true
  | .apply _ _ => false

def inputs : Op → List Value
  | .phi incoming => incoming.map Prod.snd
  | .apply _ args => args

def hasSideEffects : Op → Bool
  | .phi _ => false
  | .apply code _ => code.hasSideEffects

/-- Replaces the operands and the predecessors of an operation. -/
def map (block : BlockId → BlockId) (value : Value → Value) : Op → Op
  | .phi incoming => .phi (incoming.map fun (b, v) => (block b, value v))
  | .apply code args => .apply code (args.map value)

end Op

/-- An instruction. -/
structure Instr where
  op : Op
  /-- The type of the computed value, `void` for none. -/
  ty : Ty
  /-- The lanes that take part in a side effect; all of them if absent. -/
  mask : Option Value := none
  /-- The block the instruction was inserted into. -/
  block : BlockId
  deriving DecidableEq, Repr, Inhabited

namespace Instr

def isPhi (d : Instr) : Bool := d.op.isPhi

def inputs (d : Instr) : List Value := d.op.inputs

/-- An input by its position; an undefined value past the last. -/
def input (d : Instr) (k : Nat) : Value := d.inputs[k]?.getD (.undefined .void)

/-- The predecessors and values of a phi. -/
def incoming (d : Instr) : List (BlockId × Value) :=
  match d.op with
  | .phi incoming => incoming
  | .apply _ _ => []

def callee? (d : Instr) : Option FuncId :=
  match d.op with
  | .apply (.call callee) _ => some callee
  | _ => none

/-- The values that an instruction uses: its inputs, then its mask. -/
def uses (d : Instr) : List Value := d.inputs ++ d.mask.toList

/-- Replaces the values and predecessors that an instruction uses. -/
def map (block : BlockId → BlockId) (value : Value → Value) (d : Instr) : Instr :=
  { d with op := d.op.map block value, mask := d.mask.map value }

end Instr

/-! ## Terminators -/

/-- How control leaves a block. -/
inductive Terminator where
  | unreachable
  | ret (value : Option Value)
  | br (target : BlockId)
  | brIf (cond : Value) (onTrue onFalse : BlockId)
  deriving DecidableEq, Repr

instance : Inhabited Terminator := ⟨.unreachable⟩

namespace Terminator

def targets : Terminator → List BlockId
  | .unreachable | .ret _ => []
  | .br target => [target]
  | .brIf _ onTrue onFalse => [onTrue, onFalse]

def uses : Terminator → List Value
  | .unreachable | .br _ => []
  | .ret value => value.toList
  | .brIf cond _ _ => [cond]

def cond? : Terminator → Option Value
  | .brIf cond _ _ => some cond
  | _ => none

/-- Whether control leaves the function. -/
def isExit : Terminator → Bool
  | .unreachable | .ret _ => true
  | _ => false

/-- Replaces the targets and values of a terminator. -/
def map (block : BlockId → BlockId) (value : Value → Value) : Terminator → Terminator
  | .unreachable => .unreachable
  | .ret v => .ret (v.map value)
  | .br target => .br (block target)
  | .brIf cond onTrue onFalse => .brIf (value cond) (block onTrue) (block onFalse)

end Terminator

/-- The one way to misuse a terminator: a conditional branch whose targets are one block. -/
inductive TerminatorFault where
  | identicalTargets
  deriving DecidableEq, Repr

def TerminatorFault.message : TerminatorFault → String
  | .identicalTargets => "`br_if` with identical targets"

/-- Accepts every terminator but a conditional branch with identical targets. -/
def Terminator.checked : Terminator → Except TerminatorFault Terminator
  | .brIf cond onTrue onFalse =>
    if onTrue = onFalse then .error .identicalTargets else .ok (.brIf cond onTrue onFalse)
  | t => .ok t

/-! ## Blocks and functions -/

/-- Instructions in order, phis first, and the terminator. -/
structure Block where
  name : Option String := none
  insts : List InstId := []
  term : Terminator := .unreachable
  deriving DecidableEq, Repr, Inhabited

/-- A function body. -/
structure Func where
  params : List Ty
  retTy : Ty
  blocks : Array Block
  insts : Array Instr
  layout : List BlockId
  deriving DecidableEq, Repr, Inhabited

namespace Func

/-- The block where control starts. -/
def entry (_ : Func) : BlockId := 0

/-- A function with an empty entry block, which ends in `unreachable`. -/
def new (params : List Ty) (retTy : Ty) : Func where
  params
  retTy
  blocks := #[{ name := some "entry" }]
  insts := #[]
  layout := [0]

def block (f : Func) (b : BlockId) : Block := f.blocks[b]?.getD default

def inst (f : Func) (i : InstId) : Instr := f.insts[i]?.getD default

def term (f : Func) (b : BlockId) : Terminator := (f.block b).term

/-- The instructions of a block. -/
def body (f : Func) (b : BlockId) : List InstId := (f.block b).insts

/-- All blocks defined so far. -/
def blockIds (f : Func) : List BlockId := List.range f.blocks.size

/-- All instructions defined so far, detached ones too. -/
def instIds (f : Func) : List InstId := List.range f.insts.size

def isPhi (f : Func) (i : InstId) : Bool := (f.inst i).isPhi

/-- The phis that a block starts with. -/
def phis (f : Func) (b : BlockId) : List InstId := (f.body b).takeWhile f.isPhi

/-- The instructions of a block after its phis. -/
def nonPhis (f : Func) (b : BlockId) : List InstId := (f.body b).dropWhile f.isPhi

/-- The position of the first instruction of a block that is no phi. -/
def firstNonPhi (f : Func) (b : BlockId) : Nat := (f.phis b).length

/-- The position of an instruction in its block, if it is attached. -/
def positionOf? (f : Func) (i : InstId) : Option Nat := (f.body (f.inst i).block).idxOf? i

/-- The value that a phi takes on entry from `pred`. -/
def incomingValue? (f : Func) (phi : InstId) (pred : BlockId) : Option Value :=
  (f.inst phi).incoming.lookup pred

/-- The position of `pred` among the predecessors of a phi. -/
def incomingIndex? (f : Func) (phi : InstId) (pred : BlockId) : Option Nat :=
  (f.inst phi).incoming.findIdx? (·.1 == pred)

def typeOf (f : Func) : Value → Ty
  | .const c => c.ty
  | .param index => f.params[index]?.getD .void
  | .inst i => (f.inst i).ty

def isBool (f : Func) (v : Value) : Bool := f.typeOf v == .bool

/-- The attached instructions, in layout order. -/
def attached (f : Func) : List InstId := f.layout.flatMap f.body

end Func

end Lockstep
