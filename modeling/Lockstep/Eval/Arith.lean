import Lockstep.Op
import Lockstep.Scalar
import Lockstep.Ty

/-!
# Arithmetic of one lane

What the operators compute on scalars. Integers wrap at the width of their type; division and
remainder by zero give zero, and so does a signed division whose quotient does not fit 64 bits.
An undefined operand makes the result undefined, unless the other operand of `and`, `or` or a
choice decides it.
-/

namespace Lockstep

-- powers are those of the core library, whatever else is imported
attribute [local instance (2000)] instPowNat

/-- Why an operation has no result on its operands. -/
inductive Unsupported where
  | boolOperation
  | floatOnIntegers
  | integerOnFloats
  | mismatchedOperands
  | orderedBools
  | floatComparison
  | integerComparison
  | castOperand
  | latePhi
  | aggregate
  deriving DecidableEq, Repr

def Unsupported.message : Unsupported → String
  | boolOperation => "unsupported operation on `bool`"
  | floatOnIntegers => "float operation on integers"
  | integerOnFloats => "integer operation on floats"
  | mismatchedOperands => "mismatched operand kinds"
  | orderedBools => "ordered comparison of `bool`s"
  | floatComparison => "float comparison of integers"
  | integerComparison => "integer comparison of floats"
  | castOperand => "invalid cast operand"
  | latePhi => "phi after non-phi instructions"
  | aggregate => "vector/aggregate operations"

/-- The width that integers of a type have; addresses have 64 bits. -/
def Ty.intWidth : Ty → Nat
  | .int width => width
  | _ => 64

/-- Rounds to the precision of a type. -/
def Ty.roundFloat (ty : Ty) (x : Binary64) : Binary64 :=
  match ty with
  | .float 32 => x.round32
  | _ => x

namespace BinOp

/-! ## Binary operators -/

/-- On truth values, which are integers modulo two. -/
def onBools (op : BinOp) (x y : Bool) : Option Bool :=
  match op with
  | and | mul | umin => some (x && y)
  | or | umax => some (x || y)
  | xor | add | sub => some (x ^^ y)
  | _ => none

/-- The number of places that a shift by `y` moves a word of width `w`. -/
def shiftAmount (w : Nat) (y : Int64) : Nat := (y.toInt % 2 ^ (32 : Nat)).toNat % max w 1 % 64

/-- On integers of width `w`, before wrapping. -/
def onInts (op : BinOp) (w : Nat) (x y : Int64) : Option Int :=
  let ux := Word.unsigned w x
  let uy := Word.unsigned w y
  match op with
  | add => some (x.toInt + y.toInt)
  | sub => some (x.toInt - y.toInt)
  | mul => some (x.toInt * y.toInt)
  | sdiv => some (if x = Int64.minValue ∧ y = -1 then 0 else x.toInt.tdiv y.toInt)
  | udiv => some (ux / uy : Nat)
  | srem => some (if y = 0 then 0 else x.toInt.tmod y.toInt)
  | urem => some (if uy = 0 then 0 else (ux % uy : Nat))
  | and => some (x &&& y).toInt
  | or => some (x ||| y).toInt
  | xor => some (x ^^^ y).toInt
  | shl => some (x.toInt * 2 ^ shiftAmount w y)
  | lshr => some (ux / 2 ^ shiftAmount w y : Nat)
  | ashr => some (x.toInt / 2 ^ shiftAmount w y)
  | smin => some (min x.toInt y.toInt)
  | smax => some (max x.toInt y.toInt)
  | umin => some (min ux uy : Nat)
  | umax => some (max ux uy : Nat)
  | fadd | fsub | fmul | fdiv | fmin | fmax => none

/-- On doubles, before rounding. -/
def onFloats (op : BinOp) (x y : Binary64) : Option Binary64 :=
  match op with
  | fadd => some (x.add y)
  | fsub => some (x.sub y)
  | fmul => some (x.mul y)
  | fdiv => some (x.div y)
  | fmin => some (x.min y)
  | fmax => some (x.max y)
  | _ => none

/-- The result of type `ty` of a binary operator. -/
def eval (op : BinOp) (a b : Scalar) (ty : Ty) : Except Unsupported Scalar :=
  match a, b with
  | .bool x, .bool y =>
    match op.onBools x y with
    | some z => .ok (.bool z)
    | none => .error .boolOperation
  | .bool x, .undefined | .undefined, .bool x =>
    .ok (if (op = and ∧ x = false) ∨ (op = or ∧ x = true) then .bool x else .undefined)
  | .undefined, _ | _, .undefined => .ok .undefined
  | .int x, .int y =>
    match op.onInts ty.intWidth x y with
    | some z => .ok (.int (Word.wrap ty.intWidth z))
    | none => .error .floatOnIntegers
  | .float x, .float y =>
    match op.onFloats x y with
    | some z => .ok (.float (ty.roundFloat z))
    | none => .error .integerOnFloats
  | _, _ => .error .mismatchedOperands

end BinOp

namespace CmpOp

/-! ## Comparisons -/

def onBools (op : CmpOp) (x y : Bool) : Option Bool :=
  match op with
  | eq => some (x == y)
  | ne => some (x != y)
  | _ => none

/-- On integers of width `w`; the unsigned comparisons take the low `w` bits. -/
def onInts (op : CmpOp) (w : Nat) (x y : Int64) : Option Bool :=
  let ux := Word.unsigned w x
  let uy := Word.unsigned w y
  match op with
  | eq => some (decide (x = y))
  | ne => some (decide (x ≠ y))
  | slt => some (decide (x.toInt < y.toInt))
  | sle => some (decide (x.toInt ≤ y.toInt))
  | sgt => some (decide (y.toInt < x.toInt))
  | sge => some (decide (y.toInt ≤ x.toInt))
  | ult => some (decide (ux < uy))
  | ule => some (decide (ux ≤ uy))
  | ugt => some (decide (uy < ux))
  | uge => some (decide (uy ≤ ux))
  | flt | fle | fgt | fge => none

def onFloats (op : CmpOp) (x y : Binary64) : Option Bool :=
  match op with
  | eq => some (x.eq y)
  | ne => some (!x.eq y)
  | flt => some (x.lt y)
  | fle => some (x.le y)
  | fgt => some (y.lt x)
  | fge => some (y.le x)
  | _ => none

/-- The answer of a comparison of operands of type `ty`. -/
def eval (op : CmpOp) (a b : Scalar) (ty : Ty) : Except Unsupported Scalar :=
  match a, b with
  | .undefined, _ | _, .undefined => .ok .undefined
  | .bool x, .bool y =>
    match op.onBools x y with
    | some z => .ok (.bool z)
    | none => .error .orderedBools
  | .int x, .int y =>
    match op.onInts ty.intWidth x y with
    | some z => .ok (.bool z)
    | none => .error .floatComparison
  | .float x, .float y =>
    match op.onFloats x y with
    | some z => .ok (.bool z)
    | none => .error .integerComparison
  | _, _ => .error .mismatchedOperands

end CmpOp

namespace CastOp

/-! ## Conversions -/

/-- An integer as a scalar of type `ty`: its low bit for a truth value. -/
def ofInt (ty : Ty) (z : Int) : Scalar :=
  match ty with
  | .bool => .bool (z % 2 == 1)
  | _ => .int (Word.wrap ty.intWidth z)

/-- The double that an integer stands for bit by bit in type `ty`. -/
def reinterpretInt (ty : Ty) (x : Int64) : Scalar :=
  match ty with
  | .float 32 => .float (.ofBits32 x.toUInt64.toUInt32)
  | .float _ => .float ⟨x.toUInt64⟩
  | _ => ofInt ty x.toInt

/-- The integer that a double stands for bit by bit in type `ty`. -/
def reinterpretFloat (ty : Ty) (x : Binary64) : Scalar :=
  match ty with
  | .int 32 => ofInt ty x.toBits32.toNat
  | .int _ => ofInt ty x.bits.toNat
  | _ => .float x

/-- The result of a conversion between two types. -/
def eval (op : CastOp) (a : Scalar) (source target : Ty) : Except Unsupported Scalar :=
  match op, a with
  | _, .undefined => .ok .undefined
  | zext, .bool b | bitcast, .bool b => .ok (ofInt target b.toInt)
  | sext, .bool b => .ok (ofInt target (-b.toInt))
  | zext, .int x => .ok (ofInt target (Word.unsigned source.intWidth x))
  | sext, .int x | trunc, .int x => .ok (ofInt target x.toInt)
  | sitofp, .int x => .ok (.float (target.roundFloat (.ofInt64 x)))
  | fptosi, .float x => .ok (ofInt target x.toInt64.toInt)
  | bitcast, .int x => .ok (reinterpretInt target x)
  | bitcast, .float x => .ok (reinterpretFloat target x)
  | _, _ => .error .castOperand

end CastOp

/-- The choice of one lane. An undefined condition leaves the value defined only if it does not
matter. -/
def Scalar.choose (cond onTrue onFalse : Scalar) : Scalar :=
  match cond with
  | .bool b => if b then onTrue else onFalse
  | _ => if onTrue.same onFalse then onTrue else .undefined

/-- The address `offset` cells behind another. -/
def Scalar.addOffset : Scalar → Scalar → Scalar
  | .int base, .int offset => .int (base + offset)
  | _, _ => .undefined

end Lockstep
