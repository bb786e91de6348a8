/-!
# Operators

The binary, comparison and cast operators with their written names, and the two symmetries of
comparisons: `CmpOp.inverse` negates the answer and `CmpOp.swapped` exchanges the operands.
-/

namespace Lockstep

/-- An operator on two values of one type. -/
inductive BinOp where
  | add | sub | mul | sdiv | udiv | srem | urem
  | and | or | xor | shl | lshr | ashr
  | smin | smax | umin | umax
  | fadd | fsub | fmul | fdiv | fmin | fmax
  deriving DecidableEq, Repr, Inhabited

namespace BinOp

def all : List BinOp :=
  [add, sub, mul, sdiv, udiv, srem, urem, and, or, xor, shl, lshr, ashr, smin, smax, umin, umax,
    fadd, fsub, fmul, fdiv, fmin, fmax]

def name : BinOp → String
  | add => "add"
  | sub => "sub"
  | mul => "mul"
  | sdiv => "sdiv"
  | udiv => "udiv"
  | srem => "srem"
  | urem => "urem"
  | and => "and"
  | or => "or"
  | xor => "xor"
  | shl => "shl"
  | lshr => "lshr"
  | ashr => "ashr"
  | smin => "smin"
  | smax => "smax"
  | umin => "umin"
  | umax => "umax"
  | fadd => "fadd"
  | fsub => "fsub"
  | fmul => "fmul"
  | fdiv => "fdiv"
  | fmin => "fmin"
  | fmax => "fmax"

def ofName? (s : String) : Option BinOp := all.find? (·.name == s)

theorem ofName?_name (op : BinOp) : ofName? op.name = some op := by cases op <;> decide

end BinOp

/-- A comparison of two values of one type. -/
inductive CmpOp where
  | eq | ne
  | slt | sle | sgt | sge
  | ult | ule | ugt | uge
  | flt | fle | fgt | fge
  deriving DecidableEq, Repr, Inhabited

namespace CmpOp

def all : List CmpOp := [eq, ne, slt, sle, sgt, sge, ult, ule, ugt, uge, flt, fle, fgt, fge]

def name : CmpOp → String
  | eq => "eq"
  | ne => "ne"
  | slt => "slt"
  | sle => "sle"
  | sgt => "sgt"
  | sge => "sge"
  | ult => "ult"
  | ule => "ule"
  | ugt => "ugt"
  | uge => "uge"
  | flt => "flt"
  | fle => "fle"
  | fgt => "fgt"
  | fge => "fge"

def ofName? (s : String) : Option CmpOp := all.find? (·.name == s)

theorem ofName?_name (op : CmpOp) : ofName? op.name = some op := by cases op <;> decide

/-- The comparison that holds exactly when this one does not, a NaN operand apart. -/
def inverse : CmpOp → CmpOp
  | eq => ne
  | ne => eq
  | slt => sge
  | sle => sgt
  | sgt => sle
  | sge => slt
  | ult => uge
  | ule => ugt
  | ugt => ule
  | uge => ult
  | flt => fge
  | fle => fgt
  | fgt => fle
  | fge => flt

/-- The comparison with the same answer when the operands are exchanged. -/
def swapped : CmpOp → CmpOp
  | eq => eq
  | ne => ne
  | slt => sgt
  | sle => sge
  | sgt => slt
  | sge => sle
  | ult => ugt
  | ule => uge
  | ugt => ult
  | uge => ule
  | flt => fgt
  | fle => fge
  | fgt => flt
  | fge => fle

@[simp] theorem inverse_inverse (op : CmpOp) : op.inverse.inverse = op := by cases op <;> rfl

@[simp] theorem swapped_swapped (op : CmpOp) : op.swapped.swapped = op := by cases op <;> rfl

end CmpOp

/-- A conversion between types. -/
inductive CastOp where
  | zext | sext | trunc | sitofp | fptosi | bitcast
  deriving DecidableEq, Repr, Inhabited

namespace CastOp

def all : List CastOp := [zext, sext, trunc, sitofp, fptosi, bitcast]

def name : CastOp → String
  | zext => "zext"
  | sext => "sext"
  | trunc => "trunc"
  | sitofp => "sitofp"
  | fptosi => "fptosi"
  | bitcast => "bitcast"

def ofName? (s : String) : Option CastOp := all.find? (·.name == s)

theorem ofName?_name (op : CastOp) : ofName? op.name = some op := by cases op <;> decide

end CastOp

end Lockstep
