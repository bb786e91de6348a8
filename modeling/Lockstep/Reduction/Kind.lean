import Lockstep.Func.Basic

/-!
# Kinds of reductions

The operations that a reduction accumulates with, and their neutral elements. All of them are
commutative; floating-point sums and products are not associative, because they round.
-/

namespace Lockstep

-- powers are those of the core library, whatever else is imported
attribute [local instance (2000)] instPowNat

/-- An operation to accumulate with. -/
inductive ReductionKind where
  | add | mul | and | or | xor | smin | smax | umin | umax | fadd | fmul | fmin | fmax
  deriving DecidableEq, Repr, Inhabited

namespace ReductionKind

/-- The kind that accumulates with an operator, if there is one. -/
def ofBinOp? : BinOp → Option ReductionKind
  | .add => some add
  | .mul => some mul
  | .and => some and
  | .or => some or
  | .xor => some xor
  | .smin => some smin
  | .smax => some smax
  | .umin => some umin
  | .umax => some umax
  | .fadd => some fadd
  | .fmul => some fmul
  | .fmin => some fmin
  | .fmax => some fmax
  | .sub | .sdiv | .udiv | .srem | .urem | .shl | .lshr | .ashr | .fsub | .fdiv => none

def binOp : ReductionKind → BinOp
  | add => .add
  | mul => .mul
  | and => .and
  | or => .or
  | xor => .xor
  | smin => .smin
  | smax => .smax
  | umin => .umin
  | umax => .umax
  | fadd => .fadd
  | fmul => .fmul
  | fmin => .fmin
  | fmax => .fmax

theorem ofBinOp?_binOp (k : ReductionKind) : ofBinOp? k.binOp = some k := by cases k <;> rfl

/-- Whether updates can be regrouped without changing the result. -/
def isAssociative : ReductionKind → Bool
  | fadd | fmul => false
  | _ => true

/-! ## Neutral elements -/

def neutralBool : ReductionKind → Option Bool
  | and | mul => some true
  | or | xor => some false
  | _ => none

/-- The largest signed number of `w` bits. -/
def signedMax (w : Nat) : Int64 :=
  if 64 ≤ w then Int64.maxValue else Int64.ofNat (2 ^ (w - 1) - 1)

/-- For the unsigned minimum and for `and` all bits are set. -/
def neutralInt (w : Nat) : ReductionKind → Option Int64
  | add | or | xor | umax => some 0
  | mul => some 1
  | and | umin => some (-1)
  | smin => some (signedMax w)
  | smax => some (~~~signedMax w)
  | fadd | fmul | fmin | fmax => none

/-- A sum starts from negative zero, which leaves every number as it is. -/
def neutralFloat : ReductionKind → Option Binary64
  | fadd => some ⟨0x8000000000000000⟩
  | fmul => some ⟨0x3ff0000000000000⟩
  | fmin => some ⟨0x7ff0000000000000⟩
  | fmax => some ⟨0xfff0000000000000⟩
  | _ => none

/-- The constant of a type that changes nothing when accumulated, if there is one. Integers without
bits have none, since they have no largest number. -/
def neutral? (k : ReductionKind) (ty : Ty) : Option Const :=
  match ty with
  | .bool => k.neutralBool.map .ofBool
  | .int width => if width = 0 then none else (k.neutralInt width).map (.ofInt ty)
  | .float _ => k.neutralFloat.map (.ofFloat ty)
  | .void | .ptr _ | .vector _ _ | .struct _ => none

end ReductionKind

end Lockstep
