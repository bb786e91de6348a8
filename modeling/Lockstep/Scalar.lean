import Lockstep.Binary64
import Lockstep.Word

/-!
# Scalars and lanes

A scalar is what one lane of a value holds at run time. Lanes are the scalars of all lanes of
one value, in lane order.
-/

namespace Lockstep

/-- The run-time value of one lane. -/
inductive Scalar where
  | undefined
  | bool (b : Bool)
  /-- An integer or an address, sign-extended from the width of its type. -/
  | int (x : Int64)
  | float (x : Binary64)
  deriving DecidableEq, Repr, Inhabited

namespace Scalar

/-- The equality that a program observes: as structural equality, but doubles compare as
numbers. -/
def same : Scalar → Scalar → Bool
  | .float x, .float y => x.eq y
  | a, b => a == b

/-- Whether a lane of a mask switches its lane on. -/
def isTrue (x : Scalar) : Bool := x == .bool true

end Scalar

/-- The scalars of all lanes of a value. -/
abbrev Lanes := List Scalar

namespace Lanes

/-- The most lanes that run together. -/
def maxCount : Nat := 16

/-- The same scalar in each of `width` lanes. -/
def splat (width : Nat) (x : Scalar) : Lanes := List.replicate width x

@[simp] theorem length_splat (width : Nat) (x : Scalar) : (splat width x).length = width := by
  simp [splat]

/-- The scalar of a lane; undefined past the last. -/
def lane (xs : Lanes) (l : Nat) : Scalar := xs[l]?.getD .undefined

@[simp] theorem lane_splat {width l : Nat} (x : Scalar) (h : l < width) :
    lane (splat width x) l = x := by
  simp [lane, splat, h]

end Lanes

end Lockstep
