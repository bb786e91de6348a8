/-!
# Doubles by their bits

A double is its 64 bits, so that equality is structural and every NaN keeps its payload. The
arithmetic is that of IEEE 754 with the rules a processor adds: the first NaN operand wins and
becomes quiet, an invalid operation gives the default NaN, and the minimum and maximum ignore
a NaN on one side.
-/

namespace Lockstep

/-- A double-precision number, given by its bits. -/
structure Binary64 where
  bits : UInt64
  deriving DecidableEq, Repr, Inhabited

namespace Binary64

/-! ## Classes of bit patterns -/

/-- The eleven exponent bits. -/
def exponentMask : UInt64 := 0x7ff0000000000000

/-- The fifty-two fraction bits. -/
def fractionMask : UInt64 := 0x000fffffffffffff

/-- The fraction bit that makes a NaN quiet. -/
def quietBit : UInt64 := 0x0008000000000000

def isNegative (x : Binary64) : Bool := x.bits >>> 63 == 1

def isNaN (x : Binary64) : Bool :=
  x.bits &&& exponentMask == exponentMask && x.bits &&& fractionMask != 0

def isInfinite (x : Binary64) : Bool :=
  x.bits &&& exponentMask == exponentMask && x.bits &&& fractionMask == 0

/-- The quiet form of a NaN. -/
def quiet (x : Binary64) : Binary64 := ⟨x.bits ||| quietBit⟩

/-- The NaN of an invalid operation. -/
def defaultNaN : Binary64 := ⟨0xfff8000000000000⟩

/-! ## Arithmetic -/

def toFloat (x : Binary64) : Float := Float.ofBits x.bits

/-- The result of an operation on numbers; a NaN can only come from an invalid operation. -/
def ofResult (x : Float) : Binary64 :=
  let r : Binary64 := ⟨x.toBits⟩
  if r.isNaN then defaultNaN else r

/-- An operation on numbers, extended to NaN operands. -/
def lift₂ (op : Float → Float → Float) (x y : Binary64) : Binary64 :=
  if x.isNaN then x.quiet else if y.isNaN then y.quiet else ofResult (op x.toFloat y.toFloat)

def add : Binary64 → Binary64 → Binary64 := lift₂ (· + ·)
def sub : Binary64 → Binary64 → Binary64 := lift₂ (· - ·)
def mul : Binary64 → Binary64 → Binary64 := lift₂ (· * ·)
def div : Binary64 → Binary64 → Binary64 := lift₂ (· / ·)

/-! ## Order -/

/-- Equality of numbers: zeros are equal, and a NaN equals nothing. -/
def eq (x y : Binary64) : Bool := x.toFloat == y.toFloat

def lt (x y : Binary64) : Bool := decide (x.toFloat < y.toFloat)

def le (x y : Binary64) : Bool := decide (x.toFloat ≤ y.toFloat)

/-- The smaller number; the second operand if they are equal. A NaN gives way to the other
operand, and of two the first is kept as it is. -/
def min (x y : Binary64) : Binary64 := if y.isNaN then x else if x.lt y then x else y

/-- The larger number, with the rules of `min` for equal numbers and for NaN. -/
def max (x y : Binary64) : Binary64 := if y.isNaN then x else if y.lt x then x else y

/-! ## Single precision and integers -/

/-- The bits of the nearest single-precision number. A NaN keeps its sign and the upper part of
its payload. -/
def toBits32 (x : Binary64) : UInt32 :=
  let sign : UInt32 := if x.isNegative then 0x80000000 else 0
  let payload : UInt32 := ((x.bits &&& fractionMask) >>> 29).toUInt32
  if x.isNaN then sign ||| 0x7fc00000 ||| payload else x.toFloat.toFloat32.toBits

/-- The number that single-precision bits stand for. -/
def ofBits32 (b : UInt32) : Binary64 :=
  let magnitude : UInt32 := b &&& 0x7fffffff
  let sign : UInt64 := if b == magnitude then 0 else 0x8000000000000000
  let payload : UInt64 := (b &&& 0x007fffff).toUInt64 <<< 29
  if 0x7f800000 < magnitude then ⟨sign ||| exponentMask ||| quietBit ||| payload⟩
  else ⟨(Float32.ofBits b).toFloat.toBits⟩

/-- The nearest single-precision number, as a double. -/
def round32 (x : Binary64) : Binary64 := ofBits32 x.toBits32

/-- The nearest double to an integer. -/
def ofInt64 (x : Int64) : Binary64 := ⟨x.toFloat.toBits⟩

/-- The integer part, kept within 64 bits; zero for a NaN. -/
def toInt64 (x : Binary64) : Int64 := x.toFloat.toInt64

end Binary64

end Lockstep
