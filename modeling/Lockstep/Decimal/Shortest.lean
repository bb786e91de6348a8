/-!
# Shortest decimals

Of all decimals that lie in an interval around a number, `Decimal.shortest` finds one with the
coarsest unit: the interval is tried on the grids `10 ^ e` for falling `e`, and on each grid only
the two neighbours of the number can be the nearest points. Of two hits the nearer wins, and a
tie goes up.
-/

namespace Lockstep

-- powers are those of the core library, whatever else is imported
attribute [local instance (2000)] instPowNat

/-- The number `digits * 10 ^ exponent`. -/
structure Decimal where
  digits : Nat
  exponent : Int
  deriving DecidableEq, Repr, Inhabited

namespace Decimal

/-- An interval of numbers around `mid`, in units of `1 / den`. Its ends belong to it iff
`closed` is set. -/
structure Interval where
  low : Nat
  mid : Nat
  high : Nat
  den : Nat
  closed : Bool
  deriving Repr

namespace Interval

/-- Whether a point at least `low` from below belongs to the interval, given that it is at
most `mid`. -/
def hasBelow (i : Interval) (point scale : Nat) : Bool :=
  if i.closed then decide (i.low * scale ≤ point) else decide (i.low * scale < point)

/-- Whether a point above `mid` belongs to the interval. -/
def hasAbove (i : Interval) (point scale : Nat) : Bool :=
  if i.closed then decide (point ≤ i.high * scale) else decide (point < i.high * scale)

/-- The point of the grid `10 ^ e` that lies in the interval and is nearest to its middle. -/
def onGrid (i : Interval) (e : Int) : Option Decimal :=
  let unit := i.den * 10 ^ e.toNat
  let scale := 10 ^ (-e).toNat
  let mid := i.mid * scale
  let d := mid / unit
  let below := i.hasBelow (d * unit) scale
  let above := i.hasAbove ((d + 1) * unit) scale
  let nearerBelow := decide (2 * (mid - d * unit) < unit)
  if below && (nearerBelow || !above) then some ⟨d, e⟩
  else if above then some ⟨d + 1, e⟩
  else none

/-- The first hit on the `n` grids `10 ^ e`, `10 ^ (e - 1)` and so on. -/
def firstHit (i : Interval) (e : Int) : Nat → Option Decimal
  | 0 => none
  | n + 1 =>
    match i.onGrid e with
    | some d => some d
    | none => i.firstHit (e - 1) n

end Interval

/-- The number of digits of a natural number, at least one. -/
def width (n : Nat) : Nat := (Nat.toDigits 10 n).length

/-- The numbers that round to the double `m * 2 ^ q`, where `narrow` says that the double below
is only half as far away as the one above. -/
def interval (m : Nat) (q : Int) (narrow : Bool) : Interval where
  low := (4 * m - (if narrow then 1 else 2)) * 2 ^ (q - 2).toNat
  mid := 4 * m * 2 ^ (q - 2).toNat
  high := (4 * m + 2) * 2 ^ (q - 2).toNat
  den := 2 ^ (2 - q).toNat
  closed := m % 2 == 0

/-- The shortest decimal that rounds to the double `m * 2 ^ q`. -/
def shortest (m : Nat) (q : Int) (narrow : Bool) : Decimal :=
  let i := interval m q narrow
  let top : Int := (width (i.high / i.den) : Int)
  let lead : Int := if i.high < i.den then -(width (i.den / i.high) : Int) + 1 else top
  (i.firstHit lead 20).getD ⟨0, 0⟩

end Decimal

end Lockstep
