import Lockstep.Binary64
import Lockstep.Decimal.Shortest

/-!
# The text of a double

A double is written with the fewest digits that read back to it. `DecimalLayout` holds the
choices of the format: where positional notation ends, and that a whole number keeps one
decimal place.
-/

namespace Lockstep

-- powers are those of the core library, whatever else is imported
attribute [local instance (2000)] instPowNat

/-- The choices that turn digits and an exponent into text. -/
structure DecimalLayout where
  /-- Decimal exponents of the leading digit that are written positionally. -/
  positional : Int → Bool
  /-- The fraction written after a whole number. -/
  wholeFraction : String
  exponentMark : String
  infinity : String
  nan : String

namespace DecimalLayout

/-- Positional from `1e-4` up to, not including, `1e16`; a whole number ends in `.0`. -/
def standard : DecimalLayout where
  positional e := decide (-4 ≤ e) && decide (e < 16)
  wholeFraction := ".0"
  exponentMark := "e"
  infinity := "inf"
  nan := "NaN"

/-- The digits with a point after the first `point` of them. -/
def positionalText (l : DecimalLayout) (digits : List Char) (point : Int) : String :=
  if point ≤ 0 then "0." ++ String.ofList (List.replicate (-point).toNat '0' ++ digits)
  else if digits.length ≤ point.toNat then
    String.ofList (digits ++ List.replicate (point.toNat - digits.length) '0') ++ l.wholeFraction
  else
    String.ofList (digits.take point.toNat) ++ "." ++ String.ofList (digits.drop point.toNat)

/-- The digits with a point after the first, followed by an exponent. -/
def exponentText (l : DecimalLayout) (digits : List Char) (exponent : Int) : String :=
  let fraction := if digits.length ≤ 1 then "" else "." ++ String.ofList (digits.drop 1)
  String.ofList (digits.take 1) ++ fraction ++ l.exponentMark ++ toString exponent

/-- A positive decimal. -/
def decimalText (l : DecimalLayout) (d : Decimal) : String :=
  let digits := Nat.toDigits 10 d.digits
  let lead := d.exponent + digits.length - 1
  if l.positional lead then l.positionalText digits (lead + 1) else l.exponentText digits lead

end DecimalLayout

namespace Binary64

/-- The magnitude as `m * 2 ^ q`, and whether the double below it is at half the distance. -/
def decode (x : Binary64) : Nat × Int × Bool :=
  let fraction := (x.bits &&& fractionMask).toNat
  let exponent := ((x.bits &&& exponentMask) >>> 52).toNat
  if exponent = 0 then (fraction, -1074, false)
  else (fraction + 2 ^ (52 : Nat), (exponent : Int) - 1075, fraction == 0 && decide (1 < exponent))

/-- The shortest text that reads back to the double. -/
def text (x : Binary64) : String :=
  let l := DecimalLayout.standard
  let magnitude :=
    if x.isInfinite then l.infinity
    else match x.decode with
      | (0, _, _) => "0" ++ l.wholeFraction
      | (m, q, narrow) => l.decimalText (Decimal.shortest m q narrow)
  if x.isNaN then l.nan else (if x.isNegative then "-" else "") ++ magnitude

end Binary64

end Lockstep
