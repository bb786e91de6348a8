/-!
# Words

Integers are 64-bit words that hold the value of a narrower type by sign extension. An
operation is computed on integers and brought back by `Word.wrap`. The type widths `1` to `63`
count as they stand; every other width, zero included, counts as the full 64 bits.
-/

namespace Lockstep

-- powers are those of the core library, whatever else is imported
attribute [local instance (2000)] instPowNat

namespace Word

/-- The number of bits that a type of width `w` wraps at. -/
def bits (w : Nat) : Nat := if 1 ≤ w ∧ w ≤ 63 then w else 64

theorem bits_le (w : Nat) : bits w ≤ 64 := by unfold bits; split <;> omega

theorem bits_of_mem {w : Nat} (h1 : 1 ≤ w) (h2 : w ≤ 64) : bits w = w := by
  unfold bits; split <;> omega

/-- The word of width `w` that is congruent to `z`. -/
def wrap (w : Nat) (z : Int) : Int64 := Int64.ofInt (z.bmod (2 ^ bits w))

theorem toInt_wrap (w : Nat) (z : Int) : (wrap w z).toInt = z.bmod (2 ^ bits w) := by
  have hd : 2 ^ bits w ∣ 2 ^ 64 := Nat.pow_dvd_pow 2 (bits_le w)
  rw [wrap, Int64.toInt_ofInt]
  change Int.bmod (Int.bmod z (2 ^ bits w)) (2 ^ 64) = _
  have hpos : 0 < 2 ^ bits w := Nat.two_pow_pos _
  have hle : 2 ^ bits w ≤ 2 ^ 64 := Nat.le_of_dvd (by decide) hd
  have h1 := Int.le_bmod (x := z) hpos
  have h2 := Int.bmod_lt (x := z) hpos
  apply Int.bmod_eq_of_le <;> omega

/-- A word cut to `w` bits and extended by its sign. -/
def signExtend (x : Int64) (w : Nat) : Int64 := wrap w x.toInt

/-- The reading of a word as an unsigned number of `w` bits. -/
def unsigned (w : Nat) (x : Int64) : Nat := (x.toInt % (2 ^ (min w 64) : Nat)).toNat

theorem unsigned_lt (w : Nat) (x : Int64) : unsigned w x < 2 ^ min w 64 := by
  have hpos : (0 : Int) < (2 ^ min w 64 : Nat) := by exact_mod_cast Nat.two_pow_pos _
  have := Int.emod_lt_of_pos x.toInt hpos
  unfold unsigned
  omega

/-- Whether a word holds a value of `w` bits by sign extension. -/
def Normal (w : Nat) (x : Int64) : Prop := signExtend x w = x

instance (w : Nat) (x : Int64) : Decidable (Normal w x) := inferInstanceAs (Decidable (_ = _))

/-- Wrapping gives a word of the width that it wraps at. -/
theorem normal_wrap (w : Nat) (z : Int) : Normal w (wrap w z) := by
  show wrap w (wrap w z).toInt = wrap w z
  rw [toInt_wrap, wrap, wrap, Int.bmod_bmod]

theorem signExtend_signExtend (x : Int64) (w : Nat) :
    signExtend (signExtend x w) w = signExtend x w :=
  normal_wrap w x.toInt

/-- A word of `w` bits is its own remainder. -/
theorem Normal.bmod_eq {w : Nat} {x : Int64} (h : Normal w x) :
    x.toInt.bmod (2 ^ bits w) = x.toInt := by
  rw [← toInt_wrap]
  exact congrArg Int64.toInt h

end Word

end Lockstep
