import Lockstep.Eval.Arith
import Mathlib.Data.Int.ModEq

/-!
# Words modulo their width

A word of `w` bits stands for its residue modulo the width. Sums and products may therefore be
wrapped on the way or at the end only (`wrap_wrap_add`, `wrap_wrap_mul`). The bits of words that are
sign-extended may be combined as they stand (`Normal.and` and the lemmas like it), and the smaller
or larger of two words is one of them (`toInt_wrap_min`, `unsigned_wrap_min`).
-/

namespace Lockstep

namespace Word

variable {w : Nat} {x y : Int64} {z z' : Int}

theorem toInt_wrap_modEq (w : Nat) (z : Int) : (wrap w z).toInt ≡ z [ZMOD (2 ^ bits w : Nat)] := by
  rw [toInt_wrap]
  exact Int.bmod_emod

theorem one_modEq (w : Nat) : (signExtend 1 w).toInt ≡ 1 [ZMOD (2 ^ bits w : Nat)] :=
  toInt_wrap_modEq w _

theorem wrap_congr (h : z ≡ z' [ZMOD (2 ^ bits w : Nat)]) : wrap w z = wrap w z' := by
  unfold wrap
  rw [← Int.emod_bmod z, ← Int.emod_bmod z']
  exact congrArg (fun a => Int64.ofInt (Int.bmod a _)) h

theorem min_eq_bits (hw : 0 < w) : min w 64 = bits w := by
  unfold bits
  split <;> omega

theorem unsigned_eq (hw : 0 < w) (x : Int64) :
    (unsigned w x : Int) = x.toInt % (2 ^ bits w : Nat) := by
  unfold unsigned
  rw [min_eq_bits hw]
  refine Int.toNat_of_nonneg (Int.emod_nonneg _ ?_)
  have := Nat.two_pow_pos (bits w)
  omega

/-- The unsigned reading is the number that a word was wrapped from, if that is in range. -/
theorem unsigned_of_modEq (hw : 0 < w) {k : Nat} (h : x.toInt ≡ k [ZMOD (2 ^ bits w : Nat)])
    (hk : k < 2 ^ bits w) : unsigned w x = k := by
  have e := unsigned_eq hw x
  have h : x.toInt % (2 ^ bits w : Nat) = (k : Int) % (2 ^ bits w : Nat) := h
  rw [h, Int.emod_eq_of_lt (by omega) (by omega)] at e
  exact_mod_cast e

theorem bits_pos (w : Nat) : 0 < bits w := by
  unfold bits
  split <;> omega

theorem Normal.bounds (h : Normal w x) :
    -(2 ^ bits w : Nat) ≤ x.toInt * 2 ∧ x.toInt * 2 < (2 ^ bits w : Nat) := by
  have hpos := Nat.two_pow_pos (bits w)
  have h1 := Int.le_bmod (x := x.toInt) hpos
  have h2 := Int.bmod_lt (x := x.toInt) hpos
  rw [h.bmod_eq] at h1 h2
  have hb := bits_pos w
  have he : (2 ^ bits w : Nat) % 2 = 0 := by
    obtain ⟨k, hk⟩ := Nat.exists_eq_succ_of_ne_zero (Nat.ne_of_gt hb)
    rw [hk, Nat.pow_succ]
    omega
  omega

/-- A word is determined by its remainder, if it is in the signed range. -/
theorem toInt_wrap_of_bounds (h1 : -(2 ^ bits w : Nat) ≤ z * 2) (h2 : z * 2 < (2 ^ bits w : Nat)) :
    (wrap w z).toInt = z := by
  rw [toInt_wrap]
  exact Int.bmod_eq_of_le_mul_two h1 h2

theorem normal_of_bounds (h1 : -(2 ^ bits w : Nat) ≤ x.toInt * 2)
    (h2 : x.toInt * 2 < (2 ^ bits w : Nat)) : Normal w x :=
  Int64.toInt_inj.mp (toInt_wrap_of_bounds h1 h2)

/-- A word that is not negative is read as the same number either way. -/
theorem Normal.unsigned_eq (h : Normal w x) (hw : 0 < w) (hx : 0 ≤ x.toInt) :
    (unsigned w x : Int) = x.toInt := by
  have hb := h.bounds
  rw [Word.unsigned_eq hw, Int.emod_eq_of_lt hx (by omega)]

@[simp] theorem wrap_zero (w : Nat) : wrap w 0 = 0 := by
  unfold wrap
  rw [Int.zero_bmod]
  rfl

/-! ## Sums and products -/

@[simp] theorem wrap_wrap_add (w : Nat) (z z' : Int) :
    wrap w ((wrap w z).toInt + z') = wrap w (z + z') :=
  wrap_congr ((toInt_wrap_modEq w z).add_right z')

@[simp] theorem wrap_add_wrap (w : Nat) (z z' : Int) :
    wrap w (z + (wrap w z').toInt) = wrap w (z + z') :=
  wrap_congr ((toInt_wrap_modEq w z').add_left z)

@[simp] theorem wrap_wrap_mul (w : Nat) (z z' : Int) :
    wrap w ((wrap w z).toInt * z') = wrap w (z * z') :=
  wrap_congr ((toInt_wrap_modEq w z).mul_right z')

@[simp] theorem wrap_mul_wrap (w : Nat) (z z' : Int) :
    wrap w (z * (wrap w z').toInt) = wrap w (z * z') :=
  wrap_congr ((toInt_wrap_modEq w z').mul_left z)

/-- A word of `w` bits is wrapped already. -/
theorem Normal.wrap_eq (h : Normal w x) : wrap w x.toInt = x := h

/-! ## Bits -/

/-- Sign extension as an operation on bits. -/
theorem toBitVec_signExtend (x : Int64) (w : Nat) :
    (signExtend x w).toBitVec = (x.toBitVec.setWidth (bits w)).signExtend 64 := by
  have hdvd : 2 ^ bits w ∣ 2 ^ 64 := Nat.pow_dvd_pow 2 (bits_le w)
  have e : x.toInt.bmod (2 ^ bits w) = (x.toBitVec.toNat : Int).bmod (2 ^ bits w) := by
    rw [← Int64.toInt_toBitVec, BitVec.toInt_eq_toNat_bmod, Int.bmod_bmod_of_dvd hdvd]
  rw [signExtend, wrap, Int64.toBitVec_ofInt, e, ← BitVec.toInt_setWidth]
  rfl

theorem normal_iff_toBitVec : Normal w x ↔
    (x.toBitVec.setWidth (bits w)).signExtend 64 = x.toBitVec := by
  rw [← toBitVec_signExtend, Int64.toBitVec_inj]
  rfl

theorem Normal.and (hx : Normal w x) (hy : Normal w y) : Normal w (x &&& y) := by
  rw [normal_iff_toBitVec] at hx hy ⊢
  rw [Int64.toBitVec_and, BitVec.setWidth_and, BitVec.signExtend_and, hx, hy]

theorem Normal.or (hx : Normal w x) (hy : Normal w y) : Normal w (x ||| y) := by
  rw [normal_iff_toBitVec] at hx hy ⊢
  rw [Int64.toBitVec_or, BitVec.setWidth_or, BitVec.signExtend_or, hx, hy]

theorem Normal.xor (hx : Normal w x) (hy : Normal w y) : Normal w (x ^^^ y) := by
  rw [normal_iff_toBitVec] at hx hy ⊢
  rw [Int64.toBitVec_xor, BitVec.setWidth_xor, BitVec.signExtend_xor, hx, hy]

/-! ## Smaller and larger words -/

theorem toInt_wrap_min (hx : Normal w x) (hy : Normal w y) :
    (wrap w (min x.toInt y.toInt)).toInt = min x.toInt y.toInt := by
  rcases min_choice x.toInt y.toInt with e | e
  · rw [e, hx.wrap_eq]
  · rw [e, hy.wrap_eq]

theorem toInt_wrap_max (hx : Normal w x) (hy : Normal w y) :
    (wrap w (max x.toInt y.toInt)).toInt = max x.toInt y.toInt := by
  rcases max_choice x.toInt y.toInt with e | e
  · rw [e, hx.wrap_eq]
  · rw [e, hy.wrap_eq]

/-- A word is wrapped from its unsigned reading. -/
theorem Normal.wrap_unsigned (h : Normal w x) (hw : 0 < w) : wrap w (unsigned w x) = x := by
  have e : wrap w (unsigned w x) = wrap w x.toInt := by
    rw [Word.unsigned_eq hw]
    exact wrap_congr (Int.mod_modEq _ _)
  rw [e, h.wrap_eq]

/-- An unsigned reading can be read back. -/
theorem unsigned_wrap {k : Nat} (hw : 0 < w) (hk : k < 2 ^ bits w) : unsigned w (wrap w k) = k :=
  unsigned_of_modEq hw (toInt_wrap_modEq w k) hk

theorem unsigned_lt_bits (hw : 0 < w) (x : Int64) : unsigned w x < 2 ^ bits w := by
  rw [← min_eq_bits hw]
  exact unsigned_lt w x

theorem unsigned_wrap_min (hw : 0 < w) (x y : Int64) :
    unsigned w (wrap w (min (unsigned w x) (unsigned w y) : Nat)) =
      min (unsigned w x) (unsigned w y) :=
  unsigned_wrap hw (Nat.lt_of_le_of_lt (Nat.min_le_left _ _) (unsigned_lt_bits hw x))

theorem unsigned_wrap_max (hw : 0 < w) (x y : Int64) :
    unsigned w (wrap w (max (unsigned w x) (unsigned w y) : Nat)) =
      max (unsigned w x) (unsigned w y) :=
  unsigned_wrap hw (Nat.max_lt.mpr ⟨unsigned_lt_bits hw x, unsigned_lt_bits hw y⟩)

end Word

end Lockstep
