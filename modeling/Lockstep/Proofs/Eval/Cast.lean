import Lockstep.Proofs.Eval.Bits

/-!
# Conversions between integer types

A conversion takes a word of one width to a word of another. Extending by zeros keeps the unsigned
reading of the bits (`Word.eq_wrap_unsigned_iff`), extending by the sign keeps the signed reading
(`Word.eq_wrap_toInt_iff`), and truncating keeps the residue modulo the narrower width, whether it is
done at once or through a width in between (`Word.wrap_toInt_wrap`). A truth value is the low bit of
the word that it is extended to (`CastOp.ofInt_bool_wrap`). `CastOp.eval_integers` puts together what
this says of the conversions that a program can make.
-/

namespace Lockstep

-- powers are those of the core library, whatever else is imported
attribute [local instance (2000)] instPowNat

namespace Word

variable {a b w : Nat} {x y : Int64} {z z' : Int}

/-! ## Words of two widths -/

theorem bits_mono (ha : 1 ≤ a) (hab : a ≤ b) : bits a ≤ bits b := by
  unfold bits
  split <;> split <;> omega

/-- A word is wrapped from its own residue class only. -/
theorem wrap_eq_wrap_iff : wrap w z = wrap w z' ↔ z ≡ z' [ZMOD (2 ^ bits w : Nat)] := by
  refine ⟨fun h => ?_, wrap_congr⟩
  calc z ≡ (wrap w z).toInt [ZMOD (2 ^ bits w : Nat)] := (toInt_wrap_modEq w z).symm
    _ ≡ z' [ZMOD (2 ^ bits w : Nat)] := h ▸ toInt_wrap_modEq w z'

/-- Wrapping at a width that is not smaller keeps the residue. -/
theorem modEq_toInt_wrap (ha : 1 ≤ a) (hab : a ≤ b) (z : Int) :
    (wrap b z).toInt ≡ z [ZMOD (2 ^ bits a : Nat)] :=
  (toInt_wrap_modEq b z).of_dvd (Int.natCast_dvd_natCast.mpr (Nat.pow_dvd_pow 2 (bits_mono ha hab)))

/-- A number may be wrapped at a width that is not smaller first. -/
theorem wrap_toInt_wrap (ha : 1 ≤ a) (hab : a ≤ b) (z : Int) :
    wrap a (wrap b z).toInt = wrap a z :=
  wrap_congr (modEq_toInt_wrap ha hab z)

/-- A word of one width is a word of every width above. -/
theorem Normal.mono (hx : Normal a x) (ha : 1 ≤ a) (hab : a ≤ b) : Normal b x := by
  have hle : 2 ^ bits a ≤ 2 ^ bits b := Nat.pow_le_pow_right (by decide) (bits_mono ha hab)
  obtain ⟨hlow, hhigh⟩ := hx.bounds
  exact normal_of_bounds (by omega) (by omega)

/-! ## Readings -/

/-- The sign extension of a word is the number in the signed range that has the residue of the
word. -/
theorem eq_toInt_signExtend_iff (h1 : 1 ≤ w) (h2 : w ≤ 64) (x : Int64) (z : Int) :
    z = (signExtend x w).toInt ↔ z ≡ x.toInt [ZMOD (2 ^ w : Nat)] ∧
      -(2 ^ (w - 1) : Nat) ≤ z ∧ z < (2 ^ (w - 1) : Nat) := by
  have hbits := bits_of_mem h1 h2
  have htwo : 2 ^ w = 2 ^ (w - 1) * 2 := by rw [← Nat.pow_succ, Nat.succ_eq_add_one,
    Nat.sub_add_cancel h1]
  constructor
  · rintro rfl
    have hmod := toInt_wrap_modEq w x.toInt
    obtain ⟨hlow, hhigh⟩ := (normal_wrap w x.toInt).bounds
    rw [hbits] at hmod hlow hhigh
    refine ⟨hmod, ?_, ?_⟩ <;> unfold signExtend <;> omega
  · rintro ⟨hmod, hlow, hhigh⟩
    rw [← hbits] at hmod
    rw [signExtend, ← wrap_congr hmod, toInt_wrap_of_bounds] <;> rw [hbits] <;> omega

/-- The word of a width with the unsigned reading of a narrower word. -/
theorem eq_wrap_unsigned_iff (ha : 1 ≤ a) (hab : a ≤ b) (hb : b ≤ 64) (x y : Int64) :
    y = wrap b (unsigned a x) ↔ Normal b y ∧ (toBits b y).toNat = (toBits a x).toNat := by
  have hpos : 0 < b := Nat.lt_of_lt_of_le ha hab
  have hlt : unsigned a x < 2 ^ bits b := Nat.lt_of_lt_of_le (unsigned_lt_bits ha x)
    (Nat.pow_le_pow_right (by decide) (bits_mono ha hab))
  rw [toNat_toBits hb, toNat_toBits (Nat.le_trans hab hb)]
  constructor
  · rintro rfl
    exact ⟨normal_wrap b _, unsigned_wrap hpos hlt⟩
  · rintro ⟨hy, hread⟩
    rw [← hread, hy.wrap_unsigned hpos]

/-- The word of a width with the signed reading of a narrower word. -/
theorem eq_wrap_toInt_iff (ha : 1 ≤ a) (hab : a ≤ b) (hb : b ≤ 64) (hx : Normal a x) (y : Int64) :
    y = wrap b x.toInt ↔ Normal b y ∧ (toBits b y).toInt = (toBits a x).toInt := by
  have h1 : 1 ≤ b := Nat.le_trans ha hab
  have hxb : Normal b x := hx.mono ha hab
  rw [hxb.wrap_eq, toInt_toBits hx ha (Nat.le_trans hab hb)]
  constructor
  · rintro rfl
    exact ⟨hxb, toInt_toBits hxb h1 hb⟩
  · rintro ⟨hy, hread⟩
    rw [toInt_toBits hy h1 hb] at hread
    exact Int64.toInt_inj.mp hread

end Word

namespace CastOp

open Word

variable {a b : Nat} {x : Int64}

/-- A truth value is the low bit of a number, wrapped or not. -/
theorem ofInt_bool_wrap (ha : 1 ≤ a) (z : Int) : ofInt .bool (wrap a z).toInt = ofInt .bool z := by
  have h : (wrap a z).toInt ≡ z [ZMOD (2 ^ bits 1 : Nat)] := modEq_toInt_wrap (Nat.le_refl 1) ha z
  have h : (wrap a z).toInt % 2 = z % 2 := h
  unfold ofInt
  rw [h]

/-- Conversions between integers of 1 to 64 bits are exact. Sign extension gives the number in the
signed range with the same residue; to a width that is not smaller, the word with the same reading,
from which truncation leads back. Truncation depends on the residue alone and can be done in two
steps. A truth value can be read back from the integer that it was extended to. -/
theorem eval_integers (ha : 1 ≤ a) (hab : a ≤ b) (hb : b ≤ 64) (hx : Normal a x) :
    (∀ (y : Int64) (z : Int), z = (signExtend y a).toInt ↔ z ≡ y.toInt [ZMOD (2 ^ a : Nat)] ∧
      -(2 ^ (a - 1) : Nat) ≤ z ∧ z < (2 ^ (a - 1) : Nat)) ∧
    (∃ y, zext.eval (.int x) (.int a) (.int b) = .ok (.int y) ∧
      (∀ y', y' = y ↔ Normal b y' ∧ (toBits b y').toNat = (toBits a x).toNat) ∧
      trunc.eval (.int y) (.int b) (.int a) = .ok (.int x)) ∧
    (∃ y, sext.eval (.int x) (.int a) (.int b) = .ok (.int y) ∧
      (∀ y', y' = y ↔ Normal b y' ∧ (toBits b y').toInt = (toBits a x).toInt) ∧
      trunc.eval (.int y) (.int b) (.int a) = .ok (.int x)) ∧
    (∀ y y', Normal b y → Normal b y' →
      (trunc.eval (.int y) (.int b) (.int a) = trunc.eval (.int y') (.int b) (.int a) ↔
        y.toInt ≡ y'.toInt [ZMOD (2 ^ a : Nat)])) ∧
    (∀ c y, 1 ≤ c → c ≤ a → Normal b y → ∃ z v, Normal a z ∧ Normal c v ∧
      trunc.eval (.int y) (.int b) (.int a) = .ok (.int z) ∧
      trunc.eval (.int z) (.int a) (.int c) = .ok (.int v) ∧
      trunc.eval (.int y) (.int b) (.int c) = .ok (.int v)) ∧
    ∀ op p, op = zext ∨ op = sext → ∃ z, Normal a z ∧
      op.eval (.bool p) .bool (.int a) = .ok (.int z) ∧
      trunc.eval (.int z) (.int a) .bool = .ok (.bool p) := by
  have ha' : a ≤ 64 := Nat.le_trans hab hb
  have hback : ∀ z : Int, wrap a z = x →
      trunc.eval (.int (wrap b z)) (.int b) (.int a) = .ok (.int x) := fun z hz =>
    congrArg (fun v => Except.ok (Scalar.int v)) ((wrap_toInt_wrap ha hab z).trans hz)
  refine ⟨eq_toInt_signExtend_iff ha ha',
    ⟨_, rfl, eq_wrap_unsigned_iff ha hab hb x, hback _ (hx.wrap_unsigned ha)⟩,
    ⟨_, rfl, eq_wrap_toInt_iff ha hab hb hx, hback _ hx⟩, fun y y' _ _ => ?_,
    fun c y hc hca _ => ⟨wrap a y.toInt, wrap c y.toInt, normal_wrap a _, normal_wrap c _, rfl, ?_,
      rfl⟩, fun op p hop => ?_⟩
  · show Except.ok (Scalar.int (wrap a y.toInt)) = .ok (.int (wrap a y'.toInt)) ↔ _
    rw [Except.ok.injEq, Scalar.int.injEq, wrap_eq_wrap_iff, bits_of_mem ha ha']
  · exact congrArg (fun v => Except.ok (Scalar.int v)) (wrap_toInt_wrap hc hca y.toInt)
  · have hlow : ∀ n : Int, ofInt .bool n = .bool p →
        trunc.eval (.int (wrap a n)) (.int a) .bool = .ok (.bool p) := fun n hn =>
      congrArg Except.ok ((ofInt_bool_wrap ha n).trans hn)
    rcases hop with rfl | rfl
    · exact ⟨wrap a p.toInt, normal_wrap a _, rfl, hlow _ (by cases p <;> rfl)⟩
    · exact ⟨wrap a (-p.toInt), normal_wrap a _, rfl, hlow _ (by cases p <;> rfl)⟩

/-- The byte `-128` is `128` in sixteen bits with zeros, and stays `-128` with its sign. -/
theorem eval_integers_byte :
    (1 ≤ 8 ∧ 8 ≤ 16 ∧ 16 ≤ 64 ∧ Normal 8 (-128)) ∧
      zext.eval (.int (-128)) (.int 8) (.int 16) = .ok (.int 128) ∧
      trunc.eval (.int 128) (.int 16) (.int 8) = .ok (.int (-128)) ∧
      sext.eval (.int (-128)) (.int 8) (.int 16) = .ok (.int (-128)) := by
  have hx : Normal 8 (-128) := by decide +kernel
  obtain ⟨-, ⟨y, hzext, hy, htrunc⟩, ⟨z, hsext, hz, -⟩, -⟩ :=
    eval_integers (by decide) (by decide : 8 ≤ 16) (by decide) hx
  obtain rfl : 128 = y := (hy 128).mpr (by decide +kernel)
  obtain rfl : -128 = z := (hz (-128)).mpr (by decide +kernel)
  exact ⟨⟨by decide, by decide, by decide, hx⟩, hzext, htrunc, hsext⟩

end CastOp

end Lockstep
