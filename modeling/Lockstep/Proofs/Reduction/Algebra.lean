import Lockstep.Proofs.Eval.Typing
import Lockstep.Proofs.Eval.Word
import Lockstep.Reduction.Kind

/-!
# The algebra of reductions

Where a kind of reduction has a neutral element, its operator works on the type, and is commutative
and associative on values of the type, undefined ones included; the element is neutral. For integers
this is wrapping arithmetic. Floating-point kinds are left out, since they round.
-/

namespace Lockstep

open Word

namespace ReductionKind

/-- The kinds that accumulate floating-point numbers. -/
def isFloat : ReductionKind → Bool
  | fadd | fmul | fmin | fmax => true
  | _ => false

variable {k : ReductionKind} {ty : Ty} {n : Const} {w : Nat} {a b c : Int64} {x y z : Scalar}

/-- A neutral element is a truth value or an integer with bits. -/
theorem neutral_cases (hk : k.isFloat = false) (h : k.neutral? ty = some n) :
    (∃ v, ty = .bool ∧ k.neutralBool = some v ∧ n.val = .bool v) ∨
      ∃ w v, ty = .int w ∧ 0 < w ∧ k.neutralInt w = some v ∧ n.val = .int (signExtend v w) := by
  cases ty with
  | bool =>
    obtain ⟨v, hv, rfl⟩ := Option.map_eq_some_iff.mp h
    exact .inl ⟨v, rfl, hv, rfl⟩
  | int w =>
    by_cases hw : w = 0
    · simp [neutral?, hw] at h
    · simp only [neutral?, hw, if_false] at h
      obtain ⟨v, hv, rfl⟩ := Option.map_eq_some_iff.mp h
      exact .inr ⟨w, v, rfl, Nat.pos_of_ne_zero hw, hv, rfl⟩
  | float w =>
    obtain ⟨v, hv, -⟩ := Option.map_eq_some_iff.mp h
    cases k with
    | fadd | fmul | fmin | fmax => cases hk
    | _ => cases hv
  | _ => cases h

/-! ## Integers -/

/-- An operator on two words of `w` bits. -/
theorem exists_onInts (hk : k.isFloat = false) (w : Nat) (a b : Int64) :
    ∃ z, k.binOp.onInts w a b = some z := by
  cases k <;> first | exact ⟨_, rfl⟩ | cases hk

theorem onInts_comm (hk : k.isFloat = false) (w : Nat) (a b : Int64) :
    k.binOp.onInts w a b = k.binOp.onInts w b a := by
  cases k with
  | add => simp [binOp, BinOp.onInts, Int.add_comm]
  | mul => simp [binOp, BinOp.onInts, Int.mul_comm]
  | and => simp [binOp, BinOp.onInts, Int64.and_comm]
  | or => simp [binOp, BinOp.onInts, Int64.or_comm]
  | xor => simp [binOp, BinOp.onInts, Int64.xor_comm]
  | smin | umin => simp [binOp, BinOp.onInts, min_comm]
  | smax | umax => simp [binOp, BinOp.onInts, max_comm]
  | fadd | fmul | fmin | fmax => cases hk

/-- Wrapping in between does not matter, whichever two of three words come first. -/
theorem onInts_assoc (hk : k.isFloat = false) (hw : 0 < w) (ha : Normal w a) (hb : Normal w b)
    (hc : Normal w c) {u v p q : Int} (hu : k.binOp.onInts w a b = some u)
    (hp : k.binOp.onInts w (wrap w u) c = some p) (hv : k.binOp.onInts w b c = some v)
    (hq : k.binOp.onInts w a (wrap w v) = some q) : wrap w p = wrap w q := by
  cases k with
  | add =>
    cases hu; cases hp; cases hv; cases hq
    simp [Int.add_assoc]
  | mul =>
    cases hu; cases hp; cases hv; cases hq
    simp [Int.mul_assoc]
  | and =>
    cases hu; cases hp; cases hv; cases hq
    rw [(ha.and hb).wrap_eq, (hb.and hc).wrap_eq, Int64.and_assoc]
  | or =>
    cases hu; cases hp; cases hv; cases hq
    rw [(ha.or hb).wrap_eq, (hb.or hc).wrap_eq, Int64.or_assoc]
  | xor =>
    cases hu; cases hp; cases hv; cases hq
    rw [(ha.xor hb).wrap_eq, (hb.xor hc).wrap_eq, Int64.xor_assoc]
  | smin =>
    cases hu; cases hp; cases hv; cases hq
    rw [toInt_wrap_min ha hb, toInt_wrap_min hb hc, min_assoc]
  | smax =>
    cases hu; cases hp; cases hv; cases hq
    rw [toInt_wrap_max ha hb, toInt_wrap_max hb hc, max_assoc]
  | umin =>
    cases hu; cases hp; cases hv; cases hq
    rw [unsigned_wrap_min hw, unsigned_wrap_min hw, min_assoc]
  | umax =>
    cases hu; cases hp; cases hv; cases hq
    rw [unsigned_wrap_max hw, unsigned_wrap_max hw, max_assoc]
  | fadd | fmul | fmin | fmax => cases hk

/-- Half of the words of a width. -/
theorem two_mul_half (w : Nat) : 2 * (2 ^ (bits w - 1)) = 2 ^ bits w := by
  obtain ⟨k, hk⟩ := Nat.exists_eq_succ_of_ne_zero (Nat.ne_of_gt (bits_pos w))
  rw [hk, Nat.succ_sub_one, Nat.pow_succ, Nat.mul_comm]

theorem toInt_signedMax (hw : 0 < w) : (signedMax w).toInt = (2 ^ (bits w - 1) : Nat) - 1 := by
  unfold signedMax
  split
  · have e : bits w = 64 := by unfold bits; split <;> omega
    rw [e]
    rfl
  · have e : bits w = w := bits_of_mem (by omega) (by omega)
    have hlt : 2 ^ (w - 1) ≤ 2 ^ 62 := Nat.pow_le_pow_right (by decide) (by omega)
    have hpos := Nat.two_pow_pos (w - 1)
    rw [e, Int64.toInt_ofNat_of_lt (by omega)]
    omega

/-- The largest signed number and the smallest, in the words of a type. -/
theorem toInt_signExtend_signedMax (hw : 0 < w) :
    (signExtend (signedMax w) w).toInt = (2 ^ (bits w - 1) : Nat) - 1 ∧
      (signExtend (~~~signedMax w) w).toInt = -(2 ^ (bits w - 1) : Nat) := by
  have h := toInt_signedMax hw
  have hhalf := two_mul_half w
  have hpos := Nat.two_pow_pos (bits w - 1)
  have hle : 2 ^ (bits w - 1) ≤ 2 ^ 63 :=
    Nat.pow_le_pow_right (by decide) (by have := bits_le w; omega)
  have hnot : (~~~signedMax w).toInt = -(2 ^ (bits w - 1) : Nat) := by
    rw [Int64.toInt_not, h, Int.bmod_eq_of_le (by omega) (by omega)]
    omega
  refine ⟨?_, ?_⟩
  · rw [signExtend, h, toInt_wrap_of_bounds (by omega) (by omega)]
  · rw [signExtend, hnot, toInt_wrap_of_bounds (by omega) (by omega)]

/-- All bits are set. -/
theorem signExtend_neg_one (w : Nat) : signExtend (-1) w = -1 := by
  have hhalf := two_mul_half w
  have hpos := Nat.two_pow_pos (bits w - 1)
  have hone : (-1 : Int64).toInt = -1 := rfl
  rw [← Int64.toInt_inj, signExtend, hone, toInt_wrap_of_bounds (by omega) (by omega)]

theorem unsigned_neg_one (hw : 0 < w) : unsigned w (-1) = 2 ^ bits w - 1 := by
  have hpos := Nat.two_pow_pos (bits w)
  have hone : (-1 : Int64).toInt = -1 := rfl
  refine unsigned_of_modEq hw ?_ (by omega)
  rw [hone, Int.modEq_iff_dvd]
  exact ⟨1, by omega⟩

/-- Accumulating a neutral element changes nothing. -/
theorem onInts_neutral (hw : 0 < w) {v : Int64} (hn : k.neutralInt w = some v) (ha : Normal w a)
    {u : Int} (hu : k.binOp.onInts w a (signExtend v w) = some u) : wrap w u = a := by
  have hzero : signExtend 0 w = 0 := wrap_zero w
  have hbounds := ha.bounds
  have hhalf := two_mul_half w
  obtain ⟨hmax, hmin⟩ := toInt_signExtend_signedMax hw
  cases k with
  | add =>
    cases hn; cases hu
    simp [hzero, ha.wrap_eq]
  | mul =>
    cases hn; cases hu
    simp [signExtend, ha.wrap_eq]
  | and =>
    cases hn; cases hu
    simp [signExtend_neg_one, ha.wrap_eq]
  | or | xor =>
    cases hn; cases hu
    simp [hzero, ha.wrap_eq]
  | smin =>
    cases hn; cases hu
    rw [hmax, min_eq_left (by omega), ha.wrap_eq]
  | smax =>
    cases hn; cases hu
    rw [hmin, max_eq_left (by omega), ha.wrap_eq]
  | umin =>
    cases hn; cases hu
    have hlt := unsigned_lt_bits hw a
    rw [signExtend_neg_one, unsigned_neg_one hw, min_eq_left (by omega), ha.wrap_unsigned hw]
  | umax =>
    cases hn; cases hu
    have e : unsigned w 0 = 0 := unsigned_of_modEq hw rfl (Nat.two_pow_pos _)
    rw [hzero, e, max_eq_left (Nat.zero_le _), ha.wrap_unsigned hw]
  | fadd | fmul | fmin | fmax => cases hn

/-! ## Scalars -/

/-- The operator works where the kind has a neutral element. -/
theorem on_of_neutral (hk : k.isFloat = false) (h : k.neutral? ty = some n) : k.binOp.On ty := by
  rcases neutral_cases hk h with ⟨v, rfl, hv, -⟩ | ⟨w, v, rfl, -, -, -⟩
  · cases k <;> first | exact rfl | cases hv
  · obtain ⟨z, hz⟩ := exists_onInts hk 64 0 0
    exact Option.isSome_iff_exists.mpr ⟨z, hz⟩

theorem hasTy_neutral (hk : k.isFloat = false) (h : k.neutral? ty = some n) : n.val.HasTy ty := by
  rcases neutral_cases hk h with ⟨v, rfl, -, hn⟩ | ⟨w, v, rfl, -, -, hn⟩
  · rw [hn]
    exact Scalar.hasTy_bool v
  · rw [hn]
    exact .inr ⟨_, rfl, normal_wrap w v.toInt⟩

theorem ty_neutral (hk : k.isFloat = false) (h : k.neutral? ty = some n) : n.ty = ty := by
  rcases neutral_cases hk h with ⟨v, rfl, hv, -⟩ | ⟨w, v, rfl, hw, hv, -⟩
  · obtain ⟨b, -, rfl⟩ := Option.map_eq_some_iff.mp h
    rfl
  · rw [neutral?, if_neg (Nat.ne_of_gt hw)] at h
    obtain ⟨x, -, rfl⟩ := Option.map_eq_some_iff.mp h
    rfl

/-- The order of the operands does not matter. -/
theorem eval_comm (hk : k.isFloat = false) (x y : Scalar) (ty : Ty) :
    k.binOp.eval x y ty = k.binOp.eval y x ty := by
  have hbools : ∀ a b, k.binOp.onBools a b = k.binOp.onBools b a := by
    cases k <;> decide
  cases x with
  | undefined => cases y <;> rfl
  | bool a =>
    cases y with
    | bool b => simp only [BinOp.eval, hbools a b]
    | _ => rfl
  | int a =>
    cases y with
    | int b => simp only [BinOp.eval, onInts_comm hk ty.intWidth a b]
    | _ => rfl
  | float a =>
    cases y with
    | float b => cases k <;> first | rfl | cases hk
    | _ => rfl

/-- Accumulating the neutral element changes nothing. -/
theorem eval_neutral (hk : k.isFloat = false) (h : k.neutral? ty = some n) (hx : x.HasTy ty) :
    k.binOp.eval x n.val ty = .ok x := by
  rcases neutral_cases hk h with ⟨v, rfl, hv, hn⟩ | ⟨w, v, rfl, hw, hv, hn⟩
  · rw [hn]
    rcases hx with rfl | ⟨a, rfl⟩
    · cases k <;> cases hv <;> rfl
    · cases a <;> cases k <;> cases hv <;> rfl
  · rw [hn]
    rcases hx with rfl | ⟨a, rfl, ha⟩
    · rfl
    · obtain ⟨u, hu⟩ := exists_onInts hk (Ty.intWidth (.int w)) a (signExtend v w)
      rw [BinOp.eval_ints hu, Ty.intWidth, onInts_neutral hw hv ha hu]

/-- Truth values and integers are not accumulated as floating-point numbers. -/
theorem isFloat_of_neutral (hty : ty = .bool ∨ ∃ w, 1 ≤ w ∧ ty = .int w)
    (h : k.neutral? ty = some n) : k.isFloat = false := by
  rcases hty with rfl | ⟨w, hw, rfl⟩
  · obtain ⟨v, hv, -⟩ := Option.map_eq_some_iff.mp h
    cases k <;> first | rfl | cases hv
  · rw [neutral?, if_neg (by omega)] at h
    obtain ⟨v, hv, -⟩ := Option.map_eq_some_iff.mp h
    cases k <;> first | rfl | cases hv

/-- A kind with a neutral element of a type that is none of floating-point numbers is none either. -/
theorem isFloat_of_ne_float (hty : ∀ w, ty ≠ .float w) (h : k.neutral? ty = some n) :
    k.isFloat = false := by
  cases ty with
  | bool => exact isFloat_of_neutral (.inl rfl) h
  | int w =>
    refine isFloat_of_neutral (.inr ⟨w, Nat.pos_of_ne_zero ?_, rfl⟩) h
    rintro rfl
    cases h
  | float w => exact absurd rfl (hty w)
  | _ => cases h

/-- The neutral element of a kind is neutral on both sides: whatever truth value or integer is
accumulated with it, undefined ones included, stays what it is. -/
theorem eval_neutral_left_right (hty : ty = .bool ∨ ∃ w, 1 ≤ w ∧ ty = .int w)
    (h : k.neutral? ty = some n) (hx : x.HasTy ty) :
    k.binOp.eval n.val x ty = .ok x ∧ k.binOp.eval x n.val ty = .ok x := by
  have hk : k.isFloat = false := isFloat_of_neutral hty h
  have hright : k.binOp.eval x n.val ty = .ok x := eval_neutral hk h hx
  exact ⟨(eval_comm hk n.val x ty).trans hright, hright⟩

/-- Integers of one bit are `0` and `-1`: the constant one of a product is stored as `-1`, and the
largest signed number is `0`. On truth values `and` keeps what is undefined. -/
theorem eval_neutral_left_right_oneBit :
    (mul.neutral? (.int 1) = some ⟨.int 1, .int (-1)⟩ ∧
      smin.neutral? (.int 1) = some ⟨.int 1, .int 0⟩ ∧
      (Scalar.int (-1)).HasTy (.int 1)) ∧
    BinOp.mul.eval (.int (-1)) (.int (-1)) (.int 1) = .ok (.int (-1)) ∧
      BinOp.smin.eval (.int (-1)) (.int 0) (.int 1) = .ok (.int (-1)) ∧
      BinOp.and.eval .undefined (.bool true) .bool = .ok .undefined := by
  have hmul : mul.neutral? (.int 1) = some ⟨.int 1, .int (-1)⟩ := by decide +kernel
  have hsmin : smin.neutral? (.int 1) = some ⟨.int 1, .int 0⟩ := by decide +kernel
  have hty : (Scalar.int (-1)).HasTy (.int 1) := .inr ⟨-1, rfl, by decide +kernel⟩
  have hbits : Ty.int 1 = .bool ∨ ∃ w, 1 ≤ w ∧ Ty.int 1 = .int w := .inr ⟨1, Nat.le_refl 1, rfl⟩
  exact ⟨⟨hmul, hsmin, hty⟩, (eval_neutral_left_right hbits hmul hty).1,
    (eval_neutral_left_right hbits hsmin hty).2,
    (eval_neutral_left_right (k := .and) (.inl rfl) rfl (Scalar.hasTy_undefined .bool)).2⟩

/-- Three truth values may be accumulated in any order. -/
theorem eval_assoc_bools {v : Bool} (hk : k.neutralBool = some v) (hx : x.HasTy .bool)
    (hy : y.HasTy .bool) (hz : z.HasTy .bool) :
    (k.binOp.eval x y .bool >>= fun u => k.binOp.eval u z .bool) =
      (k.binOp.eval y z .bool >>= fun u => k.binOp.eval x u .bool) := by
  have hmem : ∀ {x : Scalar}, x.HasTy .bool → x ∈ [Scalar.undefined, .bool false, .bool true] := by
    rintro x (rfl | ⟨b, rfl⟩)
    · simp
    · cases b <;> simp
  have h : ∀ x ∈ [Scalar.undefined, .bool false, .bool true],
      ∀ y ∈ [Scalar.undefined, .bool false, .bool true],
      ∀ z ∈ [Scalar.undefined, .bool false, .bool true],
        (k.binOp.eval x y .bool >>= fun u => k.binOp.eval u z .bool) =
          (k.binOp.eval y z .bool >>= fun u => k.binOp.eval x u .bool) := by
    cases k with
    | and | mul | or | xor => decide
    | _ => cases hk
  exact h x (hmem hx) y (hmem hy) z (hmem hz)

/-- So may three integers. -/
theorem eval_assoc_ints (hk : k.isFloat = false) (hw : 0 < w) (hx : x.HasTy (.int w))
    (hy : y.HasTy (.int w)) (hz : z.HasTy (.int w)) :
    (k.binOp.eval x y (.int w) >>= fun u => k.binOp.eval u z (.int w)) =
      (k.binOp.eval y z (.int w) >>= fun u => k.binOp.eval x u (.int w)) := by
  have hint : ∀ a b, ∃ u, k.binOp.onInts w a b = some u ∧
      k.binOp.eval (.int a) (.int b) (.int w) = .ok (.int (wrap w u)) := by
    intro a b
    obtain ⟨u, hu⟩ := exists_onInts hk w a b
    have hu' : k.binOp.onInts (Ty.int w).intWidth a b = some u := hu
    exact ⟨u, hu, BinOp.eval_ints hu'⟩
  rcases hx with rfl | ⟨a, rfl, ha⟩
  · rcases hy with rfl | ⟨b, rfl, -⟩ <;> rcases hz with rfl | ⟨c, rfl, -⟩
    · rfl
    · rfl
    · rfl
    · obtain ⟨u, -, hu⟩ := hint b c
      rw [hu]
      rfl
  rcases hy with rfl | ⟨b, rfl, hb⟩
  · rcases hz with rfl | ⟨c, rfl, -⟩ <;> rfl
  obtain ⟨u, hu, eu⟩ := hint a b
  rcases hz with rfl | ⟨c, rfl, hc⟩
  · rw [eu]
    rfl
  obtain ⟨v, hv, ev⟩ := hint b c
  obtain ⟨p, hp, ep⟩ := hint (wrap w u) c
  obtain ⟨q, hq, eq⟩ := hint a (wrap w v)
  rw [eu, ev]
  show k.binOp.eval (.int (wrap w u)) (.int c) (.int w) =
    k.binOp.eval (.int a) (.int (wrap w v)) (.int w)
  rw [ep, eq, onInts_assoc hk hw ha hb hc hu hp hv hq]

/-- Three values may be accumulated in any order: what is folded into an accumulator one by one can
be folded into another first. -/
theorem exists_eval_assoc {u r : Scalar} (hk : k.isFloat = false) (h : k.neutral? ty = some n)
    (hx : x.HasTy ty) (hy : y.HasTy ty) (hz : z.HasTy ty) (hu : k.binOp.eval x y ty = .ok u)
    (hr : k.binOp.eval u z ty = .ok r) : ∃ v, k.binOp.eval y z ty = .ok v ∧ v.HasTy ty ∧
      k.binOp.eval x v ty = .ok r := by
  obtain ⟨v, hv, hty⟩ := BinOp.exists_eval (on_of_neutral hk h) hy hz
  have hassoc : (k.binOp.eval x y ty >>= fun u => k.binOp.eval u z ty) =
      (k.binOp.eval y z ty >>= fun u => k.binOp.eval x u ty) := by
    rcases neutral_cases hk h with ⟨b, rfl, hb, -⟩ | ⟨w, -, rfl, hw, -, -⟩
    · exact eval_assoc_bools hb hx hy hz
    · exact eval_assoc_ints hk hw hx hy hz
  rw [hu, hv] at hassoc
  exact ⟨v, hv, hty, hassoc.symm.trans hr⟩

end ReductionKind

end Lockstep
