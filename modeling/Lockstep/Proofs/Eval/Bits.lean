import Lockstep.Proofs.Eval.Typing
import Lockstep.Proofs.Eval.Word

/-!
# Integers in two's complement

Operators compute with words that hold the bits of a type by sign extension. Here their results are
compared with operations on the bits alone (`BinOp.onBits`, `CmpOp.onBits`): a word of `w` bits is
the sign extension of a bit vector of length `w` (`Word.ofBits`), whose signed and unsigned readings
are those of the word (`toInt_toBits`, `toNat_toBits`).

The binary operators agree at every width up to 64, except that the least 64-bit integer divided by
`-1` gives zero, although the division wraps at all other widths (`BinOp.eval_eq_onBits`). The
comparisons agree at every width, and `CmpOp.inverse` and `CmpOp.swapped` turn them around as their
names say (`CmpOp.eval_inverse_swapped_onBits`).
-/

namespace Lockstep

-- powers are those of the core library, whatever else is imported
attribute [local instance (2000)] instPowNat

namespace Word

/-! ## The bits of a word -/

/-- The low `w` bits of a word. -/
def toBits (w : Nat) (x : Int64) : BitVec w := x.toBitVec.setWidth w

/-- The word that holds bits by sign extension. -/
def ofBits {w : Nat} (z : BitVec w) : Int64 := Int64.ofBitVec (z.signExtend 64)

variable {w : Nat} {x y : Int64}

theorem toBits_eq_ofInt (hw : w ≤ 64) (x : Int64) : toBits w x = BitVec.ofInt w x.toInt := by
  apply BitVec.eq_of_toInt_eq
  rw [toBits, BitVec.toInt_setWidth, BitVec.toInt_ofInt, ← Int64.toInt_toBitVec,
    BitVec.toInt_eq_toNat_bmod, Int.bmod_bmod_of_dvd (Nat.pow_dvd_pow 2 hw)]

/-- Wrapping keeps the low bits and extends them by their sign. -/
theorem wrap_eq_ofBits (h1 : 1 ≤ w) (h2 : w ≤ 64) (z : Int) :
    wrap w z = ofBits (BitVec.ofInt w z) := by
  unfold wrap ofBits BitVec.signExtend
  rw [BitVec.toInt_ofInt, bits_of_mem h1 h2]
  rfl

theorem toInt_toBits (hx : Normal w x) (h1 : 1 ≤ w) (h2 : w ≤ 64) :
    (toBits w x).toInt = x.toInt := by
  have hb := hx.bmod_eq
  rw [bits_of_mem h1 h2] at hb
  rw [toBits_eq_ofInt h2, BitVec.toInt_ofInt, hb]

theorem toNat_toBits (h2 : w ≤ 64) (x : Int64) : (toBits w x).toNat = unsigned w x := by
  rw [toBits_eq_ofInt h2, BitVec.toNat_ofInt, unsigned, Nat.min_eq_left h2]

theorem toBits_eq_zero_iff (hx : Normal w x) (h1 : 1 ≤ w) (h2 : w ≤ 64) :
    toBits w x = 0 ↔ x = 0 := by
  rw [← BitVec.toInt_inj, toInt_toBits hx h1 h2, ← Int64.toInt_inj]
  simp

theorem toBits_eq_zero_iff_unsigned (h2 : w ≤ 64) (x : Int64) :
    toBits w x = 0 ↔ unsigned w x = 0 := by
  rw [← BitVec.toNat_inj, toNat_toBits h2]
  simp

/-- Below 64 bits no word is the least 64-bit integer. -/
theorem Normal.eq_of_eq_minValue (hx : Normal w x) (h1 : 1 ≤ w) (h2 : w ≤ 64)
    (h : x = Int64.minValue) : w = 64 := by
  by_contra hw
  have hb := hx.bounds.1
  have hlt : 2 ^ w < 2 ^ 64 := Nat.pow_lt_pow_right (by decide) (by omega)
  have hmin : x.toInt = -(2 ^ 63 : Nat) := by
    rw [h]
    rfl
  rw [bits_of_mem h1 h2, hmin] at hb
  omega

end Word

namespace BinOp

open Word

/-! ## The operators on bits -/

variable {w : Nat}

/-- The number of places that a shift by the bits `y` moves: the low 32 bits of `y`, extended by its
sign where there are fewer, modulo the width. -/
def bitShift (y : BitVec w) : Nat := (y.signExtend 32).toNat % w

/-- On integers of `w` bits in two's complement. Division and remainder by zero give zero. -/
def onBits (op : BinOp) (x y : BitVec w) : Option (BitVec w) :=
  match op with
  | add => some (x + y)
  | sub => some (x - y)
  | mul => some (x * y)
  | sdiv => some (if y = 0 then 0 else x.sdiv y)
  | udiv => some (if y = 0 then 0 else x.udiv y)
  | srem => some (if y = 0 then 0 else x.srem y)
  | urem => some (if y = 0 then 0 else x.umod y)
  | and => some (x &&& y)
  | or => some (x ||| y)
  | xor => some (x ^^^ y)
  | shl => some (x <<< bitShift y)
  | lshr => some (x >>> bitShift y)
  | ashr => some (x.sshiftRight (bitShift y))
  | smin => some (if x.sle y then x else y)
  | smax => some (if x.sle y then y else x)
  | umin => some (if x.ule y then x else y)
  | umax => some (if x.ule y then y else x)
  | fadd | fsub | fmul | fdiv | fmin | fmax => none

variable {x y : Int64}

theorem bitShift_toBits (h1 : 1 ≤ w) (h2 : w ≤ 64) (hy : Normal w y) :
    bitShift (toBits w y) = shiftAmount w y := by
  have hlt : ∀ n, n % w < 64 := fun n => Nat.lt_of_lt_of_le (Nat.mod_lt n h1) h2
  unfold bitShift shiftAmount BitVec.signExtend
  rw [toInt_toBits hy h1 h2, BitVec.toNat_ofInt, Nat.max_eq_left h1, Nat.mod_eq_of_lt (hlt _)]
  rfl

/-- The bits that read as a number are the bits of the number. -/
theorem ofInt_natCast_of_toNat {z : BitVec w} {k : Nat} (h : z.toNat = k) :
    BitVec.ofInt w (k : Int) = z := by
  rw [BitVec.ofInt_natCast, ← h, BitVec.ofNat_toNat, BitVec.setWidth_eq]

theorem ofInt_two_pow (w s : Nat) : BitVec.ofInt w (2 ^ s) = BitVec.twoPow w s := by
  have h : (2 : Int) ^ s = ((2 ^ s : Nat) : Int) := by norm_cast
  apply BitVec.eq_of_toNat_eq
  rw [h, BitVec.ofInt_natCast, BitVec.toNat_ofNat, BitVec.toNat_twoPow]

/-- What an operator computes before wrapping has the bits that it computes from the bits of its
operands. -/
theorem map_ofInt_onInts (op : BinOp) (h1 : 1 ≤ w) (h2 : w ≤ 64) (hx : Normal w x)
    (hy : Normal w y) (hd : ¬ (op = sdiv ∧ x = Int64.minValue ∧ y = -1)) :
    (op.onInts w x y).map (BitVec.ofInt w) = op.onBits (toBits w x) (toBits w y) := by
  have ex := toBits_eq_ofInt h2 x
  have ey := toBits_eq_ofInt h2 y
  have sx := toInt_toBits hx h1 h2
  have sy := toInt_toBits hy h1 h2
  have ux := toNat_toBits h2 x
  have uy := toNat_toBits h2 y
  have sh := bitShift_toBits h1 h2 hy
  cases op <;> simp only [onInts, onBits, Option.map_some, Option.map_none, Option.some.injEq]
  case add => rw [ex, ey, BitVec.ofInt_add]
  case sub =>
    rw [ex, ey, Int.sub_eq_add_neg, BitVec.ofInt_add, BitVec.ofInt_neg, BitVec.sub_eq_add_neg]
  case mul => rw [ex, ey, BitVec.ofInt_mul]
  case sdiv =>
    rw [if_neg fun h => hd ⟨rfl, h⟩, ← sx, ← sy]
    split
    case isTrue h => simp [h]
    case isFalse h =>
      apply BitVec.eq_of_toInt_eq
      rw [BitVec.toInt_sdiv, BitVec.toInt_ofInt]
  case udiv =>
    split
    case isTrue h => simp [(toBits_eq_zero_iff_unsigned h2 y).mp h]
    case isFalse h => exact ofInt_natCast_of_toNat (by rw [← ux, ← uy]; exact BitVec.toNat_udiv)
  case srem =>
    simp only [toBits_eq_zero_iff hy h1 h2]
    split
    case isTrue h => rfl
    case isFalse h => rw [← sx, ← sy, ← BitVec.toInt_srem, BitVec.ofInt_toInt]
  case urem =>
    simp only [toBits_eq_zero_iff_unsigned h2 y]
    split
    case isTrue h => rfl
    case isFalse h => exact ofInt_natCast_of_toNat (by rw [← ux, ← uy]; exact BitVec.toNat_umod)
  case and => rw [← toBits_eq_ofInt h2, toBits, Int64.toBitVec_and, BitVec.setWidth_and]; rfl
  case or => rw [← toBits_eq_ofInt h2, toBits, Int64.toBitVec_or, BitVec.setWidth_or]; rfl
  case xor => rw [← toBits_eq_ofInt h2, toBits, Int64.toBitVec_xor, BitVec.setWidth_xor]; rfl
  case shl =>
    rw [sh, BitVec.shiftLeft_eq_mul_twoPow, BitVec.ofInt_mul, ofInt_two_pow, ex]
  case lshr =>
    refine ofInt_natCast_of_toNat ?_
    rw [sh, BitVec.toNat_ushiftRight, Nat.shiftRight_eq_div_pow, ux]
  case ashr => rw [sh, BitVec.sshiftRight_eq, Int.shiftRight_eq_div_pow, sx]; norm_cast
  case smin =>
    simp only [BitVec.sle_iff_toInt_le, sx, sy]
    rw [ex, ey, min_def, apply_ite (BitVec.ofInt w)]
  case smax =>
    simp only [BitVec.sle_iff_toInt_le, sx, sy]
    rw [ex, ey, max_def, apply_ite (BitVec.ofInt w)]
  case umin =>
    refine ofInt_natCast_of_toNat ?_
    simp only [BitVec.ule_iff_toNat_le, ux, uy, apply_ite BitVec.toNat, min_def]
  case umax =>
    refine ofInt_natCast_of_toNat ?_
    simp only [BitVec.ule_iff_toNat_le, ux, uy, apply_ite BitVec.toNat, max_def]

/-- Integers of every width are computed in two's complement, the quotient of the least 64-bit
integer and `-1` apart. -/
theorem eval_eq_onBits (op : BinOp) (h1 : 1 ≤ w) (h2 : w ≤ 64) (hx : Normal w x) (hy : Normal w y)
    (hd : ¬ (w = 64 ∧ op = sdiv ∧ x = Int64.minValue ∧ y = -1)) :
    op.eval (.int x) (.int y) (.int w) =
      match op.onBits (toBits w x) (toBits w y) with
      | some z => .ok (.int (ofBits z))
      | none => .error .floatOnIntegers := by
  have hd : ¬ (op = sdiv ∧ x = Int64.minValue ∧ y = -1) := fun h =>
    hd ⟨hx.eq_of_eq_minValue h1 h2 h.2.1, h⟩
  have hbits := map_ofInt_onInts op h1 h2 hx hy hd
  rw [← hbits]
  unfold eval
  dsimp only [Ty.intWidth]
  cases op.onInts w x y with
  | none => rfl
  | some z => exact congrArg (fun v => Except.ok (Scalar.int v)) (wrap_eq_ofBits h1 h2 z)

/-- In eight bits, the least integer divided by `-1` is the least integer again. -/
theorem eval_eq_onBits_sdiv_byte :
    (1 ≤ 8 ∧ 8 ≤ 64 ∧ Normal 8 (-128) ∧ Normal 8 (-1) ∧ (8 : Nat) ≠ 64) ∧
      sdiv.eval (.int (-128)) (.int (-1)) (.int 8) = .ok (.int (-128)) :=
  ⟨by decide +kernel, (eval_eq_onBits sdiv (by decide) (by decide) (by decide +kernel)
    (by decide +kernel) (by decide)).trans (by decide +kernel)⟩

/-- In 64 bits, the least integer divided by `-1` is zero, although the quotient in two's complement
is the least integer again. -/
theorem sdiv_eval_minValue :
    Normal 64 Int64.minValue ∧ Normal 64 (-1) ∧
      (sdiv.onBits (toBits 64 Int64.minValue) (toBits 64 (-1))).map ofBits = some Int64.minValue ∧
      sdiv.eval (.int Int64.minValue) (.int (-1)) (.int 64) = .ok (.int 0) ∧
      Int64.minValue ≠ 0 := by
  decide +kernel

end BinOp

/-! ## Comparisons -/

namespace Scalar

/-- Whether a scalar is a double. -/
def isFloat : Scalar → Bool
  | .float _ => true
  | _ => false

/-- The opposite truth value. What is not a truth value stays. -/
def not : Scalar → Scalar
  | .bool b => .bool !b
  | x => x

end Scalar

namespace CmpOp

open Word

variable {w : Nat}

/-- On integers of `w` bits in two's complement. -/
def onBits (op : CmpOp) (x y : BitVec w) : Option Bool :=
  match op with
  | eq => some (x == y)
  | ne => some (x != y)
  | slt => some (decide (x.toInt < y.toInt))
  | sle => some (decide (x.toInt ≤ y.toInt))
  | sgt => some (decide (x.toInt > y.toInt))
  | sge => some (decide (x.toInt ≥ y.toInt))
  | ult => some (decide (x.toNat < y.toNat))
  | ule => some (decide (x.toNat ≤ y.toNat))
  | ugt => some (decide (x.toNat > y.toNat))
  | uge => some (decide (x.toNat ≥ y.toNat))
  | flt | fle | fgt | fge => none

/-- The signed comparisons order the signed readings of the bits, the unsigned ones the unsigned
readings. -/
theorem onInts_eq_onBits (op : CmpOp) {x y : Int64} (h1 : 1 ≤ w) (h2 : w ≤ 64) (hx : Normal w x)
    (hy : Normal w y) : op.onInts w x y = op.onBits (toBits w x) (toBits w y) := by
  have sx := toInt_toBits hx h1 h2
  have sy := toInt_toBits hy h1 h2
  have he : toBits w x = toBits w y ↔ x = y := by
    rw [← BitVec.toInt_inj, sx, sy, Int64.toInt_inj]
  cases op with
  | eq => simp [onInts, onBits, beq_eq_decide, he]
  | ne => simp [onInts, onBits, bne, beq_eq_decide, he]
  | slt | sle | sgt | sge => simp only [onInts, onBits, sx, sy, gt_iff_lt, ge_iff_le]
  | ult | ule | ugt | uge => simp only [onInts, onBits, toNat_toBits h2, gt_iff_lt, ge_iff_le]
  | flt | fle | fgt | fge => rfl

theorem onBools_swapped (op : CmpOp) (x y : Bool) : op.swapped.onBools y x = op.onBools x y := by
  cases op <;> simp [swapped, onBools, Bool.beq_comm, bne]

theorem onBools_inverse (op : CmpOp) (x y : Bool) :
    op.inverse.onBools x y = (op.onBools x y).map (!·) := by
  cases op <;> simp [inverse, onBools, bne]

theorem onInts_swapped (op : CmpOp) (w : Nat) (x y : Int64) :
    op.swapped.onInts w y x = op.onInts w x y := by
  cases op
  case eq => exact congrArg some (decide_eq_decide.mpr eq_comm)
  case ne => exact congrArg some (decide_eq_decide.mpr ne_comm)
  all_goals rfl

theorem onInts_inverse (op : CmpOp) (w : Nat) (x y : Int64) :
    op.inverse.onInts w x y = (op.onInts w x y).map (!·) := by
  have hi : ∀ a b : Int, (!decide (a < b)) = decide (b ≤ a) ∧ (!decide (a ≤ b)) = decide (b < a) :=
    fun a b => ⟨by rw [← decide_not, decide_eq_decide.mpr Int.not_lt],
      by rw [← decide_not, decide_eq_decide.mpr Int.not_le]⟩
  have hn : ∀ a b : Nat, (!decide (a < b)) = decide (b ≤ a) ∧ (!decide (a ≤ b)) = decide (b < a) :=
    fun a b => ⟨by rw [← decide_not, decide_eq_decide.mpr Nat.not_lt],
      by rw [← decide_not, decide_eq_decide.mpr Nat.not_le]⟩
  cases op <;> simp [inverse, onInts, hi, hn]

/-- Exchanged operands are compared by the swapped operator. -/
theorem eval_swapped (op : CmpOp) {a b : Scalar} (ty : Ty) (ha : a.isFloat = false) :
    op.swapped.eval b a ty = op.eval a b ty := by
  cases a <;> cases b
  case bool.bool x y => simp only [eval, onBools_swapped]
  case int.int x y => simp only [eval, onInts_swapped]
  case float.float => cases ha
  all_goals rfl

/-- The inverse operator gives the opposite answer, or fails in the same way. -/
theorem eval_inverse (op : CmpOp) {a b : Scalar} (ty : Ty) (ha : a.isFloat = false) :
    op.inverse.eval a b ty = (op.eval a b ty).map Scalar.not := by
  cases a <;> cases b
  case bool.bool x y =>
    simp only [eval, onBools_inverse]
    cases op.onBools x y <;> rfl
  case int.int x y =>
    simp only [eval, onInts_inverse]
    cases op.onInts ty.intWidth x y <;> rfl
  case float.float => cases ha
  all_goals rfl

/-- The two symmetries of comparisons, doubles apart, and the order that they stand for on
integers. -/
theorem eval_inverse_swapped_onBits (op : CmpOp) :
    (∀ a b ty, a.isFloat = false → b.isFloat = false →
      op.inverse.eval a b ty = (op.eval a b ty).map Scalar.not ∧
        op.swapped.eval b a ty = op.eval a b ty) ∧
    ∀ w x y, 1 ≤ w → w ≤ 64 → Normal w x → Normal w y →
      op.eval (.int x) (.int y) (.int w) =
        match op.onBits (toBits w x) (toBits w y) with
        | some z => .ok (.bool z)
        | none => .error .floatComparison := by
  refine ⟨fun a b ty ha _ => ⟨eval_inverse op ty ha, eval_swapped op ty ha⟩,
    fun w x y h1 h2 hx hy => ?_⟩
  rw [← onInts_eq_onBits op h1 h2 hx hy]
  rfl

/-- As unsigned bytes, `-1` is not below `1`. -/
theorem eval_inverse_swapped_onBits_byte :
    (1 ≤ 8 ∧ 8 ≤ 64 ∧ Normal 8 (-1) ∧ Normal 8 1) ∧
      uge.eval (.int (-1)) (.int 1) (.int 8) = .ok (.bool true) ∧
      ugt.eval (.int 1) (.int (-1)) (.int 8) = .ok (.bool false) ∧
      ult.eval (.int (-1)) (.int 1) (.int 8) = .ok (.bool false) := by
  obtain ⟨hturned, hbits⟩ := eval_inverse_swapped_onBits ult
  obtain ⟨hinv, hswap⟩ := hturned (.int (-1)) (.int 1) (.int 8) rfl rfl
  have hult : ult.eval (.int (-1)) (.int 1) (.int 8) = .ok (.bool false) :=
    (hbits 8 (-1) 1 (by decide) (by decide) (by decide +kernel) (by decide +kernel)).trans
      (by decide +kernel)
  refine ⟨by decide +kernel, hinv.trans ?_, hswap.trans hult, hult⟩
  rw [hult]
  rfl

end CmpOp

end Lockstep
