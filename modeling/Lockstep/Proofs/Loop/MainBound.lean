import Lockstep.Proofs.Eval.Word
import Mathlib.Tactic.Linarith

/-!
# The bound of the main loop

What the instructions that compute the bound of the main loop compute, as a function of words. The
number of trips is computed modulo the width of the type, in the unsigned reading, and never
overflows. The end of the main loop therefore lies between start and bound, in the order in which
the exit test compares, and an induction variable below it is below the bound
(`lt_bound_of_lt_mainEnd`).
-/

namespace Lockstep

/-- The number that a word of `w` bits stands for in a comparison. -/
def CmpOp.reading (op : CmpOp) (w : Nat) (x : Int64) : Int :=
  match op with
  | .ult | .ule | .ugt | .uge => Word.unsigned w x
  | _ => x.toInt

namespace MainBound

open Word

variable (op : CmpOp) (w : Nat) (start bound step width : Int64)

/-- The offset of the last trip from the start, in the words of a type, if there is a trip. -/
def lastOffset : Int64 :=
  wrap w ((wrap w (bound.toInt - start.toInt)).toInt - (signExtend 1 w).toInt)

/-- The number of trips, if there are any. -/
def tripIfAny : Int64 :=
  wrap w ((wrap w (unsigned w (lastOffset w start bound) / unsigned w step : Nat)).toInt +
    (signExtend 1 w).toInt)

def trip : Int64 := if op.onInts w start bound = some true then tripIfAny w start bound step else 0

/-- The trips that are left for the remainder. -/
def remTrips : Int64 :=
  wrap w (if unsigned w width = 0 then 0
    else (unsigned w (trip op w start bound step) % unsigned w width : Nat))

/-- The end of the main loop, if trips are left. -/
def partialEnd : Int64 :=
  wrap w (start.toInt + (wrap w ((wrap w ((trip op w start bound step).toInt -
    (remTrips op w start bound step width).toInt)).toInt * step.toInt)).toInt)

/-- What the main loop compares the induction variable with. -/
def mainEnd : Int64 :=
  if remTrips op w start bound step width = 0 then bound
  else partialEnd op w start bound step width

/-! ## The number of trips -/

variable {op : CmpOp} {w : Nat} {start bound step width : Int64}

/-- The words that a computation starts with, and their distance, which is positive. -/
structure Ahead (w : Nat) (start bound step : Int64) (d : Nat) : Prop where
  wide : 0 < w
  normal : Normal w step
  step_pos : 0 < step.toInt
  pos : 0 < d
  lt : d < 2 ^ bits w
  dist : bound.toInt - start.toInt ≡ d [ZMOD (2 ^ bits w : Nat)]

variable {d : Nat}

theorem Ahead.step_eq (h : Ahead w start bound step d) : (unsigned w step : Int) = step.toInt :=
  h.normal.unsigned_eq h.wide (Int.le_of_lt h.step_pos)

theorem Ahead.lastOffset_eq (h : Ahead w start bound step d) :
    unsigned w (lastOffset w start bound) = d - 1 := by
  have hp := h.pos
  have hl := h.lt
  refine unsigned_of_modEq h.wide ?_ (by omega)
  refine (toInt_wrap_modEq w _).trans ?_
  have e := ((toInt_wrap_modEq w (bound.toInt - start.toInt)).trans h.dist).sub (one_modEq w)
  rwa [← Nat.cast_one (R := Int), ← Nat.cast_sub hp] at e

/-- How many trips there are, if the last one starts less than the distance from the start. -/
def trips (d step : Nat) : Nat := (d - 1) / step + 1

theorem Ahead.trip_eq (h : Ahead w start bound step d) :
    unsigned w (tripIfAny w start bound step) = trips d (unsigned w step) ∧
      (tripIfAny w start bound step).toInt ≡ trips d (unsigned w step)
        [ZMOD (2 ^ bits w : Nat)] := by
  have hp := h.pos
  have hl := h.lt
  have hq : (d - 1) / unsigned w step ≤ d - 1 := Nat.div_le_self _ _
  have e : (tripIfAny w start bound step).toInt ≡ trips d (unsigned w step)
      [ZMOD (2 ^ bits w : Nat)] := by
    refine (toInt_wrap_modEq w _).trans ?_
    rw [h.lastOffset_eq, trips, Nat.cast_add, Nat.cast_one]
    exact (toInt_wrap_modEq w _).add (one_modEq w)
  exact ⟨unsigned_of_modEq h.wide e (by unfold trips; omega), e⟩

/-- No trips are left where there are none. -/
theorem remTrips_eq_zero (ht : op.onInts w start bound ≠ some true) :
    remTrips op w start bound step width = 0 := by
  have hz : unsigned w 0 = 0 := by simp [unsigned]
  unfold remTrips trip
  rw [if_neg ht, hz, Nat.zero_mod]
  split
  · exact wrap_zero w
  · exact wrap_zero w

/-- The trips that are left are those that do not fill a vector. -/
theorem Ahead.remTrips_eq (h : Ahead w start bound step d)
    (ht : op.onInts w start bound = some true) (hz : unsigned w width ≠ 0) :
    remTrips op w start bound step width =
      wrap w (trips d (unsigned w step) % unsigned w width : Nat) := by
  unfold remTrips trip
  rw [if_pos ht, h.trip_eq.1, if_neg hz]

/-- Trips are left unless the width divides their number, provided that the width is not negative as a
signed number. -/
theorem Ahead.remTrips_eq_zero_iff (h : Ahead w start bound step d)
    (ht : op.onInts w start bound = some true) (hz : unsigned w width ≠ 0)
    (hwidth : unsigned w width * 2 < 2 ^ bits w) :
    remTrips op w start bound step width = 0 ↔
      trips d (unsigned w step) % unsigned w width = 0 := by
  have hlt := Nat.mod_lt (trips d (unsigned w step)) (Nat.pos_of_ne_zero hz)
  have hread : (wrap w (trips d (unsigned w step) % unsigned w width : Nat)).toInt =
      (trips d (unsigned w step) % unsigned w width : Nat) :=
    toInt_wrap_of_bounds (by omega) (by omega)
  rw [h.remTrips_eq ht hz, ← Int64.toInt_inj, hread]
  exact Int.ofNat_eq_zero

/-- If trips are left, then the main loop ends where the first of them starts. -/
theorem Ahead.partialEnd_eq (h : Ahead w start bound step d)
    (ht : op.onInts w start bound = some true) (hz : unsigned w width ≠ 0) :
    partialEnd op w start bound step width = wrap w (start.toInt +
      (trips d (unsigned w step) - trips d (unsigned w step) % unsigned w width : Nat) *
        step.toInt) := by
  have erem : (remTrips op w start bound step width).toInt ≡
      (trips d (unsigned w step) % unsigned w width : Nat) [ZMOD (2 ^ bits w : Nat)] := by
    rw [h.remTrips_eq ht hz]
    exact toInt_wrap_modEq w _
  unfold partialEnd trip
  rw [if_pos ht]
  refine wrap_congr (Int.ModEq.rfl.add ((toInt_wrap_modEq w _).trans ?_))
  rw [Nat.cast_sub (Nat.mod_le _ _)]
  exact ((toInt_wrap_modEq w _).trans (h.trip_eq.2.sub erem)).mul Int.ModEq.rfl

/-! ## Signed and unsigned order -/

/-- A comparison compares words as the numbers that they are read as. -/
structure Reads (op : CmpOp) (w : Nat) (val : Int64 → Int) : Prop where
  onInts : ∀ x y, op.onInts w x y = some (decide (val x < val y))
  modEq : ∀ x, val x ≡ x.toInt [ZMOD (2 ^ bits w : Nat)]
  sub_lt : ∀ x y, Normal w x → Normal w y → val y - val x < (2 ^ bits w : Nat)

/-- An exit test compares words as it reads them. -/
theorem reads_reading (hop : op = .slt ∨ op = .ult) (hw : 0 < w) : Reads op w (op.reading w) := by
  rcases hop with rfl | rfl
  · refine ⟨fun _ _ => rfl, fun _ => .rfl, fun x y hx hy => ?_⟩
    have h1 := hx.bounds
    have h2 := hy.bounds
    show y.toInt - x.toInt < _
    omega
  · refine ⟨fun x y => ?_, fun x => ?_, fun x y _ _ => ?_⟩
    · exact congrArg some (decide_eq_decide.mpr Int.ofNat_lt.symm)
    · show (unsigned w x : Int) ≡ _ [ZMOD _]
      rw [unsigned_eq hw]
      exact Int.mod_modEq _ _
    · have h := unsigned_lt w y
      rw [min_eq_bits hw] at h
      show (unsigned w y : Int) - unsigned w x < _
      omega

variable {val : Int64 → Int} {x y : Int64} {z : Int}

theorem Reads.lt_iff (h : Reads op w val) : op.onInts w x y = some true ↔ val x < val y := by
  rw [h.onInts, Option.some.injEq, decide_eq_true_iff]

/-- A word is read as a number between two others if it is congruent to it. -/
theorem Reads.eq_of_modEq (h : Reads op w val) (hx : Normal w x) (hy : Normal w y)
    (hz : val x ≤ z) (hz' : z ≤ val y) : val (wrap w z) = z := by
  have h1 := h.sub_lt x _ hx (normal_wrap w z)
  have h2 := h.sub_lt _ y (normal_wrap w z) hy
  obtain ⟨k, hk⟩ := ((h.modEq _).trans (toInt_wrap_modEq w z)).symm.dvd
  have hpos := Nat.two_pow_pos (bits w)
  obtain ⟨N, hN⟩ : ∃ N : Int, N = (2 ^ bits w : Nat) := ⟨_, rfl⟩
  rw [← hN] at h1 h2 hk
  have hk0 : k = 0 := by
    rcases Int.lt_trichotomy k 0 with h | h | h
    · nlinarith
    · exact h
    · nlinarith
  rw [hk0, Int.mul_zero] at hk
  omega

/-- The distance from a start to a bound above it. -/
theorem Reads.exists_ahead (h : Reads op w val) (hw : 0 < w) (hs : Normal w start)
    (hb : Normal w bound) (hstep : Normal w step) (hpos : 0 < step.toInt)
    (hlt : val start < val bound) :
    ∃ d : Nat, Ahead w start bound step d ∧ val bound = val start + d := by
  obtain ⟨d, hd⟩ := Int.eq_ofNat_of_zero_le (show 0 ≤ val bound - val start by omega)
  have hlt' := h.sub_lt start bound hs hb
  refine ⟨d, ⟨hw, hstep, hpos, by omega, by omega, ?_⟩, by omega⟩
  exact ((h.modEq bound).sub (h.modEq start)).symm.trans (by rw [hd])

/-- If trips are left, then the end of the main loop does not wrap around, and the bound is beyond. -/
theorem Reads.partialEnd_eq (h : Reads op w val) (hd : Ahead w start bound step d)
    (hdist : val bound = val start + d) (hs : Normal w start) (hb : Normal w bound)
    (hz : unsigned w width ≠ 0) (hleft : trips d (unsigned w step) % unsigned w width ≠ 0) :
    val (partialEnd op w start bound step width) = val start +
        (trips d (unsigned w step) - trips d (unsigned w step) % unsigned w width : Nat) *
          step.toInt ∧
      val start ≤ val (partialEnd op w start bound step width) ∧
      val (partialEnd op w start bound step width) < val bound := by
  obtain ⟨k, hk⟩ : ∃ k, k = trips d (unsigned w step) - trips d (unsigned w step) % unsigned w width :=
    ⟨_, rfl⟩
  -- the trips of the main loop lead less far than the distance from the start
  have hle : k ≤ (d - 1) / unsigned w step := by
    rw [hk]
    exact Nat.sub_le_of_le_add (Nat.add_le_add_left (Nat.pos_of_ne_zero hleft) _)
  have hlt : k * unsigned w step < d := by
    have h1 := Nat.mul_le_mul_right (unsigned w step) hle
    have h2 := Nat.div_mul_le_self (d - 1) (unsigned w step)
    have h3 := hd.pos
    omega
  have hspan : (k : Int) * step.toInt = (k * unsigned w step : Nat) := by
    rw [Nat.cast_mul, hd.step_eq]
  have hdpos := hd.pos
  have ht : op.onInts w start bound = some true := h.lt_iff.mpr (by omega)
  have e : wrap w (start.toInt + (k * unsigned w step : Nat)) =
      wrap w (val start + (k * unsigned w step : Nat)) :=
    wrap_congr ((h.modEq start).symm.add Int.ModEq.rfl)
  rw [hd.partialEnd_eq ht hz, ← hk, hspan, e, h.eq_of_modEq hs hb (by omega) (by omega)]
  exact ⟨rfl, by omega, by omega⟩

/-- An induction variable below the end of the main loop is below the bound. -/
theorem lt_bound_of_lt_mainEnd (hop : op = .slt ∨ op = .ult) (hs : Normal w start)
    (hb : Normal w bound) (hstep : Normal w step) (hpos : 0 < step.toInt) {n : Int64}
    (h : op.onInts w n (mainEnd op w start bound step width) = some true) :
    op.onInts w n bound = some true := by
  unfold mainEnd at h
  split at h
  · exact h
  rename_i hr
  -- trips are left, so that there are some at all
  have ht : op.onInts w start bound = some true := by
    by_contra hne
    exact hr (remTrips_eq_zero hne)
  have hz : unsigned w width ≠ 0 := by
    intro hz
    refine hr ?_
    unfold remTrips
    rw [if_pos hz, wrap_zero]
  have hw : 0 < w := by
    refine Nat.pos_of_ne_zero fun e => hz ?_
    subst e
    simp [unsigned]
  have hval := reads_reading hop hw
  obtain ⟨d, hd, hdist⟩ := hval.exists_ahead hw hs hb hstep hpos (hval.lt_iff.mp ht)
  have hleft : trips d (unsigned w step) % unsigned w width ≠ 0 := fun e =>
    hr (by rw [hd.remTrips_eq ht hz, e, Nat.cast_zero, wrap_zero])
  rw [hval.lt_iff] at h ⊢
  exact Int.lt_trans h (hval.partialEnd_eq hd hdist hs hb hz hleft).2.2

end MainBound

end Lockstep
