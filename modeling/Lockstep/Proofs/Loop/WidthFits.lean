import Lockstep.Proofs.Loop.SplitSound

/-!
# When a loop that can be split is split

`Loop.splittable` looks at the shape of a loop and at the type of its induction variable, and
`Loop.splitOff` looks besides at the vector width: it has to be a number of that type
(`Loop.widthFits_iff`). A loop that can be split is therefore split for the widths below half of what
the type wraps at, and only for them; for a larger width nothing is changed
(`Loop.isSome_splitOff_of_splittable`).
-/

namespace Lockstep

open Word

namespace Loop

variable {f : Func} {l : Loop} {a : Analyses} {c : CountedLoop} {width w : Nat}

/-- A width can be written in an integer type if it lies below the sign bit. -/
theorem widthFits_iff (hwidth : width < 2 ^ 32) :
    widthFits width w = true ↔ 0 < width ∧ (1 ≤ w ∧ w ≤ 63 → width < 2 ^ (w - 1)) := by
  have hread : (Int64.ofNat width).toInt = width := by
    rw [← Int64.ofInt_eq_ofNat, Int64.toInt_ofInt]
    have hsize : Int64.size = 2 ^ 64 := rfl
    exact Int.bmod_eq_of_le (by omega) (by omega)
  unfold widthFits signExtend
  rw [toInt_wrap, hread, Bool.and_eq_true, bne_iff_ne, decide_eq_true_iff, Nat.pos_iff_ne_zero]
  refine and_congr_right fun _ => ?_
  by_cases hw : 1 ≤ w ∧ w ≤ 63
  · obtain ⟨k, rfl⟩ : ∃ k, w = k + 1 := ⟨w - 1, by omega⟩
    rw [bits_of_mem hw.1 (by omega), Nat.add_sub_cancel]
    have htwice : 2 ^ (k + 1) = 2 * 2 ^ k := by rw [Nat.pow_succ, Nat.mul_comm]
    constructor
    · intro h _
      have hlt := Int.bmod_lt (x := (width : Int)) (Nat.two_pow_pos (k + 1))
      omega
    · intro h
      have hlt := h hw
      exact Int.bmod_eq_of_le (by omega) (by omega)
  · have hbits : bits w = 64 := if_neg hw
    rw [hbits]
    exact iff_of_true (Int.bmod_eq_of_le (by omega) (by omega)) fun h => absurd h hw

/-- Splitting looks at the width after the shape of the loop, and gives up at nothing else. -/
theorem isSome_split?_iff {uniform : List Value} {align : Nat} :
    (l.split? f a uniform width align).isSome ↔
      ∃ c, l.splittable f a = .ok c ∧ widthFits width (f.inst c.iv).ty.bitWidth = true := by
  unfold split?
  cases hc : l.splittable f a with
  | error e =>
    refine iff_of_false Bool.false_ne_true ?_
    rintro ⟨c, h, -⟩
    cases h
  | ok c =>
    dsimp only
    have hiff : (∃ c', Except.ok (ε := LoopRejection) c = .ok c' ∧
        widthFits width (f.inst c'.iv).ty.bitWidth = true) ↔
        widthFits width (f.inst c.iv).ty.bitWidth = true :=
      ⟨fun ⟨_, e, h⟩ => Except.ok.inj e ▸ h, fun h => ⟨c, rfl, h⟩⟩
    rw [hiff]
    cases widthFits width (f.inst c.iv).ty.bitWidth with
    | false => exact iff_of_false Bool.false_ne_true Bool.false_ne_true
    | true =>
      refine iff_of_true ?_ rfl
      rw [Bool.not_true, if_neg Bool.false_ne_true]
      split <;> rfl

/-- A loop that can be split is split if the width is a number of the type of the induction
variable. Otherwise it stays as it is, with all else. -/
theorem isSome_splitOff_of_splittable {s : Splitting} {align : Nat}
    (hc : l.splittable s.func a = .ok c) (hpos : 1 ≤ width) (hwidth : width < 2 ^ 32) :
    ∃ w, (s.func.inst c.iv).ty = .int w ∧
      ((splitOff a l width align s).1.isSome ↔ (1 ≤ w ∧ w ≤ 63 → width < 2 ^ (w - 1))) ∧
      ((splitOff a l width align s).1.isNone → (splitOff a l width align s).2 = s) := by
  obtain ⟨-, w, hty⟩ := counted_of_splittable hc
  have hsome : (l.split? s.func a s.uniform width align).isSome ↔
      (1 ≤ w ∧ w ≤ 63 → width < 2 ^ (w - 1)) := by
    rw [isSome_split?_iff]
    constructor
    · rintro ⟨c', hc', hfits⟩
      cases hc.symm.trans hc'
      rw [hty] at hfits
      exact ((widthFits_iff hwidth).mp hfits).2
    · intro h
      refine ⟨c, hc, ?_⟩
      rw [hty]
      exact (widthFits_iff hwidth).mpr ⟨hpos, h⟩
  refine ⟨w, hty, ?_, ?_⟩
  · rw [← hsome, splitOff_eq]
    cases l.split? s.func a s.uniform width align <;> rfl
  · rw [splitOff_eq]
    cases l.split? s.func a s.uniform width align with
    | none => exact fun _ => rfl
    | some r => exact fun h => absurd h Bool.false_ne_true

/-- A counter of eight bits. -/
theorem exists_splittable_countBy : ∃ c,
    (firstOf (countBy 8 (-128) 1)).splittable (countBy 8 (-128) 1)
      (.ofFunc (countBy 8 (-128) 1)) = .ok c ∧ ((countBy 8 (-128) 1).inst c.iv).ty = .int 8 := by
  have h : ∃ c ∈ ((firstOf (countBy 8 (-128) 1)).splittable (countBy 8 (-128) 1)
      (.ofFunc (countBy 8 (-128) 1))).toOption, ((countBy 8 (-128) 1).inst c.iv).ty = .int 8 := by
    decide +kernel
  obtain ⟨c, hsome, hty⟩ := h
  refine ⟨c, ?_, hty⟩
  generalize (firstOf (countBy 8 (-128) 1)).splittable (countBy 8 (-128) 1)
    (.ofFunc (countBy 8 (-128) 1)) = r at hsome ⊢
  cases r with
  | ok _ => exact congrArg Except.ok (Option.some.inj hsome)
  | error _ => cases hsome

/-- The counter is split for 127 lanes, the most that eight bits can say. -/
theorem isSome_splitOff_countBy : (∃ c, (firstOf (countBy 8 (-128) 1)).splittable
      (countBy 8 (-128) 1) (.ofFunc (countBy 8 (-128) 1)) = .ok c) ∧
    (splitOff (.ofFunc (countBy 8 (-128) 1)) (firstOf (countBy 8 (-128) 1)) 127 1
      ⟨countBy 8 (-128) 1, []⟩).1.isSome := by
  obtain ⟨c, hc, hty⟩ := exists_splittable_countBy
  obtain ⟨w, hw, hiff, -⟩ := @isSome_splitOff_of_splittable _ _ _ 127 ⟨countBy 8 (-128) 1, []⟩ 1
    hc (by decide) (by decide)
  obtain rfl : w = 8 := Ty.int.inj (hw.symm.trans hty)
  exact ⟨⟨c, hc⟩, hiff.mpr (by decide)⟩

/-- The counter can be split, and for 128 lanes it is not, though its trips are known to fill whole
vectors, so that no remainder would be needed. -/
theorem splitOff_countBy_eq_none : (∃ c, (firstOf (countBy 8 (-128) 1)).splittable
      (countBy 8 (-128) 1) (.ofFunc (countBy 8 (-128) 1)) = .ok c) ∧
    (splitOff (.ofFunc (countBy 8 (-128) 1)) (firstOf (countBy 8 (-128) 1)) 128 128
      ⟨countBy 8 (-128) 1, []⟩).1 = none := by
  obtain ⟨c, hc, -⟩ := exists_splittable_countBy
  exact ⟨⟨c, hc⟩, by decide +kernel⟩

end Loop

end Lockstep
