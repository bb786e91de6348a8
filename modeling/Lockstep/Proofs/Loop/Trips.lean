import Lockstep.Proofs.Loop.SplitRun

/-!
# How many turns the main loop makes

As long as every increment leads further in the order of the exit test, the induction variable is
read as `start + i * step` after `i` turns, without wrapping around (`SharesTurns.val_nth`). The
number of turns is then the number of trips that the code before the loop computes, and the main
loop makes as many of them as fill whole vectors (`SharesTurns.eq_div_mul`).
-/

namespace Lockstep

open Word MainBound

namespace CountedLoop

/-- The order of the exit test. -/
def Below (c : CountedLoop) (w : Nat) (x y : Int64) : Prop := c.stayOp.onInts w x y = some true

variable {c : CountedLoop} {w width t k i : Nat} {n0 nb : Int64} {val : Int64 → Int}

/-- A width that fits a type is read as itself. -/
theorem unsigned_of_widthFits (hw : 0 < w) (h : Loop.widthFits width w = true) :
    0 < width ∧ width * 2 < 2 ^ bits w ∧
      unsigned w (signExtend (Int64.ofNat width) w) = width := by
  unfold Loop.widthFits at h
  rw [Bool.and_eq_true, bne_iff_ne, decide_eq_true_iff] at h
  obtain ⟨hpos, he⟩ := h
  have hn : Normal w (signExtend (Int64.ofNat width) w) := signExtend_signExtend _ w
  have hb := hn.bounds
  exact ⟨Nat.pos_of_ne_zero hpos, by omega, unsigned_of_modEq hw (he ▸ .rfl) (by omega)⟩

/-- The induction variable does not wrap around. -/
theorem SharesTurns.val_nth {W : Int64} (h : c.SharesTurns w W (c.Below w) n0 nb t k)
    (hval : Reads c.stayOp w val) (hstep : Normal w c.step) (hpos : 0 < c.step.toInt)
    (hi : i ≤ t) : val (c.nth w n0 i) = val n0 + i * c.step.toInt := by
  induction i with
  | zero => rw [c.nth_zero h.passed.start, Nat.cast_zero, Int.zero_mul, Int.add_zero]
  | succ i ih =>
    have ih := ih (Nat.le_of_succ_le hi)
    have hlt := hval.lt_iff.mp (h.passed.turn i hi).2
    have hb := hstep.bounds
    have hclose : val (c.nth w n0 (i + 1)) - val (c.nth w n0 i) < (2 ^ bits w : Nat) :=
      hval.sub_lt _ _ (normal_wrap w _) (normal_wrap w _)
    -- the difference of two words is the step, up to a multiple of what they wrap at
    have hmod : val (c.nth w n0 (i + 1)) ≡ val (c.nth w n0 i) + c.step.toInt
        [ZMOD (2 ^ bits w : Nat)] := by
      rw [c.nth_succ]
      exact (hval.modEq _).trans ((toInt_wrap_modEq w _).trans
        ((hval.modEq _).symm.add Int.ModEq.rfl))
    obtain ⟨q, hq⟩ := hmod.dvd
    obtain ⟨N, hN⟩ : ∃ N : Int, N = (2 ^ bits w : Nat) := ⟨_, rfl⟩
    rw [← hN] at hb hclose hq
    have hq0 : q = 0 := by
      rcases Int.lt_trichotomy q 0 with h | h | h
      · nlinarith
      · exact h
      · nlinarith
    rw [hq0, Int.mul_zero] at hq
    rw [Nat.cast_succ, Int.add_mul, Int.one_mul]
    omega

/-- A loop that makes turns makes as many as there are trips. -/
theorem SharesTurns.eq_trips {W : Int64} {d : Nat} (h : c.SharesTurns w W (c.Below w) n0 nb t k)
    (hval : Reads c.stayOp w val) (hstep : Normal w c.step) (hpos : 0 < c.step.toInt)
    (hd : Ahead w n0 nb c.step d) (hdist : val nb = val n0 + d) :
    t = trips d (unsigned w c.step) := by
  have hstop : ¬ val (c.nth w n0 t) < val nb := fun hlt => by
    have := h.last.symm.trans (hval.lt_iff.mpr hlt)
    cases this
  rw [h.val_nth hval hstep hpos (Nat.le_refl t), hdist, ← hd.step_eq] at hstop
  have hup : d ≤ t * unsigned w c.step := by
    have : ¬ ((t * unsigned w c.step : Nat) : Int) < d := by
      rw [Nat.cast_mul]
      omega
    omega
  have hs : 0 < unsigned w c.step := by
    have := hd.step_eq
    omega
  have hdpos := hd.pos
  obtain ⟨u, rfl⟩ : ∃ u, t = u + 1 := by
    refine Nat.exists_eq_succ_of_ne_zero fun e => ?_
    rw [e, Nat.zero_mul] at hup
    omega
  -- the last turn starts below the bound
  have hlast := hval.lt_iff.mp (h.passed.turn u (Nat.lt_succ_self u)).1
  rw [h.val_nth hval hstep hpos (Nat.le_succ u), hdist, ← hd.step_eq] at hlast
  have hlow : u * unsigned w c.step < d := by
    have : ((u * unsigned w c.step : Nat) : Int) < d := by
      rw [Nat.cast_mul]
      omega
    omega
  unfold trips
  have h1 : u ≤ (d - 1) / unsigned w c.step :=
    (Nat.le_div_iff_mul_le hs).mpr (Nat.le_sub_one_of_lt hlow)
  have h2 : (d - 1) / unsigned w c.step < u + 1 := (Nat.div_lt_iff_lt_mul hs).mpr (by omega)
  omega

/-- If the main loop goes on as long as the induction variable is below what it is after `r` turns,
then it makes `r` turns. -/
theorem SharesTurns.eq_of_mainEnd {W : Int64} {r : Nat}
    (h : c.SharesTurns w W (c.Below w) n0 nb t k) (hval : Reads c.stayOp w val)
    (hstep : Normal w c.step) (hpos : 0 < c.step.toInt) (hr : r ≤ t)
    (hend : c.mainEnd w W n0 nb = c.nth w n0 r) : k = r := by
  have hstays : ∀ i ≤ t, c.mainStays w W n0 nb i = some (decide (i < r)) := by
    intro i hi
    unfold mainStays
    rw [hend, hval.onInts, h.val_nth hval hstep hpos hi, h.val_nth hval hstep hpos hr]
    refine congrArg some (decide_eq_decide.mpr ⟨fun hlt => ?_, fun hlt => ?_⟩)
    · by_contra hge
      have hge : (r : Int) ≤ i := by omega
      have := Int.mul_le_mul_of_nonneg_right hge (Int.le_of_lt hpos)
      omega
    · have hlt : (i : Int) < r := by omega
      have := Int.mul_lt_mul_of_pos_right hlt hpos
      omega
  rcases Nat.lt_trichotomy k r with hlt | e | hlt
  · have := h.last_main
    rw [hstays k h.le, decide_eq_true hlt] at this
    cases this
  · exact e
  · have := h.main r hlt
    rw [hstays r hr, decide_eq_false (Nat.lt_irrefl r)] at this
    cases this

/-- If the main loop goes on as long as the loop does, then it makes all turns. -/
theorem SharesTurns.eq_of_mainEnd_eq_bound {W : Int64} {P : Int64 → Int64 → Prop}
    (h : c.SharesTurns w W P n0 nb t k) (hend : c.mainEnd w W n0 nb = nb) : k = t := by
  by_contra hne
  have hstay := (h.passed.turn k (Nat.lt_of_le_of_ne h.le hne)).1
  have hlast := h.last_main
  unfold mainStays at hlast
  rw [hend, hstay] at hlast
  cases hlast

/-- The main loop makes the turns that fill whole vectors. -/
theorem SharesTurns.eq_div_mul (h : c.SharesTurns w (Int64.ofNat width) (c.Below w) n0 nb t k)
    (hop : c.stayOp = .slt ∨ c.stayOp = .ult) (hw : 0 < w) (hstep : Normal w c.step)
    (hpos : 0 < c.step.toInt) (hfits : Loop.widthFits width w = true) : k = t / width * width := by
  obtain ⟨hwidth, hsmall, hread⟩ := unsigned_of_widthFits hw hfits
  have hval := reads_reading hop hw
  have hsame : signExtend c.step w = c.step := hstep
  have hmain : c.mainEnd w (Int64.ofNat width) n0 nb =
      if remTrips c.stayOp w n0 nb c.step (signExtend (Int64.ofNat width) w) = 0 then nb
      else partialEnd c.stayOp w n0 nb c.step (signExtend (Int64.ofNat width) w) := by
    unfold CountedLoop.mainEnd MainBound.mainEnd
    rw [hsame]
  by_cases ht : c.stayOp.onInts w n0 nb = some true
  · obtain ⟨d, hd, hdist⟩ := hval.exists_ahead hw h.passed.start h.passed.bound hstep hpos
      (hval.lt_iff.mp ht)
    have htrips := h.eq_trips hval hstep hpos hd hdist
    have hz : unsigned w (signExtend (Int64.ofNat width) w) ≠ 0 := by omega
    have hrem := hd.remTrips_eq_zero_iff ht hz (by omega)
    have hpart := hd.partialEnd_eq ht hz
    rw [hread, ← htrips] at hrem hpart
    have hsub : t - t % width = t / width * width := by
      have := Nat.div_add_mod' t width
      omega
    by_cases hleft : t % width = 0
    · rw [if_pos (hrem.mpr hleft)] at hmain
      rw [h.eq_of_mainEnd_eq_bound hmain]
      omega
    · rw [if_neg (mt hrem.mp hleft), hpart, hsub] at hmain
      exact h.eq_of_mainEnd hval hstep hpos (Nat.div_mul_le_self t width) hmain
  · have ht0 : t = 0 := by
      refine Nat.eq_zero_of_not_pos fun hpos => ht ?_
      have h0 := (h.passed.turn 0 hpos).1
      rwa [c.nth_zero h.passed.start] at h0
    have hk := h.le
    rw [ht0] at hk ⊢
    rw [Nat.le_zero.mp hk, Nat.zero_div, Nat.zero_mul]

end CountedLoop

open Run in
/-- An induction variable that grows by one behind the exit test does not wrap around. -/
theorem Counts.increments_below_of_step_one {s : Setup} {f : Func} {l : Loop} {c : CountedLoop}
    {w : Nat} {j : InstId} {start : Machine} (H : Counts f l c w j) (R : SingleLane s f start)
    (hw : 0 < w) (hone : c.step = 1) (hj : j ∉ f.body l.header) :
    Counts.Increments s f c j start (c.Below w) := by
  rintro m m1 x y ⟨pred, b, ma, mb, before, after, ha, e1, esplit, e2⟩ e hx hy
  have hmem : j ∈ f.nonPhis b := by rw [esplit]; simp
  have hbody := Func.mem_body_of_mem_nonPhis hmem
  have hb : b ∈ l.blocks := H.wellFormed.placed b j hbody ▸ H.increment.mem
  have hne : b ≠ l.header := fun e => hj (e ▸ hbody)
  obtain ⟨n0, nb, v, h⟩ := H.inLoop_of_arrives (P := fun _ _ => True) R
    (fun _ _ _ _ _ _ _ _ => trivial) ha hb fun e => absurd e hne
  cases h with
  | header _ => exact absurd rfl hne
  | @body k _ _ _ D h =>
  -- the induction variable has passed the test, and is still what it was then
  have hiv : ∀ i ∈ f.body b, Value.inst c.iv ≠ .inst i := fun i hi e =>
    H.iv_not_mem hne (Value.inst.inj e ▸ hi)
  have hbefore : ∀ i ∈ before, i ∈ f.nonPhis b := fun i hi => by
    rw [esplit]
    exact List.mem_append_left _ hi
  have hsame : m.value 1 (.inst c.iv) = [.int (c.nth w n0 k)] := by
    rw [value_instrs_of_ne e2 fun i hi => hiv i (Func.mem_body_of_mem_nonPhis (hbefore i hi)),
      value_phis_of_ne e1 fun i hi => hiv i (Func.mem_body_of_mem_phis hi)]
    exact h.iv
  rw [value_instr_of_ne e (hiv j hbody), hsame] at hx
  cases hx
  have hlt : j < m.values.size := by
    rw [size_instrs e2, size_phis e1]
    exact (R.arrives H.wellTyped ha).2.2.symm ▸ H.wellFormed.body_lt b j hbody
  have hsum := Loop.value_of_instr H.wellFormed H.mem H.counted H.isIncrement R.width hlt e
    (by rw [value_instr_of_ne e (hiv j hbody), hsame])
  rw [hy, H.intWidth_eq] at hsum
  cases hsum
  have hval := reads_reading H.counted.stayOp hw
  have hstay := hval.lt_iff.mp h.stay
  have hstep : c.step.toInt = 1 := by rw [hone]; rfl
  refine hval.lt_iff.mpr ?_
  have e : wrap w ((c.nth w n0 k).toInt + c.step.toInt) =
      wrap w (c.stayOp.reading w (c.nth w n0 k) + 1) := by
    rw [hstep]
    exact wrap_congr ((hval.modEq _).symm.add Int.ModEq.rfl)
  have hn : Normal w (c.nth w n0 k) := normal_wrap w _
  rw [e, hval.eq_of_modEq hn h.passed.bound (Int.le_of_lt (Int.lt_succ _)) hstay]
  exact Int.lt_succ _

end Lockstep
