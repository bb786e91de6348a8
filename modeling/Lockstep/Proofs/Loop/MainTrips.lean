import Lockstep.Proofs.Loop.MainCode
import Mathlib.Data.Rat.Floor

/-!
# Where the main loop ends

A loop from `s` to `b` makes as many trips as there are steps from the one to the other, rounded up
(`tripCount`). Its main loop has to end at `b` if the vector width divides their number, and otherwise
where the first trip that does not fill a vector starts (`IsMainEnd`). The code before the loop computes
this number, in words of every width and in both orders: what it computes on the way may wrap around,
the number itself does not (`CountedLoop.exists_run_buildMainBound`).
-/

namespace Lockstep

namespace MainBound

open Word

/-- The number of trips of a loop that starts from `s` and goes up by `step` as long as it is below
`b`. -/
def tripCount (s b step : Int) : Int := if b ≤ s then 0 else ⌈((b - s : Int) : ℚ) / step⌉

/-- The main loop of a loop from `s` to `b` has to end at `e`: at `b` if the trips fill whole vectors, and
otherwise where the first trip starts that does not belong to a whole vector. -/
structure IsMainEnd (width step s b e : Int) : Prop where
  whole : width ∣ tripCount s b step → e = b
  rest : ¬ width ∣ tripCount s b step →
    e = s + (tripCount s b step - tripCount s b step % width) * step ∧ s ≤ e ∧ e < b

/-- Rounding up is rounding down the distance of the last trip. -/
theorem ceil_div_eq_trips {d k : Nat} (hd : 0 < d) (hk : 0 < k) : ⌈(d : ℚ) / k⌉ = trips d k := by
  have hk' : (0 : ℚ) < k := Nat.cast_pos.mpr hk
  have h1 : (d - 1) / k * k < d := by
    have := Nat.div_mul_le_self (d - 1) k
    omega
  have h2 : d ≤ ((d - 1) / k + 1) * k := by
    have := Nat.lt_mul_div_succ (d - 1) hk
    rw [Nat.mul_comm] at this
    omega
  rw [Int.ceil_eq_iff, lt_div_iff₀ hk', div_le_iff₀ hk']
  unfold trips
  push_cast
  rw [add_sub_cancel_right]
  exact ⟨by exact_mod_cast h1, by exact_mod_cast h2⟩

variable {op : CmpOp} {w : Nat} {start bound step width : Int64}

/-- The words give the end of the main loop. -/
theorem isMainEnd_mainEnd (hop : op = .slt ∨ op = .ult) (hw : 0 < w) (hs : Normal w start)
    (hb : Normal w bound) (hstep : Normal w step) (hpos : 0 < step.toInt) (hwidth : Normal w width)
    (hwpos : 0 < width.toInt) :
    IsMainEnd width.toInt step.toInt (op.reading w start) (op.reading w bound)
      (op.reading w (mainEnd op w start bound step width)) := by
  have hval := reads_reading hop hw
  by_cases hlt : op.reading w start < op.reading w bound
  · obtain ⟨d, hd, hdist⟩ := hval.exists_ahead hw hs hb hstep hpos hlt
    have hread := hwidth.unsigned_eq hw (Int.le_of_lt hwpos)
    have hz : unsigned w width ≠ 0 := by omega
    have hsmall : unsigned w width * 2 < 2 ^ bits w := by
      have := hwidth.bounds
      omega
    have htrips : tripCount (op.reading w start) (op.reading w bound) step.toInt =
        trips d (unsigned w step) := by
      have hk : 0 < unsigned w step := by
        have := hd.step_eq
        omega
      have hspan : op.reading w bound - op.reading w start = d := by omega
      unfold tripCount
      rw [if_neg (Int.not_le.mpr hlt), hspan, ← hd.step_eq]
      exact ceil_div_eq_trips hd.pos hk
    have hrem := hd.remTrips_eq_zero_iff (hval.lt_iff.mpr hlt) hz hsmall
    have hdvd : width.toInt ∣ (trips d (unsigned w step) : Int) ↔
        trips d (unsigned w step) % unsigned w width = 0 := by
      rw [← hread, Int.natCast_dvd_natCast, Nat.dvd_iff_mod_eq_zero]
    unfold mainEnd
    constructor
    · intro h
      rw [htrips, hdvd] at h
      rw [if_pos (hrem.mpr h)]
    · intro h
      rw [htrips, hdvd] at h
      rw [if_neg (mt hrem.mp h), htrips, ← hread, ← Int.natCast_mod, ← Nat.cast_sub (Nat.mod_le _ _)]
      exact hval.partialEnd_eq hd hdist hs hb hz h
  · have hnone : tripCount (op.reading w start) (op.reading w bound) step.toInt = 0 :=
      if_pos (Int.not_lt.mp hlt)
    have hbound : mainEnd op w start bound step width = bound :=
      if_pos (remTrips_eq_zero fun h => hlt (hval.lt_iff.mp h))
    rw [hbound]
    exact ⟨fun _ => rfl, fun h => absurd (hnone ▸ Int.dvd_zero _) h⟩

end MainBound

namespace CountedLoop

open MainBound Word

variable {s : Setup} {f g : Func} {c : CountedLoop} {w : Nat} {v : Value} {made : List Value}
  {width n0 nb x : Int64} {m : Machine}

/-- A number from one to the largest signed number of a type is a word of the type. -/
theorem normal_of_le_max (hw : 2 ≤ w ∧ w ≤ 64) (h1 : 1 ≤ x.toInt) (h2 : x.toInt ≤ 2 ^ (w - 1) - 1) :
    Normal w x := by
  have hpow : ((2 ^ bits w : Nat) : Int) = 2 ^ (w - 1) * 2 := by
    rw [bits_of_mem (by omega) hw.2, ← Int.pow_succ, Nat.succ_eq_add_one,
      Nat.sub_add_cancel (show 1 ≤ w by omega), Nat.cast_pow, Nat.cast_two]
  exact normal_of_bounds (by omega) (by omega)

/-- The code that is appended to the preheader computes the end of the main loop, for signed and for
unsigned words of every width: neither the number of trips nor the end itself wraps around. -/
theorem exists_run_buildMainBound (hlane : s.width = 1) (hw : 2 ≤ w ∧ w ≤ 64)
    (hop : c.stayOp = .slt ∨ c.stayOp = .ult) (hp : c.shape.preheader < f.blocks.size)
    (hs : f.Defines c.start) (hb : f.Defines c.bound) (hst : f.typeOf c.start = .int w)
    (hbt : f.typeOf c.bound = .int w) (hn0 : Normal w n0) (hnb : Normal w nb)
    (hstep : 1 ≤ c.step.toInt ∧ c.step.toInt ≤ 2 ^ (w - 1) - 1)
    (hwidth : 1 ≤ width.toInt ∧ width.toInt ≤ 2 ^ (w - 1) - 1)
    (hbuild : f.buildAt (.blockEnd c.shape.preheader) (c.buildMainBound (.int w) width) =
      ((v, made), g))
    (hsize : g.insts.size ≤ m.values.size) (hs0 : m.value 1 c.start = [.int n0])
    (hb0 : m.value 1 c.bound = [.int nb]) :
    ∃ code m' e, g.body c.shape.preheader = f.body c.shape.preheader ++ code ∧
      code.forM (Run.instr s g) m = (.ok (), m') ∧ m'.value 1 v = [.int e] ∧
      IsMainEnd width.toInt c.step.toInt (c.stayOp.reading w n0) (c.stayOp.reading w nb)
        (c.stayOp.reading w e) := by
  obtain ⟨made', e⟩ := buildMainBound_eq (p := c.shape.preheader) c (.int w) width hs hb
  rw [hbuild, hst, hbt] at e
  obtain ⟨⟨rfl, -⟩, rfl⟩ := Prod.mk.inj e
  have hcode : ∀ (j : Nat) d,
      (c.mainBoundCode c.shape.preheader (.int w) (.int w) (.int w) width f.insts.size)[j]? =
        some d → (f.appendAll c.shape.preheader (c.mainBoundCode c.shape.preheader (.int w) (.int w)
          (.int w) width f.insts.size)).inst (f.insts.size + j) = d := by
    intro j d hd
    rw [Func.inst_appendAll hd]
    have hmem := List.mem_of_getElem? hd
    simp only [mainBoundCode, List.mem_cons, List.not_mem_nil, or_false] at hmem
    rcases hmem with rfl | rfl | rfl | rfl | rfl | rfl | rfl | rfl | rfl | rfl | rfl | rfl <;> rfl
  have hsteps : signExtend c.step w = c.step := normal_of_le_max hw hstep.1 hstep.2
  have hwidths : signExtend width w = width := normal_of_le_max hw hwidth.1 hwidth.2
  obtain ⟨m', xs, hrun, -, -, hend⟩ := exists_run_mainBoundCode hlane hcode
    (by rwa [Func.size_insts_appendAll] at hsize) ((typeOf_appendAll_of_defines hs).trans hst)
    hs.within hb.within hs0 hb0 ((reads_reading hop (by omega)).onInts n0 nb)
  rw [hsteps, hwidths] at hend
  refine ⟨_, m', _, ?_, hrun, hend, ?_⟩
  · rw [Func.body_appendAll hp, if_pos rfl]
    rfl
  · exact isMainEnd_mainEnd hop (by omega) hn0 hnb hsteps (by omega) hwidths (by omega)

/-- A loop that counts bytes by three, from one parameter to the other. -/
def bytesByThree : Func where
  params := [.int 8, .int 8]
  retTy := .void
  blocks := #[
    { term := .br 1 },
    { insts := [0, 1], term := .brIf (.inst 1) 2 3 },
    { insts := [2], term := .br 1 },
    { term := .ret none }]
  insts := #[
    { op := .phi [(0, .param 0), (2, .inst 2)], ty := .int 8, block := 1 },
    { op := .apply (.cmp .slt) [.inst 0, .param 1], ty := .bool, block := 1 },
    { op := .apply (.binary .add) [.inst 0, .ofInt (.int 8) 3], ty := .int 8, block := 2 }]
  layout := [0, 1, 2, 3]

/-- What is known about the loop. -/
def byThree : CountedLoop where
  shape := {
    header := 1, preheader := 0, latch := 2, exiting := 1, exit := 3, continueTarget := 2
    cond := .inst 1, stayOnTrue := true }
  iv := 0
  start := .param 0
  step := 3
  bound := .param 1
  stayOp := .slt

/-- A single lane before the loop, which is to count from the least byte to the largest one. -/
def allBytes : Machine where
  params := [[.int (-128)], [.int 127]]
  values := .replicate 15 [.undefined]
  memory := #[]

/-- There are 85 trips, although the distance is no byte. With four lanes the main loop makes 84 of
them, and ends at 124. -/
theorem exists_run_buildMainBound_byThree :
    ((Analyses.ofFunc bytesByThree).loops.get 0).splittable bytesByThree (.ofFunc bytesByThree) =
        .ok byThree ∧
      let built := bytesByThree.buildAt (.blockEnd 0) (byThree.buildMainBound (.int 8) 4)
      ∃ code m' e, built.2.body 0 = code ∧
        code.forM (Run.instr { width := 1, limit := 1 } built.2) allBytes = (.ok (), m') ∧
        m'.value 1 built.1.1 = [.int e] ∧ e.toInt = 124 := by
  refine ⟨by decide +kernel, ?_⟩
  obtain ⟨code, m', e, hbody, hrun, hend, he⟩ := @exists_run_buildMainBound { width := 1, limit := 1 }
    bytesByThree _ byThree 8 _ _ 4 (-128) 127 allBytes rfl (by decide) (.inl rfl) (by decide) trivial
    trivial rfl rfl (by decide) (by decide) (by decide) (by decide) rfl (by decide +kernel) rfl rfl
  have htrips : tripCount (-128) 127 3 = 85 := by
    unfold tripCount
    norm_num
  have hrest : ¬ 4 ∣ tripCount (-128) 127 3 → e.toInt =
    -128 + (tripCount (-128) 127 3 - tripCount (-128) 127 3 % 4) * 3 ∧ _ := he.rest
  rw [htrips] at hrest
  exact ⟨code, m', e, hbody, hrun, hend, (hrest (by decide)).1⟩

end CountedLoop

end Lockstep
