import Lockstep.Proofs.Eval.SingleLane
import Lockstep.Proofs.Loop.CountedTurn
import Lockstep.Proofs.Loop.MainBound

/-!
# Running a counted loop

In a single-lane run the induction variable of a counted loop is `start + k * step`, wrapped at the
width of its type, when the exit test is made for the `k`-th time, counted from zero
(`CountedLoop.nth`). `AtHeader` says so of a machine with which control comes to the header, and
`InBody` of one with which control is in the loop behind the test. They follow each other as long as
the loop goes on (`AtHeader.step`, `InBody.step`).
-/

namespace Lockstep

open Run

/-- The value of the induction variable after `k` turns. -/
def CountedLoop.nth (c : CountedLoop) (w : Nat) (start : Int64) (k : Nat) : Int64 :=
  Word.wrap w (start.toInt + k * c.step.toInt)

theorem CountedLoop.nth_zero (c : CountedLoop) {w : Nat} {start : Int64}
    (h : Word.Normal w start) : c.nth w start 0 = start := by
  unfold nth
  rw [Nat.cast_zero, Int.zero_mul, Int.add_zero]
  exact h

theorem CountedLoop.nth_succ (c : CountedLoop) (w : Nat) (start : Int64) (k : Nat) :
    c.nth w start (k + 1) = Word.wrap w ((c.nth w start k).toInt + c.step.toInt) := by
  refine Word.wrap_congr ?_
  have e : start.toInt + (k + 1 : Nat) * c.step.toInt =
      start.toInt + k * c.step.toInt + c.step.toInt := by
    rw [Nat.cast_succ, Int.add_mul, Int.one_mul, Int.add_assoc]
  rw [e]
  exact ((Word.toInt_wrap_modEq w _).symm).add Int.ModEq.rfl

/-- A single lane of an integer type is undefined or a number in range. -/
theorem Machine.Typed.single {f : Func} {m : Machine} (ht : m.Typed f) (hf : m.Full 1) {v : Value}
    (hv : v.IsTyped) {w : Nat} (hw : f.typeOf v = .int w) :
    m.value 1 v = [.undefined] ∨ ∃ x, m.value 1 v = [.int x] ∧ Word.Normal w x := by
  obtain ⟨x, hx⟩ := List.length_eq_one_iff.mp (hf.value v)
  have h := ht.value hv 1 0
  rw [hw, hx] at h
  have h : x.HasTy (.int w) := h
  rw [hx]
  rcases h with rfl | ⟨n, rfl, hn⟩
  · exact .inl rfl
  · exact .inr ⟨n, rfl, hn⟩

/-! ## Counted loops with a run -/

/-- A counted loop of a well-formed and well-typed function, whose induction variable has width `w`
and is incremented by the instruction `j`. -/
structure Counts (f : Func) (l : Loop) (c : CountedLoop) (w : Nat) (j : InstId) : Prop where
  wellFormed : f.WellFormed
  wellTyped : f.WellTyped
  nodup : ∀ b, (f.term b).targets.Nodup
  mem : l ∈ (Analyses.ofFunc f).loops.loops
  counted : l.IsCounted f c
  ty : (f.inst c.iv).ty = .int w
  step : Word.Normal w c.step
  increment : IsIncrement f l c (.int w) j

variable {s : Setup} {f : Func} {l : Loop} {c : CountedLoop} {w : Nat} {j : InstId}
  {start m m1 : Machine} {pred : Option BlockId} {b n : BlockId} {n0 nb : Int64} {k : Nat}

namespace Counts

theorem header_mem (H : Counts f l c w j) : l.header ∈ l.blocks := LoopForest.header_mem H.mem

theorem iv_mem (H : Counts f l c w j) : c.iv ∈ f.phis l.header :=
  H.counted.iv_mem H.wellFormed H.mem

/-- The induction variable is computed in the header only. -/
theorem iv_not_mem (H : Counts f l c w j) (hb : b ≠ l.header) : c.iv ∉ f.body b :=
  H.counted.iv_not_mem H.wellFormed H.mem hb

/-- The bound is not computed in the loop. -/
theorem bound_ne (H : Counts f l c w j) (hb : b ∈ l.blocks) : ∀ i ∈ f.body b, c.bound ≠ .inst i :=
  H.counted.bound_ne H.wellFormed hb

theorem isTyped_bound (H : Counts f l c w j) : c.bound.IsTyped := by
  obtain ⟨i, hi⟩ := H.counted.test
  obtain ⟨op, x, y, hop, -, -, h⟩ := H.counted.exitTest H.wellFormed H.wellTyped H.mem hi
  have hmem := (H.counted.mem_of_isExitTest H.wellFormed H.mem hi).2
  have huse : ∀ v ∈ [x, y], v.IsTyped := fun v hv =>
    (H.wellTyped.inst _ _ (Func.mem_body_of_mem_nonPhis hmem)).uses v
      (List.mem_append_left _ (by rw [inputs_of_op hop]; exact hv))
  rcases h with ⟨-, rfl, -⟩ | ⟨rfl, -, -⟩
  · exact huse _ (by simp)
  · exact huse _ (by simp)

theorem typeOf_bound (H : Counts f l c w j) : f.typeOf c.bound = .int w := by
  obtain ⟨i, hi⟩ := H.counted.test
  obtain ⟨-, -, -, -, -, h, -⟩ := H.counted.exitTest H.wellFormed H.wellTyped H.mem hi
  rw [h, H.ty]

theorem intWidth_eq (H : Counts f l c w j) : (f.inst c.iv).ty.intWidth = w := by
  rw [H.ty]
  rfl

theorem isIncrement (H : Counts f l c w j) : IsIncrement f l c (f.inst c.iv).ty j :=
  H.ty ▸ H.increment

/-- What every increment that a run makes is known to do to the induction variable. -/
def Increments (s : Setup) (f : Func) (c : CountedLoop) (j : InstId) (start : Machine)
    (P : Int64 → Int64 → Prop) : Prop :=
  ∀ m m1 x y, Executes s f start j m → instr s f j m = (.ok (), m1) →
    m1.value 1 (.inst c.iv) = [.int x] → m1.value 1 (.inst j) = [.int y] → P x y

variable {P : Int64 → Int64 → Prop}

/-- An increment that a run makes is of the known kind. -/
theorem increments_of_block (H : Counts f l c w j) (R : SingleLane s f start)
    (hP : Increments s f c j start P) (ha : Arrives s f start pred b m)
    {r : BlockId ⊕ Option Lanes} (e : block s f pred b m = (.ok r, m1)) (hj : j ∈ f.body b)
    {x : Int64} (hx : m1.value 1 (.inst c.iv) = [.int x]) :
    P x (Word.wrap w (x.toInt + c.step.toInt)) := by
  obtain ⟨m2, before, after, ma, mb, e1, hsplit, hbefore, hmb, hiv, hkept, hsum⟩ :=
    Loop.exists_increment H.wellFormed H.mem H.counted H.isIncrement R.width
      (R.arrives H.wellTyped ha).2.2 e hj hx
  rw [H.intWidth_eq] at hsum
  exact hP ma mb x _ ⟨pred, b, m, m2, before, after, ha, e1, hsplit, hbefore⟩ hmb hiv
    (hkept.trans hsum)

end Counts

/-! ## Turns -/

variable {P : Int64 → Int64 → Prop} {p : BlockId} {D : BlockId → Prop}

/-- The test was passed `k` times, with the values of the induction variable one after the other. -/
structure Passed (c : CountedLoop) (w : Nat) (P : Int64 → Int64 → Prop) (n0 nb : Int64) (k : Nat) :
    Prop where
  start : Word.Normal w n0
  bound : Word.Normal w nb
  turn : ∀ i < k, c.stayOp.onInts w (c.nth w n0 i) nb = some true ∧
    P (c.nth w n0 i) (c.nth w n0 (i + 1))

/-- Control comes to the header from `p`, after `k` turns. -/
structure AtHeader (f : Func) (c : CountedLoop) (w : Nat) (P : Int64 → Int64 → Prop)
    (n0 nb : Int64) (k : Nat) (p : BlockId) (m : Machine) : Prop where
  passed : Passed c w P n0 nb k
  bound : m.value 1 c.bound = [.int nb]
  incoming : ∀ v, f.incomingValue? c.iv p = some v → m.value 1 v = [.int (c.nth w n0 k)]

/-- Control is in the loop behind the header, in the turn after `k` others, and has passed the
blocks `D` in this turn. -/
structure InBody (f : Func) (l : Loop) (c : CountedLoop) (w : Nat) (j : InstId)
    (P : Int64 → Int64 → Prop) (n0 nb : Int64) (k : Nat) (D : BlockId → Prop) (b : BlockId)
    (m : Machine) : Prop extends Loop.InTurn f l c j (c.nth w n0 k) nb D b m where
  passed : Passed c w P n0 nb k
  stay : c.stayOp.onInts w (c.nth w n0 k) nb = some true
  leads : ∀ d, D d → j ∈ f.body d → P (c.nth w n0 k) (c.nth w n0 (k + 1))

/-- In the header the induction variable takes the value that comes along the edge, and the exit
test decides where control goes. -/
theorem Counts.exists_turn (H : Counts f l c w j) (R : SingleLane s f start)
    (ha : Arrives s f start (some p) l.header m)
    (e : block s f (some p) l.header m = (.ok (.inl n), m1)) :
    ∃ v x y stay, f.incomingValue? c.iv p = some v ∧ m.value 1 v = [.int x] ∧
      m.value 1 c.bound = [.int y] ∧ m1.value 1 (.inst c.iv) = [.int x] ∧
      m1.value 1 c.bound = [.int y] ∧ Word.Normal w x ∧ Word.Normal w y ∧
      c.stayOp.onInts w x y = some stay ∧
      n = if stay then c.shape.continueTarget else c.shape.exit := by
  obtain ⟨ht, hfull, hsize⟩ := R.arrives H.wellTyped ha
  obtain ⟨v, x, y, stay, hv, hx, hy, hiv, hbound, hstay, hn⟩ :=
    H.counted.exists_visit H.wellFormed H.mem H.wellTyped R.width hfull hsize e
  obtain ⟨ht1, hfull1, -⟩ := R.arrives H.wellTyped (ha.next e)
  rw [H.intWidth_eq] at hstay
  have hnormal : ∀ {u z}, u.IsTyped → f.typeOf u = .int w → m1.value 1 u = [.int z] →
      Word.Normal w z := by
    intro u z hu hty hz
    rcases ht1.single hfull1 hu hty with h | ⟨z', h, hn⟩
    · cases hz.symm.trans h
    · cases hz.symm.trans h
      exact hn
  exact ⟨v, x, y, stay, hv, hx, hy, hiv, hbound, hnormal (u := .inst c.iv) trivial H.ty hiv,
    hnormal H.isTyped_bound H.typeOf_bound hbound, hstay, hn⟩

/-- A loop that is entered starts with a number, and is compared with a number. -/
theorem Counts.exists_atHeader (H : Counts f l c w j) (R : SingleLane s f start)
    (ha : Arrives s f start (some c.shape.preheader) l.header m)
    (e : block s f (some c.shape.preheader) l.header m = (.ok (.inl n), m1)) :
    ∃ n0 nb, m.value 1 c.start = [.int n0] ∧
      AtHeader f c w P n0 nb 0 c.shape.preheader m := by
  obtain ⟨v, x, y, -, hv, hx, hy, -, -, hnx, hny, -⟩ := H.exists_turn R ha e
  cases H.counted.start.symm.trans hv
  refine ⟨x, y, hx, ⟨hnx, hny, nofun⟩, hy, fun u hu => ?_⟩
  cases hu.symm.trans hv
  rw [c.nth_zero hnx, hx]

/-- From the header control goes to another turn, or out of the loop. -/
theorem AtHeader.step (H : Counts f l c w j) (R : SingleLane s f start)
    (hP : Counts.Increments s f c j start P) (h : AtHeader f c w P n0 nb k p m)
    (ha : Arrives s f start (some p) l.header m)
    (e : block s f (some p) l.header m = (.ok (.inl n), m1)) :
    m1.value 1 (.inst c.iv) = [.int (c.nth w n0 k)] ∧ ∃ stay,
      c.stayOp.onInts w (c.nth w n0 k) nb = some stay ∧
      n = (if stay then c.shape.continueTarget else c.shape.exit) ∧
      (stay = true → InBody f l c w j P n0 nb k (· = l.header) n m1) := by
  obtain ⟨v, x, y, stay, hv, hx, hy, hiv, hbound, -, -, hstay, hn⟩ := H.exists_turn R ha e
  cases hx.symm.trans (h.incoming v hv)
  cases hy.symm.trans h.bound
  refine ⟨hiv, stay, hstay, hn, ?_⟩
  rintro rfl
  obtain rfl : n = c.shape.continueTarget := hn
  have hturn := Loop.inTurn_of_visit H.wellFormed H.mem H.counted H.isIncrement R.width
    (R.arrives H.wellTyped ha).2.2 e hiv hbound
  refine ⟨hturn, h.passed, hstay, ?_⟩
  rintro d rfl hj
  rw [c.nth_succ]
  exact H.increments_of_block R hP ha e hj hiv

/-- Behind the header control stays in the loop, and comes back to the header from the latch. -/
theorem InBody.step (H : Counts f l c w j) (R : SingleLane s f start)
    (hP : Counts.Increments s f c j start P) (h : InBody f l c w j P n0 nb k D b m)
    (ha : Arrives s f start pred b m) (e : block s f pred b m = (.ok (.inl n), m1)) :
    n ∈ l.blocks ∧ (n ≠ l.header → InBody f l c w j P n0 nb k (fun d => D d ∨ d = b) n m1) ∧
      (n = l.header → b = c.shape.latch ∧ AtHeader f c w P n0 nb (k + 1) b m1) := by
  have hf := H.wellFormed
  obtain ⟨hin, hbody, hheader⟩ := h.toInTurn.step hf H.mem H.counted H.isIncrement R.width
    ha.reachable (R.arrives H.wellTyped ha).2.2 e
  have hiv : m1.value 1 (.inst c.iv) = [.int (c.nth w n0 k)] := by
    rw [value_block_of_ne e (v := .inst c.iv) fun i hi e =>
      H.iv_not_mem h.ne (Value.inst.inj e ▸ hi), h.iv]
  have hleads : ∀ d, D d ∨ d = b → j ∈ f.body d → P (c.nth w n0 k) (c.nth w n0 (k + 1)) := by
    intro d hd hj
    by_cases hb : j ∈ f.body b
    · rw [c.nth_succ]
      exact H.increments_of_block R hP ha e hb hiv
    · exact h.leads d (hd.resolve_right fun e => hb (e ▸ hj)) hj
  refine ⟨hin, fun hne => ⟨hbody hne, h.passed, h.stay, hleads⟩, fun hn => ?_⟩
  obtain ⟨hlatch, ⟨d, hd, hj⟩, hbound, hsum⟩ := hheader hn
  refine ⟨hlatch, ⟨h.passed.start, h.passed.bound, fun i hi => ?_⟩, hbound, fun v hv => ?_⟩
  · rcases Nat.lt_succ_iff_lt_or_eq.mp hi with hi | rfl
    · exact h.passed.turn i hi
    · exact ⟨h.stay, hleads d hd hj⟩
  · rw [hlatch, H.increment.incoming] at hv
    cases hv
    rw [c.nth_succ, hsum, H.intWidth_eq]

/-- Control is in the loop, and has passed the header `v` times since it entered the loop. -/
inductive InLoop (f : Func) (l : Loop) (c : CountedLoop) (w : Nat) (j : InstId)
    (P : Int64 → Int64 → Prop) (n0 nb : Int64) : Nat → Option BlockId → BlockId → Machine → Prop
  | header {k : Nat} {p : BlockId} {m : Machine} (h : AtHeader f c w P n0 nb k p m) :
      InLoop f l c w j P n0 nb k (some p) l.header m
  | body {k : Nat} {pred : Option BlockId} {b : BlockId} {m : Machine} {D : BlockId → Prop}
      (h : InBody f l c w j P n0 nb k D b m) : InLoop f l c w j P n0 nb (k + 1) pred b m

variable {v : Nat}

theorem InLoop.mem (H : Counts f l c w j) (h : InLoop f l c w j P n0 nb v pred b m) :
    b ∈ l.blocks := by
  cases h with
  | header _ => exact H.header_mem
  | body h => exact h.mem

/-- Control stays in the loop, or leaves it from the header when the test fails. -/
theorem InLoop.step (H : Counts f l c w j) (R : SingleLane s f start)
    (hP : Counts.Increments s f c j start P) (h : InLoop f l c w j P n0 nb v pred b m)
    (ha : Arrives s f start pred b m) (e : block s f pred b m = (.ok (.inl n), m1)) :
    (n ∈ l.blocks ∧
      InLoop f l c w j P n0 nb (if b = l.header then v + 1 else v) (some b) n m1) ∨
    (b = l.header ∧ n = c.shape.exit ∧ Passed c w P n0 nb v ∧
      c.stayOp.onInts w (c.nth w n0 v) nb = some false) := by
  cases h with
  | header h =>
    obtain ⟨-, stay, hstay, hn, hbody⟩ := h.step H R hP ha e
    cases stay with
    | true =>
      rw [if_pos rfl]
      exact .inl ⟨(hbody rfl).mem, .body (hbody rfl)⟩
    | false => exact .inr ⟨rfl, hn, h.passed, hstay⟩
  | body h =>
    obtain ⟨hmem, hbody, hheader⟩ := h.step H R hP ha e
    rw [if_neg h.ne]
    refine .inl ⟨hmem, ?_⟩
    by_cases hn : n = l.header
    · obtain ⟨-, h'⟩ := hheader hn
      rw [hn]
      exact .header h'
    · exact .body (hbody hn)

/-- A run that is in the loop has entered it from the preheader. -/
theorem Counts.inLoop_of_arrives (H : Counts f l c w j) (R : SingleLane s f start)
    (hP : Counts.Increments s f c j start P) (ha : Arrives s f start pred b m) (hb : b ∈ l.blocks)
    (hheader : b = l.header → ∃ n m1, block s f pred b m = (.ok (.inl n), m1)) :
    ∃ n0 nb v, InLoop f l c w j P n0 nb v pred b m := by
  have hf := H.wellFormed.toClosed
  have hs := H.counted.singleExit
  induction ha with
  | entry => exact absurd hb (hs.entry_not_mem hf H.mem H.wellFormed.entry_pred)
  | @next pred p b m m1 ha e ih =>
    have htarget := target_of_block e
    by_cases hp : p ∈ l.blocks
    · obtain ⟨n0, nb, v, h⟩ := ih hp fun _ => ⟨_, _, e⟩
      rcases h.step H R hP ha e with ⟨-, h⟩ | ⟨-, rfl, -⟩
      · exact ⟨n0, nb, _, h⟩
      · exact absurd hb (hs.exiting_mem hf H.mem).2.2.2
    · obtain rfl := LoopForest.eq_header_of_entering hf H.mem hs.reducible ha.reachable hp hb htarget
      obtain ⟨n, m2, e2⟩ := hheader rfl
      rcases hs.eq_of_entering hf H.mem ha.reachable htarget with ⟨rfl, -⟩ | ⟨-, hin⟩
      · obtain ⟨n0, nb, -, h⟩ := H.exists_atHeader (P := P) R (ha.next e) e2
        exact ⟨n0, nb, 0, .header h⟩
      · exact absurd hin hp

end Lockstep
