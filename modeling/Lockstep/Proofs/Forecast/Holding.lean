import Lockstep.Proofs.Eval.LaneRun
import Lockstep.Proofs.Forecast.Lowered

/-!
# Machines that hold what is known

While all lanes run together, the values of the instructions that were run are as known beforehand, and
those of the others are undefined (`Knowledge.Holds`). An operation without effects keeps that
(`Lowered.exists_pure`), and so do the phis of a block (`Lowered.exists_phis`).
-/

namespace Lockstep

open Run

/-! ## What has been run -/

namespace Func

/-- The instructions that are run before a position: those of the blocks `pre` and those of `before`. -/
def Ran (f : Func) (pre : List BlockId) (before : List InstId) (j : InstId) : Prop :=
  (∃ c ∈ pre, j ∈ f.body c) ∨ j ∈ before

variable {f : Func} {pre post : List BlockId} {before after : List InstId} {b d : BlockId}
  {i j : InstId} {v : Value}

theorem ran_append : f.Ran pre (before ++ after) j ↔ f.Ran pre before j ∨ j ∈ after := by
  unfold Ran
  rw [List.mem_append, or_assoc]

theorem ran_body : f.Ran pre (f.body b) j ↔ f.Ran (pre ++ [b]) [] j := by
  simp [Ran, or_and_right, exists_or]

/-- What dominates a block is passed before it. -/
theorem Course.mem_of_dominates (h : f.Course (pre ++ b :: post)) (hd : f.Dominates d b) :
    d ∈ pre ++ [b] := by
  by_contra hmem
  have hchain : (pre ++ [b]).IsChain f.Edge :=
    h.chain.infix ⟨[], post, by simp⟩
  obtain ⟨rest, hrest⟩ : ∃ rest, pre ++ [b] = f.entry :: rest := by
    have hstart := h.start
    cases pre with
    | nil =>
      obtain rfl := Option.some.inj hstart
      exact ⟨[], rfl⟩
    | cons c pre =>
      obtain rfl := Option.some.inj hstart
      exact ⟨pre ++ [b], rfl⟩
  have hb : b ∈ pre ++ [b] := by simp
  refine hmem (hd (path_along (hrest ▸ hchain) (hrest ▸ hb) fun y hy e => ?_) ▸ hb)
  exact hmem (e ▸ hrest ▸ hy)

/-- What is available at the end of a block has been run when control leaves it. -/
theorem AtEnd.within_ran (h : f.AtEnd f b v) (hc : f.Course (pre ++ b :: post)) :
    v.Within (f.Ran (pre ++ [b]) []) :=
  h.mono fun _ ⟨d, hj, hd⟩ => .inl ⟨d, hc.mem_of_dominates hd, hj⟩

/-- What is available at an instruction has been run before it. -/
theorem Before.within_ran (h : f.Before f b i v) (hc : f.Course (pre ++ b :: post))
    (hn : (f.body b).Nodup) (e : f.body b = before ++ i :: after) : v.Within (f.Ran pre before) := by
  refine Value.Within.mono h fun j hj => ?_
  rcases hj with hj | ⟨d, hne, hj, hd⟩
  · right
    rw [e] at hj hn
    obtain ⟨hi, -⟩ := notMem_of_nodup_middle hn
    rcases List.sublist_append_iff.mp hj with ⟨l1, l2, hl, h1, h2⟩
    rcases l1 with - | ⟨j', l1⟩
    · obtain rfl : l2 = [j, i] := hl.symm
      obtain ⟨-, hafter⟩ := notMem_of_nodup_middle hn
      rcases List.cons_sublist_cons'.mp h2 with h2 | ⟨rfl, h2⟩
      · exact absurd (h2.subset (by simp)) hafter
      · exact absurd (h2.subset (by simp)) hafter
    · obtain ⟨rfl, -⟩ := List.cons.inj hl
      exact h1.subset List.mem_cons_self
  · refine .inl ⟨d, ?_, hj⟩
    rcases List.mem_append.mp (hc.mem_of_dominates hd) with hd | hd
    · exact hd
    · exact absurd (List.mem_singleton.mp hd) hne

end Func

/-! ## Machines -/

namespace Knowledge

variable {W : Nat}

/-- A machine in which the values of what was run are as known, and the others are undefined. -/
structure Holds (K : Knowledge (Fin W)) (f : Func) (ran : InstId → Prop) (m : Machine) : Prop where
  size : m.values.size = f.insts.size
  full : m.Full W
  typed : m.Typed f
  param : ∀ (l : Fin W) k, (m.value W (.param k)).lane l = K.arg l k
  known : ∀ i, ran i → ∀ (l : Fin W) x, K.inst l i x → (m.value W (.inst i)).lane l = x
  fresh : ∀ i, ¬ ran i → m.value W (.inst i) = .splat W .undefined

namespace Holds

variable {K : Knowledge (Fin W)} {f : Func} {ran ran' : InstId → Prop} {m m' : Machine} {i : InstId}
  {v : Value} {l : Fin W} {x : Scalar}

theorem congr (h : K.Holds f ran m) (hr : ∀ j, ran' j ↔ ran j) : K.Holds f ran' m :=
  { h with
    known := fun i hi => h.known i ((hr i).mp hi)
    fresh := fun i hi => h.fresh i fun k => hi ((hr i).mpr k) }

theorem ofEq (h : K.Holds f ran m) (hp : m'.params = m.params) (hv : m'.values = m.values) :
    K.Holds f ran m' := by
  have hvalue : ∀ v, m'.value W v = m.value W v := by
    intro v
    cases v with
    | const c => rfl
    | param k => exact congrArg (fun ps : List Lanes => ps[k]?.getD _) hp
    | inst i => exact congrArg (fun vs : Array Lanes => vs[i]?.getD _) hv
  refine ⟨hv ▸ h.size, h.full.ofEq hp hv, h.typed.ofEq hp hv, fun l k => ?_, fun i hi l x hx => ?_,
    fun i hi => ?_⟩
  · rw [hvalue]
    exact h.param l k
  · rw [hvalue]
    exact h.known i hi l x hx
  · rw [hvalue]
    exact h.fresh i hi

theorem withMemory (h : K.Holds f ran m) (memory : Array Scalar) :
    K.Holds f ran { m with memory } := h.ofEq rfl rfl

theorem withPath (h : K.Holds f ran m) (path : List BlockId) : K.Holds f ran { m with path } :=
  h.ofEq rfl rfl

/-- A value that was run is as known. -/
theorem lane_eq (h : K.Holds f ran m) (hv : v.Within ran) (hx : K.Knows l v x) :
    (m.value W v).lane l = x := by
  cases v with
  | const c =>
    obtain rfl : x = c.val := hx
    exact Lanes.lane_splat c.val l.isLt
  | param k => exact (h.param l k).trans (Eq.symm hx)
  | inst i => exact h.known i hv l x hx

/-- The inputs of an operation agree with what is known. -/
theorem feeds (h : K.Holds f ran m) {args : List Value} (ht : ∀ v ∈ args, v.IsTyped)
    (hr : ∀ v ∈ args, v.Within ran) (l : Fin W) :
    K.Feeds f l args fun k => Lanes.lane ((args.map (m.value W))[k]?.getD []) l where
  hasTy k := h.typed.inputs ht W k l
  knows k v x hv hx := by
    rw [List.getElem?_map, hv]
    exact h.lane_eq (hr v (List.mem_of_getElem? hv)) hx

/-- One more instruction was run. -/
theorem setValue (h : K.Holds f ran m) (hi : i < f.insts.size) {xs : Lanes} (hlen : xs.length = W)
    (hty : ∀ l : Fin W, (xs.lane l).HasTy (f.inst i).ty)
    (hx : ∀ (l : Fin W) x, K.inst l i x → xs.lane l = x) :
    K.Holds f (fun j => ran j ∨ j = i) (m.setValue i xs) := by
  have hlt : i < m.values.size := h.size.symm ▸ hi
  have hother : ∀ v, v ≠ .inst i → (m.setValue i xs).value W v = m.value W v := fun v hv =>
    Machine.value_setValue_of_ne xs hv
  refine ⟨(Machine.size_setValue m i xs).trans h.size, h.full.setValue i hlen, h.typed.setValue fun l => ?_,
    fun l k => ?_, fun j hj l x hjx => ?_, fun j hj => ?_⟩
  · by_cases hl : l < W
    · exact hty ⟨l, hl⟩
    · rw [Lanes.lane, List.getElem?_eq_none (by omega)]
      exact Scalar.hasTy_undefined _
  · exact h.param l k
  · by_cases hji : j = i
    · subst hji
      rw [Machine.value_setValue_self xs hlt]
      exact hx l x hjx
    · rw [hother _ fun e => hji (Value.inst.inj e)]
      exact h.known j (hj.resolve_right hji) l x hjx
  · rw [hother _ fun e => hj (.inr (Value.inst.inj e))]
    exact h.fresh j fun k => hj (.inl k)

/-- The phis of a block were run. -/
theorem setPhis (h : K.Holds f ran m) {new : List (InstId × Lanes)}
    (hnew : ∀ e ∈ new, e.1 < f.insts.size ∧ e.2.length = W ∧
      (∀ l : Fin W, (e.2.lane l).HasTy (f.inst e.1).ty) ∧
      ∀ (l : Fin W) x, K.inst l e.1 x → e.2.lane l = x) :
    K.Holds f (fun j => ran j ∨ j ∈ new.map Prod.fst) (m.setPhis new) := by
  induction new generalizing m ran with
  | nil => exact h.congr fun j => by simp
  | cons e new ih =>
    obtain ⟨h1, h2, h3, h4⟩ := hnew e List.mem_cons_self
    refine (ih (h.setValue h1 h2 h3 h4) fun e' he => hnew e' (List.mem_cons_of_mem _ he)).congr fun j => ?_
    rw [List.map_cons, List.mem_cons, or_assoc]

end Holds

end Knowledge

end Lockstep
