import Lockstep.Proofs.Cfg.Acyclic
import Lockstep.Proofs.Eval.Along

/-!
# The trail of a run

A run that ends well comes by a list of blocks, its trail. What holds where it starts and is kept by every
block of the trail holds wherever the run comes by (`Trail.exists_visit`), and a value keeps what the last
block that computes it has made of it (`Visit.settled`).
-/

namespace Lockstep

namespace Run

variable {s : Setup} {f : Func} {n m m' : Machine} {ret : Option Lanes} {pred : Option BlockId}
  {b c : BlockId} {i : InstId} {tr pre post : List BlockId} {steps : Nat}

/-- The blocks that a run comes by until control leaves the function. -/
inductive Trail (s : Setup) (f : Func) (ret : Option Lanes) (n : Machine) :
    Option BlockId → BlockId → Machine → List BlockId → Prop
  | last {pred : Option BlockId} {b : BlockId} {m : Machine}
      (e : block s f pred b m = (.ok (.inr ret), n)) : Trail s f ret n pred b m [b]
  | next {pred : Option BlockId} {b c : BlockId} {m m' : Machine} {tr : List BlockId}
      (e : block s f pred b m = (.ok (.inl c), m')) (h : Trail s f ret n (some b) c m' tr) :
      Trail s f ret n pred b m (b :: tr)

theorem exists_trail (e : blocks s f steps pred b m = (.ok ret, n)) :
    ∃ tr, Trail s f ret n pred b m tr ∧ n.trace = m.trace ++ tr := by
  induction steps generalizing pred b m with
  | zero => cases e
  | succ steps ih =>
    obtain ⟨r, m', e1, e2⟩ := exists_of_bind_run_eq_ok e
    cases r with
    | inr ret' =>
      cases e2
      exact ⟨[b], .last e1, trace_block e1⟩
    | inl c =>
      obtain ⟨tr, h, htrace⟩ := ih e2
      exact ⟨b :: tr, .next e1 h, by rw [htrace, trace_block e1, List.append_assoc]; rfl⟩

namespace Trail

theorem exists_cons (h : Trail s f ret n pred b m tr) : ∃ tr', tr = b :: tr' := by
  cases h with
  | last e => exact ⟨[], rfl⟩
  | next e h => exact ⟨_, rfl⟩

theorem isChain (h : Trail s f ret n pred b m tr) : tr.IsChain f.Edge := by
  induction h with
  | last e => exact .singleton _
  | next e h ih =>
    obtain ⟨tr', rfl⟩ := h.exists_cons
    exact .cons_cons (target_of_block e) ih

/-- A trail ends where control leaves the function, with what is returned there. -/
theorem exists_last (h : Trail s f ret n pred b m tr) :
    ∃ c v, tr.getLast? = some c ∧ f.term c = .ret v ∧ ret = v.map (n.value s.width) := by
  induction h with
  | last e =>
    obtain ⟨-, -, m1, hw⟩ := block_eq_ok_iff.mp e
    obtain ⟨v, hv, hret⟩ := ret_of_wayOut hw
    exact ⟨_, v, rfl, hv, hret⟩
  | next e h ih =>
    obtain ⟨tr', rfl⟩ := h.exists_cons
    obtain ⟨c, v, hc, hv⟩ := ih
    exact ⟨c, v, by rw [List.getLast?_cons_cons]; exact hc, hv⟩

/-- A value that no block of a trail computes stays as it is. -/
theorem value (h : Trail s f ret n pred b m tr) {v : Value}
    (hv : ∀ c ∈ tr, ∀ i ∈ f.body c, v ≠ .inst i) (width : Nat) :
    n.value width v = m.value width v := by
  induction h with
  | last e => exact value_block_of_ne e (hv _ List.mem_cons_self) width
  | next e h ih =>
    exact (ih fun c hc => hv c (List.mem_cons_of_mem _ hc)).trans
      (value_block_of_ne e (hv _ List.mem_cons_self) width)

end Trail

/-- A block that a run comes by on its way to `n`, with the blocks after it. -/
structure Visit (s : Setup) (f : Func) (n : Machine) (pred : Option BlockId) (b : BlockId) (m : Machine)
    (r : BlockId ⊕ Option Lanes) (m' : Machine) (post : List BlockId) : Prop where
  block : block s f pred b m = (.ok r, m')
  next : ∀ c rest, post = c :: rest → r = .inl c
  settled : ∀ v, (∀ c ∈ post, ∀ i ∈ f.body c, v ≠ .inst i) → ∀ width, n.value width v = m'.value width v
  last : post = [] → m' = n

/-- What holds where a trail starts and is kept by every block of it holds wherever it comes by. -/
theorem Trail.exists_visit (done : List BlockId)
    {J : List BlockId → Option BlockId → BlockId → Machine → Prop} (h : Trail s f ret n pred b m tr)
    (hJ : J done pred b m)
    (step : ∀ pre pred b post m c m', done ++ tr = pre ++ b :: post →
      Visit s f n pred b m (.inl c) m' post → J pre pred b m → J (pre ++ [b]) (some b) c m')
    (e : tr = pre ++ c :: post) : ∃ p mc r mc', Visit s f n p c mc r mc' post ∧ J (done ++ pre) p c mc := by
  induction h generalizing done pre with
  | @last pred b m eb =>
    have hnil : pre = [] ∧ b = c ∧ post = [] := by
      cases pre with
      | nil =>
        cases e
        exact ⟨rfl, rfl, rfl⟩
      | cons x pre => simp at e
    obtain ⟨rfl, rfl, rfl⟩ := hnil
    refine ⟨pred, m, _, n, ⟨eb, nofun, fun _ _ _ => rfl, fun _ => rfl⟩, ?_⟩
    rw [List.append_nil]
    exact hJ
  | @next pred b d m m' tr eb h ih =>
    have hvisit : Visit s f n pred b m (.inl d) m' tr := by
      refine ⟨eb, fun c rest hc => ?_, fun v hv width => h.value hv width, fun hnil => ?_⟩
      · obtain ⟨tr', rfl⟩ := h.exists_cons
        cases hc
        rfl
      · obtain ⟨tr', rfl⟩ := h.exists_cons
        cases hnil
    cases pre with
    | nil =>
      cases e
      refine ⟨pred, m, _, m', hvisit, ?_⟩
      rw [List.append_nil]
      exact hJ
    | cons x pre =>
      cases e
      have hJ' := step done pred b _ m d m' rfl hvisit hJ
      obtain ⟨p, mc, r, mc', h1, h2⟩ := ih (done ++ [b]) hJ' (fun pre' => by
        rw [List.append_assoc]
        exact step pre') rfl
      exact ⟨p, mc, r, mc', h1, by simpa using h2⟩

/-- The moment at which a visit executes an instruction. -/
theorem Visit.exists_moment {r : BlockId ⊕ Option Lanes} {before after : List InstId}
    (h : Visit s f n pred b m r m' post) (e : f.nonPhis b = before ++ i :: after) :
    ∃ mb mi mi', phis s f pred b { m with path := b :: m.path } = (.ok (), mb) ∧
      before.forM (instr s f) mb = (.ok (), mi) ∧ instr s f i mi = (.ok (), mi') ∧
      ∀ v, (∀ c ∈ post, ∀ k ∈ f.body c, v ≠ .inst k) → (∀ k ∈ after, v ≠ .inst k) → ∀ width,
        n.value width v = mi'.value width v ∧ (v ≠ .inst i → n.value width v = mi.value width v) := by
  obtain ⟨mb, h1, h2, -⟩ := block_eq_ok_iff.mp h.block
  rw [e] at h2
  obtain ⟨mi, h3, h4⟩ := forM_append_eq_ok.mp h2
  obtain ⟨⟨⟩, mi', h5, h6⟩ := exists_of_bind_run_eq_ok h4
  refine ⟨mb, mi, mi', h1, h3, h5, fun v hpost hafter width => ?_⟩
  have hv := (h.settled v hpost width).trans (value_instrs_of_ne h6 hafter width)
  exact ⟨hv, fun hne => hv.trans (value_instr_of_ne h5 hne width)⟩

end Run

end Lockstep
