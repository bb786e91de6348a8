import Lockstep.Proofs.Eval.Memory
import Lockstep.Proofs.Eval.SingleLane
import Lockstep.Proofs.Eval.Trail

/-!
# Runs without cycles

In a function without cycles a run computes every value at most once. So the machine at the end still
holds all that was computed: an operation has read what its operands hold in the end
(`Ended.exists_moment`), a phi holds what the entry of the edge taken holds (`Ended.value_phi`), and the
memory is what the stores on the way make of that at the beginning (`Ended.memory_eq`).
-/

namespace Lockstep

namespace Func

/-- Loads and stores are the only effects, and nothing is masked. -/
structure Plain (f : Func) : Prop where
  noMask : ∀ b, ∀ i ∈ f.body b, (f.inst i).mask = none
  noCall : ∀ b, ∀ i ∈ f.body b, ∀ callee args, (f.inst i).op ≠ .apply (.call callee) args

theorem plain_of_insts {f : Func} (h : ∀ i, (f.inst i).mask = none ∧ (f.inst i).callee? = none) :
    f.Plain where
  noMask _ i _ := (h i).1
  noCall b i _ callee args hop := by
    have hnone := (h i).2
    unfold Instr.callee? at hnone
    rw [hop] at hnone
    cases hnone

/-- Effects are loads and stores. -/
theorem Plain.cases {f : Func} {b : BlockId} {i : InstId} (h : f.Plain) (ht : f.WellTyped)
    (hi : i ∈ f.body b) (heff : (f.inst i).op.hasSideEffects = true) :
    (∃ p, (f.inst i).op = .apply .load [p]) ∨ ∃ p v, (f.inst i).op = .apply .store [p, v] := by
  cases hop : (f.inst i).op with
  | phi incoming =>
    rw [hop] at heff
    cases heff
  | apply code args =>
    have hty := (ht.inst b i hi).apply code args hop
    rw [hop] at heff
    cases code with
    | load =>
      rcases args with - | ⟨p, - | ⟨q, args⟩⟩
      · cases hty
      · exact .inl ⟨p, rfl⟩
      · cases hty
    | store =>
      rcases args with - | ⟨p, - | ⟨v, - | ⟨q, args⟩⟩⟩
      · cases hty
      · cases hty
      · exact .inr ⟨p, v, rfl⟩
      · cases hty
    | call callee => exact absurd hop (h.noCall b i hi callee args)
    | _ => cases heff

end Func

namespace Run

/-- What an instruction makes of the memory, for a lane that has the scalars `xs` as operands. -/
def commit (f : Func) (i : InstId) (xs : List Scalar) (memory : Array Scalar) : Array Scalar :=
  match (f.inst i).op, xs with
  | .apply .store _, [address, x] => storeLane true address x memory
  | _, _ => memory

/-- What the instructions of a list make of the memory. -/
def replay (f : Func) (xs : InstId → List Scalar) (is : List InstId) (memory : Array Scalar) :
    Array Scalar :=
  is.foldl (fun M i => commit f i (xs i) M) memory

/-- The scalars that the operands of an instruction hold in a single lane. -/
def operands (f : Func) (n : Machine) (i : InstId) : List Scalar :=
  (f.inst i).inputs.map fun v => (n.value 1 v).lane 0

variable {s : Setup} {f : Func} {start n m m' : Machine} {ret : Option Lanes} {pred : Option BlockId}
  {b c p : BlockId} {i : InstId} {v : Value} {tr pre post : List BlockId}

theorem size_commit (i : InstId) (xs : List Scalar) (memory : Array Scalar) :
    (commit f i xs memory).size = memory.size := by
  unfold commit
  split
  · exact size_storeLane ..
  · rfl

theorem replay_append (xs : InstId → List Scalar) (is js : List InstId) (memory : Array Scalar) :
    replay f xs (is ++ js) memory = replay f xs js (replay f xs is memory) := List.foldl_append

theorem size_replay (xs : InstId → List Scalar) (is : List InstId) (memory : Array Scalar) :
    (replay f xs is memory).size = memory.size := by
  induction is generalizing memory with
  | nil => rfl
  | cons i is ih => exact (ih _).trans (size_commit ..)

/-- Only effects change the memory. -/
theorem commit_of_pure (h : (f.inst i).op.hasSideEffects = false) (xs : List Scalar)
    (memory : Array Scalar) : commit f i xs memory = memory := by
  unfold commit
  split
  · rename_i hop
    rw [hop] at h
    cases h
  · rfl

theorem replay_filter (xs : InstId → List Scalar) (is : List InstId) (memory : Array Scalar) :
    replay f xs (is.filter fun i => (f.inst i).op.hasSideEffects) memory = replay f xs is memory := by
  induction is generalizing memory with
  | nil => rfl
  | cons i is ih =>
    rw [List.filter_cons]
    split
    · exact ih _
    · rename_i h
      refine (ih memory).trans ?_
      show _ = replay f xs is (commit f i (xs i) memory)
      rw [commit_of_pure (Bool.eq_false_iff.mpr h)]

theorem mem_nonPhis_of_apply {code : Opcode} {args : List Value} (hi : i ∈ f.body b)
    (hop : (f.inst i).op = .apply code args) : i ∈ f.nonPhis b := by
  rw [← f.phis_append_nonPhis] at hi
  refine (List.mem_append.mp hi).resolve_left fun hphi => ?_
  have := Func.isPhi_of_mem_phis hphi
  unfold Func.isPhi Instr.isPhi at this
  rw [hop] at this
  cases this

/-! ## The end of a run -/

/-- A run in a single lane through a function without cycles, from its entry to its end `n`. -/
structure Ended (s : Setup) (f : Func) (start n : Machine) (ret : Option Lanes) (tr : List BlockId) :
    Prop extends SingleLane s f start where
  wellFormed : f.WellFormed
  wellTyped : f.WellTyped
  acyclic : f.Acyclic
  plain : f.Plain
  trail : Trail s f ret n none f.entry start tr

namespace Ended

variable (h : Ended s f start n ret tr)

include h

theorem head : tr.head? = some f.entry := by
  obtain ⟨tr', rfl⟩ := h.trail.exists_cons
  rfl

theorem course : f.Course tr where
  start := h.head
  chain := h.trail.isChain
  ends := by
    obtain ⟨c, v, hc, hv, -⟩ := h.trail.exists_last
    exact ⟨c, v, hc, hv⟩

theorem reachable (hb : b ∈ tr) : f.Reachable b := h.course.reachable hb

/-- What is available in a block is computed by no later one. -/
theorem settled {before : List InstId} (e : tr = pre ++ b :: post)
    (hv : f.AvailableAt b before v) (hbefore : ∀ j ∈ before, j ∈ f.body b) :
    ∀ c ∈ post, ∀ k ∈ f.body c, v ≠ .inst k := by
  rintro c hc k hk rfl
  have hpair := h.course.pairwise
  rw [e] at hpair
  have hlead : f.Leads b c := (List.pairwise_cons.mp (List.pairwise_append.mp hpair).2.1).1 c hc
  have hreach : f.Reachable b := h.reachable (by rw [e]; simp)
  have hcb : f.Dominates c b := by
    rcases hv with hj | ⟨d, -, hj, hd⟩
    · rw [h.wellFormed.toCoherent.eq_of_mem_body hk (hbefore k hj)]
      exact .refl f b
    · rw [h.wellFormed.toCoherent.eq_of_mem_body hk hj]
      exact hd
  exact h.acyclic.not_leads_of_dominates hreach hcb hlead

/-- A visit of a block on the way. -/
theorem exists_visit (e : tr = pre ++ b :: post) : ∃ m r m', Visit s f n pre.getLast? b m r m' post ∧
    Arrives s f start pre.getLast? b m := by
  obtain ⟨p, m, r, m', hvisit, harr, hp⟩ := h.trail.exists_visit []
    (J := fun pre p b m => Arrives s f start p b m ∧ p = pre.getLast?) ⟨.entry, rfl⟩
    (fun pre p b post m c m' _ hv hJ => ⟨hJ.1.next hv.block, by simp⟩) e
  rw [List.nil_append] at hp
  subst hp
  exact ⟨m, r, m', hvisit, harr⟩

end Ended

/-! ## Moments -/

/-- An instruction is run with values that are still there at the end. -/
structure Moment (s : Setup) (f : Func) (start n : Machine) (i : InstId) (m m' : Machine) : Prop where
  executes : Executes s f start i m
  size : m.values.size = start.values.size
  instr : instr s f i m = (.ok (), m')
  uses : ∀ v ∈ (f.inst i).uses, ∀ width, n.value width v = m.value width v
  result : ∀ width, n.value width (.inst i) = m'.value width (.inst i)

theorem Moment.operands_eq {i : InstId} (h : Moment s f start n i m m') :
    operands f n i = operands f m i :=
  List.map_congr_left fun v hv => by rw [h.uses v (List.mem_append_left _ hv)]

namespace Ended

variable (h : Ended s f start n ret tr)

include h

theorem moment {r : BlockId ⊕ Option Lanes} {mb mi mi' : Machine} {before after : List InstId}
    (e : tr = pre ++ b :: post) (hv : Visit s f n pred b m r m' post)
    (ha : Arrives s f start pred b m) (eb : f.nonPhis b = before ++ i :: after)
    (h1 : phis s f pred b { m with path := b :: m.path } = (.ok (), mb))
    (h2 : before.forM (Run.instr s f) mb = (.ok (), mi)) (h3 : Run.instr s f i mi = (.ok (), mi')) :
    Moment s f start n i mi mi' := by
  obtain ⟨mb', mi1, mi2, h1', h2', h3', hsettled⟩ := hv.exists_moment eb
  cases h1'.symm.trans h1
  cases h2'.symm.trans h2
  cases h3'.symm.trans h3
  have hi : i ∈ f.nonPhis b := by rw [eb]; simp
  have hbody : f.body b = (f.phis b ++ before) ++ i :: after := by
    rw [← f.phis_append_nonPhis, eb, List.append_assoc]
  obtain ⟨hpre, hpost⟩ := notMem_of_nodup_middle (hbody ▸ h.wellFormed.nodup b)
  have hreach : f.Reachable b := h.reachable (by rw [e]; simp)
  have hown : ∀ j ∈ i :: after, ∀ c ∈ post, j ∉ f.body c := by
    intro j hj c hc hjc
    have hjb : j ∈ f.body b := by rw [hbody]; exact List.mem_append_right _ hj
    obtain rfl := h.wellFormed.toCoherent.eq_of_mem_body hjc hjb
    have hn := h.course.nodup h.acyclic
    rw [e] at hn
    exact (notMem_of_nodup_middle hn).2 hc
  have hsize : mi.values.size = start.values.size := by
    rw [size_instrs h2, size_phis h1, ← ha.size]
  refine ⟨⟨pred, b, m, mb, before, after, ha, h1, eb, h2⟩, hsize, h3, fun v hv width => ?_,
    fun width => ?_⟩
  · have havail := h.wellFormed.inst b hreach _ i after hbody (h.wellFormed.phis_first b i hi) v hv
    have hlater : ∀ k ∈ i :: after, v ≠ .inst k := by
      rintro k hk rfl
      rcases havail with hj | ⟨d, hne, hj, -⟩
      · have hn := h.wellFormed.nodup b
        rw [hbody] at hn
        exact (List.nodup_append.mp hn).2.2 k hj k hk rfl
      · exact hne (h.wellFormed.toCoherent.eq_of_mem_body hj (hbody ▸ List.mem_append_right _ hk))
    exact (hsettled v (h.settled e havail fun j hj => hbody ▸ List.mem_append_left _ hj)
      (fun k hk => hlater k (List.mem_cons_of_mem _ hk)) width).2 (hlater i List.mem_cons_self)
  · refine (hsettled (.inst i) (fun c hc k hk e => ?_) (fun k hk e => ?_) width).1
    · cases e
      exact hown i List.mem_cons_self c hc hk
    · cases e
      exact hpost hk

/-- Each operation of a block on the way is run with values that are still there at the end. -/
theorem exists_moment {before after : List InstId} (e : tr = pre ++ b :: post)
    (eb : f.nonPhis b = before ++ i :: after) : ∃ m m', Moment s f start n i m m' := by
  obtain ⟨m, r, m', hv, ha⟩ := h.exists_visit e
  obtain ⟨mb, mi, mi', h1, h2, h3, -⟩ := hv.exists_moment eb
  exact ⟨mi, mi', h.moment e hv ha eb h1 h2 h3⟩

/-- What is available at the end of a block is computed by no later one. -/
theorem settled_end (e : tr = pre ++ b :: post) (hv : f.AvailableAt b (f.body b) v) :
    ∀ c ∈ post, ∀ k ∈ f.body c, v ≠ .inst k :=
  h.settled e hv fun _ hj => hj

/-- A phi holds what the entry of the edge taken holds. -/
theorem value_phi {phi : InstId} (hp : [p, b] <:+: tr) (hphi : phi ∈ f.phis b)
    (hv : (p, v) ∈ (f.inst phi).incoming) : n.value 1 (.inst phi) = n.value 1 v := by
  obtain ⟨pre, post, e⟩ := hp
  have e1 : tr = (pre ++ [p]) ++ b :: post := by rw [← e]; simp
  have e2 : tr = pre ++ p :: b :: post := by rw [← e]; simp
  have hreach : f.Reachable b := h.reachable (by rw [e1]; simp)
  obtain ⟨m, r, m', hvisit, harr⟩ := h.exists_visit e1
  have hlast : (pre ++ [p]).getLast? = some p := by simp
  rw [hlast] at hvisit
  obtain ⟨mb, h1, h2, -⟩ := block_eq_ok_iff.mp hvisit.block
  have hphib : phi ∈ f.body b := Func.mem_body_of_mem_phis hphi
  have hn := h.wellFormed.nodup b
  rw [← f.phis_append_nonPhis] at hn
  have hsize : phi < m.values.size := by
    rw [harr.size, h.toSingleLane.size]
    exact h.wellFormed.toCoherent.body_lt b phi hphib
  obtain ⟨w, hw, hvalue⟩ := exists_value_of_phis h1 (List.nodup_append.mp hn).1 hphi hsize
  have hwv : f.incomingValue? phi p = some w := hw
  rw [Func.incomingValue?_of_mem (h.wellFormed.entries b hreach phi hphi).nodup hv] at hwv
  obtain rfl := Option.some.inj hwv
  rw [h.width] at hvalue
  have hkept := h.settled_end e2
    (h.wellFormed.phi b hreach phi hphi _ hv (h.reachable (by rw [e2]; simp)))
  have hm : m'.value 1 v = m.value 1 v :=
    value_block_of_ne hvisit.block (hkept b List.mem_cons_self) 1
  have hphi' : m'.value 1 (.inst phi) = mb.value 1 (.inst phi) := by
    refine value_instrs_of_ne h2 (fun k hk e => ?_) 1
    cases e
    exact (List.nodup_append.mp hn).2.2 phi hphi phi hk rfl
  rw [hvisit.settled v (fun c hc => hkept c (List.mem_cons_of_mem _ hc)) 1, hm,
    hvisit.settled (.inst phi) (fun c hc k hk e => ?_) 1, hphi', hvalue, Machine.value_visit]
  cases e
  obtain rfl := h.wellFormed.toCoherent.eq_of_mem_body hk hphib
  have hnodup := h.course.nodup h.acyclic
  rw [e1] at hnodup
  exact (notMem_of_nodup_middle hnodup).2 hc

/-- All machines on the way have the right types and all their lanes. -/
theorem typed_before {mb mi : Machine} {before after : List InstId}
    (ha : Arrives s f start pred b m) (eb : f.nonPhis b = before ++ after)
    (h1 : phis s f pred b { m with path := b :: m.path } = (.ok (), mb))
    (h2 : before.forM (Run.instr s f) mb = (.ok (), mi)) : mi.Typed f ∧ mi.Full 1 := by
  obtain ⟨htyped, hfull, -⟩ := h.toSingleLane.arrives h.wellTyped ha
  refine ⟨Run.typed_before h.wellTyped h.outside ha htyped h1 eb h2, ?_⟩
  have hfull : ({ m with path := b :: m.path } : Machine).Full s.width := h.width ▸ hfull.ofEq rfl rfl
  exact h.width ▸ full_instrs (full_phis hfull h1) h2

/-- The condition of a branch decides which way a run takes. -/
theorem value_cond {x y : BlockId} (hc : [b, c] <:+: tr) (ht : f.term b = .brIf v x y) :
    ∃ q, (n.value 1 v).lane 0 = .bool q ∧ c = if q then x else y := by
  obtain ⟨pre, post, e⟩ := hc
  have e1 : tr = pre ++ b :: (c :: post) := by rw [← e]; simp
  obtain ⟨m, r, m', hvisit, harr⟩ := h.exists_visit e1
  obtain ⟨mb, h1, h2, hway⟩ := block_eq_ok_iff.mp hvisit.block
  rw [hvisit.next c post rfl, ht, h.width] at hway
  unfold wayOut at hway
  dsimp only at hway
  split at hway
  · cases hway
  · cases hway
  · rename_i q hq
    have hfull := (h.typed_before harr (List.append_nil _).symm h1 h2).2
    have hreach : f.Reachable b := h.reachable (by rw [e1]; simp)
    have hkept := h.settled_end e1 (h.wellFormed.exit b hreach v (by
      rw [ht]
      exact List.mem_singleton_self v))
    refine ⟨q, ?_, (Sum.inl.inj (Except.ok.inj hway)).symm⟩
    rw [hvisit.settled v hkept 1, eq_of_agree (hfull.value v) hq]
    rfl

/-! ## Memory -/

/-- An operation makes of the memory what its opcode and its operands say. -/
theorem memory_instr {m m' : Machine} (hi : i ∈ f.body b) (e : Run.instr s f i m = (.ok (), m')) :
    m'.memory = commit f i (operands f m i) m.memory := by
  by_cases heff : (f.inst i).op.hasSideEffects = true
  · rcases h.plain.cases h.wellTyped hi heff with ⟨p, hop⟩ | ⟨p, v, hop⟩
    · obtain ⟨-, xs, -, -, rfl⟩ := (instr_load_eq_ok_iff (h.width ▸ Nat.one_pos) hop).mp e
      unfold commit
      rw [hop]
      rfl
    · obtain ⟨-, rfl⟩ := (instr_store_eq_ok_iff hop).mp e
      unfold commit operands Instr.inputs
      rw [hop, h.width, h.plain.noMask b i hi]
      rfl
  · obtain ⟨code, args, xs, m1, hop, hx, -, rfl⟩ := instr_eq_ok e
    rw [commit_of_pure (Bool.eq_false_iff.mpr heff)]
    have hq : code.isQuiet = true := by
      rw [hop] at heff
      cases code with
      | store | call _ => exact absurd rfl heff
      | _ => rfl
    rw [operation_eq_ok hq hx]
    rfl

/-- The memory with which an operation is run. -/
theorem memory_before {r : BlockId ⊕ Option Lanes} {mb mi : Machine} {before after : List InstId}
    (e : tr = pre ++ b :: post) (hv : Visit s f n pred b m r m' post)
    (ha : Arrives s f start pred b m) (eb : f.nonPhis b = before ++ after)
    (h1 : phis s f pred b { m with path := b :: m.path } = (.ok (), mb))
    (h2 : before.forM (Run.instr s f) mb = (.ok (), mi)) :
    mi.memory = replay f (operands f n) (f.phis b ++ before) m.memory := by
  induction before using List.reverseRecOn generalizing after mi with
  | nil =>
    cases h2
    obtain ⟨new, -, rfl⟩ := phis_eq_ok_iff.mp h1
    have hphis : (f.phis b).filter (fun i => (f.inst i).op.hasSideEffects) = [] := by
      refine List.filter_eq_nil_iff.mpr fun i hi => ?_
      have := Func.isPhi_of_mem_phis hi
      unfold Func.isPhi Instr.isPhi at this
      cases hop : (f.inst i).op with
      | phi _ => exact Bool.false_ne_true
      | apply _ _ =>
        rw [hop] at this
        cases this
    rw [List.append_nil, ← replay_filter, hphis]
    exact (Machine.effects_setPhis new).1
  | append_singleton before i ih =>
    rw [List.append_assoc] at eb
    obtain ⟨m2, h2, h3⟩ := forM_append_eq_ok.mp h2
    obtain ⟨⟨⟩, m3, h3, h4⟩ := exists_of_bind_run_eq_ok h3
    cases h4
    have hi : i ∈ f.body b := Func.mem_body_of_mem_nonPhis (by rw [eb]; simp)
    rw [h.memory_instr hi h3, ih eb h2, ← (h.moment e hv ha eb h1 h2 h3).operands_eq,
      ← List.append_assoc]
    exact (replay_append _ _ [i] _).symm

theorem visit_memory (e : tr = pre ++ b :: post) {r : BlockId ⊕ Option Lanes}
    (hv : Visit s f n pred b m r m' post) (ha : Arrives s f start pred b m) :
    m'.memory = replay f (operands f n) (f.body b) m.memory := by
  obtain ⟨mb, h1, h2, -⟩ := block_eq_ok_iff.mp hv.block
  rw [h.memory_before e hv ha (List.append_nil _).symm h1 h2, f.phis_append_nonPhis]

/-- A visit with the memory that the blocks before have made. -/
theorem exists_visit_memory (e : tr = pre ++ b :: post) : ∃ pred m r m',
    Visit s f n pred b m r m' post ∧ Arrives s f start pred b m ∧
      m.memory = replay f (operands f n) (pre.flatMap f.body) start.memory := by
  obtain ⟨p, m, r, m', hvisit, harr, hmemory⟩ := h.trail.exists_visit []
    (J := fun pre p b m => Arrives s f start p b m ∧
      m.memory = replay f (operands f n) (pre.flatMap f.body) start.memory) ⟨.entry, rfl⟩
    (fun pre p b post m c m' e hv hJ => ⟨hJ.1.next hv.block, by
      rw [h.visit_memory e hv hJ.1, hJ.2, ← replay_append, List.flatMap_append]
      simp⟩) e
  exact ⟨p, m, r, m', hvisit, harr, hmemory⟩

/-- Each operation on the way is run with the memory that those before it have made. -/
theorem exists_moment_memory {before after : List InstId} (e : tr = pre ++ b :: post)
    (eb : f.nonPhis b = before ++ i :: after) : ∃ m m', Moment s f start n i m m' ∧
      m.memory = replay f (operands f n) (pre.flatMap f.body ++ (f.phis b ++ before)) start.memory := by
  obtain ⟨pred, m, r, m', hv, ha, hmemory⟩ := h.exists_visit_memory e
  obtain ⟨mb, mi, mi', h1, h2, h3, -⟩ := hv.exists_moment eb
  refine ⟨mi, mi', h.moment e hv ha eb h1 h2 h3, ?_⟩
  rw [h.memory_before e hv ha eb h1 h2, hmemory, ← replay_append]

/-- The last block ends the run. -/
theorem exists_last_visit : ∃ pre b, tr = pre ++ [b] ∧ ∃ pred m r, Visit s f n pred b m r n [] ∧
    Arrives s f start pred b m ∧
      m.memory = replay f (operands f n) (pre.flatMap f.body) start.memory := by
  obtain ⟨b, v, hb, -⟩ := h.course.ends
  obtain ⟨pre, rfl⟩ := List.getLast?_eq_some_iff.mp hb
  obtain ⟨pred, m, r, m', hv, ha, hmemory⟩ :=
    h.exists_visit_memory (show pre ++ [b] = pre ++ b :: [] from rfl)
  obtain rfl := hv.last rfl
  exact ⟨pre, b, rfl, pred, m, r, hv, ha, hmemory⟩

/-- The memory at the end is what the effects on the way have made of that at the beginning. -/
theorem memory_eq : n.memory = replay f (operands f n) (tr.flatMap f.body) start.memory := by
  obtain ⟨pre, b, rfl, pred, m, r, hv, ha, hmemory⟩ := h.exists_last_visit
  rw [h.visit_memory rfl hv ha, hmemory, ← replay_append, List.flatMap_append]
  simp

/-- So are the values at the end. -/
theorem typed_end : n.Typed f ∧ n.Full 1 := by
  obtain ⟨pre, b, rfl, pred, m, r, hv, ha, -⟩ := h.exists_last_visit
  obtain ⟨mb, h1, h2, -⟩ := block_eq_ok_iff.mp hv.block
  exact h.typed_before ha (List.append_nil _).symm h1 h2

end Ended

end Run

end Lockstep
