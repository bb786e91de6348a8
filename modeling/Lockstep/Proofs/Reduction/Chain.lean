import Lockstep.Proofs.Cfg.LoopEntry
import Lockstep.Proofs.Func.WellFormed
import Lockstep.Reduction.Find

/-!
# The chain of a reduction

The search for a chain goes from an element to its users until there is no element left to look at
(`follow_eq_some`), which the fuel allows for: it looks at every instruction at most once. What is
found is closed then. In the loop nothing but elements uses an element, no branch does, and every
element but the root takes the chain up in one way: a phi from elements alone, an update from one
element and something else (`isChain_of_mem_findAll`).
-/

namespace Lockstep

namespace ReductionKind

theorem eq_binOp_of_ofBinOp? {op : BinOp} {k : ReductionKind} (h : ofBinOp? op = some k) :
    op = k.binOp := by
  cases op <;> cases h <;> rfl

end ReductionKind

namespace Reduction

/-- A reduction as a part of a function: its elements stand in the loop, pass the accumulator on or
update it, and nothing else in the loop uses them. Outside the loop only the root and the value of the
latch are used. -/
structure IsChain (r : Reduction) (f : Func) (l : Loop) : Prop where
  phi_mem : r.phi ∈ f.phis l.header
  phi_element : r.phi ∈ r.elements
  mem : ∀ i ∈ r.elements, ∃ b ∈ l.blocks, i ∈ f.body b
  phi : ∀ i ∈ r.elements, i ≠ r.phi → f.isPhi i = true → i ∉ f.body l.header ∧
    ∀ v ∈ (f.inst i).inputs, ∃ e ∈ r.elements, v = .inst e
  update : ∀ i ∈ r.elements, f.isPhi i = false → (f.inst i).mask = none ∧
    ∃ args, (f.inst i).op = .apply (.binary r.kind.binOp) args ∧
      (args.filter fun v => v.inst?.any r.elements.contains).length = 1
  user : ∀ b ∈ l.blocks, ∀ i ∈ f.body b, ∀ e ∈ r.elements, .inst e ∈ (f.inst i).uses →
    i ∈ r.elements
  exit : ∀ b ∈ l.blocks, ∀ e ∈ r.elements, .inst e ∉ (f.term b).uses
  observed : ∀ u ∈ f.users, f.userBlock u ∉ l.blocks → ∀ e ∈ r.elements, .inst e ∈ f.usedBy u →
    e = r.phi ∨ r.latchValue = .inst e
  latch : ∃ e ∈ r.elements, r.latchValue = .inst e
  latch_value : Search.latchValue? l (f.inst r.phi).incoming = some r.latchValue

namespace Search

variable {s : Search} {c c' : Chain} {i : InstId} {u : User} {k : ReductionKind}

/-! ## One user -/

/-- An instruction of the loop that passes the accumulator on, or updates it. -/
structure IsLink (f : Func) (l : Loop) (kind : Option ReductionKind) (i : InstId) : Prop where
  mem : (f.inst i).block ∈ l.blocks
  op : (∃ incoming, (f.inst i).op = .phi incoming ∧ (f.inst i).block ≠ l.header) ∨
    ∃ k args, kind = some k ∧ (f.inst i).op = .apply (.binary k.binOp) args ∧
      (f.inst i).mask = none

/-- Whether an element may be seen outside the loop. -/
def Observable (s : Search) (e : InstId) : Prop := e = s.phi ∨ .inst e = s.latchValue

/-- A user that may use an element once the chain has been found. -/
def Allowed (s : Search) (c : Chain) (e : InstId) : User → Prop
  | .terminator b => b ∉ s.loop.blocks ∧ s.Observable e
  | .inst i => if (s.func.inst i).block ∈ s.loop.blocks then i ∈ c.elements else s.Observable e

/-- An instruction has been added to a chain, whose kind may have been settled by it. -/
structure Added (s : Search) (c c' : Chain) (i : InstId) : Prop where
  new : i ∉ c.elements
  elements : c'.elements = c.elements ++ [i]
  queue : c'.queue = i :: c.queue
  kind : ∀ k, c.kind = some k → c'.kind = some k
  link : IsLink s.func s.loop c'.kind i

theorem addUser_eq_some (hi : (s.func.inst i).block ∈ s.loop.blocks)
    (h : s.addUser c i = some c') : i ∈ c.elements ∧ c' = c ∨ s.Added c c' i := by
  unfold addUser at h
  dsimp only at h
  split at h
  · rename_i hc
    cases h
    exact .inl ⟨List.contains_iff_mem.mp hc, rfl⟩
  · rename_i hc
    have hnew : i ∉ c.elements := fun hmem => hc (List.contains_iff_mem.mpr hmem)
    refine .inr ?_
    split at h
    · rename_i incoming hop
      split at h
      · cases h
      · rename_i hne
        cases h
        exact ⟨hnew, rfl, rfl, fun _ => id, hi, .inl ⟨incoming, hop, hne⟩⟩
    · rename_i op args hop
      split at h
      · cases h
      · rename_i hmask
        split at h
        · cases h
        · rename_i k hk
          split at h
          · rename_i hkind
            cases h
            obtain rfl := ReductionKind.eq_binOp_of_ofBinOp? hk
            refine ⟨hnew, rfl, rfl, fun k' hk' => ?_, hi, .inr ⟨k, args, rfl, hop, by simpa using hmask⟩⟩
            rw [hk'] at hkind
            exact congrArg some (by simpa using hkind : k' = k).symm
          · cases h
    · cases h

theorem allowed_inst_of_mem {e : InstId} (hi : (s.func.inst i).block ∈ s.loop.blocks) :
    s.Allowed c e (.inst i) ↔ i ∈ c.elements :=
  iff_of_eq (if_pos hi)

theorem allowed_inst_of_not_mem {e : InstId} (hi : (s.func.inst i).block ∉ s.loop.blocks) :
    s.Allowed c e (.inst i) ↔ s.Observable e :=
  iff_of_eq (if_neg hi)

theorem visitUser_eq_some {observable : Bool} {e : InstId} (ho : observable = true → s.Observable e)
    (h : s.visitUser observable c u = some c') :
    s.Allowed c' e u ∧ (c' = c ∨ ∃ i, u = .inst i ∧ s.Added c c' i) := by
  unfold visitUser at h
  split at h
  · split at h
    · cases h
    · rename_i b hb
      cases h
      refine ⟨?_, .inl rfl⟩
      simp only [Loop.contains, Bool.or_eq_true, List.contains_iff_mem, not_or, Bool.not_eq_true',
        Bool.not_eq_false] at hb
      exact ⟨hb.1, ho hb.2⟩
  · rename_i i
    split at h
    · rename_i hb
      rw [allowed_inst_of_mem (List.contains_iff_mem.mp hb)]
      rcases addUser_eq_some (List.contains_iff_mem.mp hb) h with ⟨hi, rfl⟩ | ha
      · exact ⟨hi, .inl rfl⟩
      · refine ⟨?_, .inr ⟨i, rfl, ha⟩⟩
        rw [ha.elements]
        simp
    · rename_i hb
      rw [allowed_inst_of_not_mem fun hmem => hb (List.contains_iff_mem.mpr hmem)]
      split at h
      · rename_i hobs
        cases h
        exact ⟨ho hobs, .inl rfl⟩
      · cases h

theorem Added.allowed {e : InstId} (h : s.Added c c' i) (hu : s.Allowed c e u) :
    s.Allowed c' e u := by
  cases u with
  | terminator b => exact hu
  | inst j =>
    by_cases hj : (s.func.inst j).block ∈ s.loop.blocks
    · rw [allowed_inst_of_mem hj] at hu ⊢
      rw [h.elements]
      exact List.mem_append_left _ hu
    · rwa [allowed_inst_of_not_mem hj] at hu ⊢

/-! ## The search -/

/-- A chain in which the users of all elements outside the queue have been looked at, but for the
users `rest` of the element `cur`; `n` elements have been taken from the queue. -/
structure Valid (s : Search) (cur : InstId) (rest : List User) (n : Nat) (c : Chain) : Prop where
  nodup : c.elements.Nodup
  nodup_queue : c.queue.Nodup
  queue : ∀ i ∈ c.queue, i ∈ c.elements
  length : c.elements.length = c.queue.length + n
  phi_mem : s.phi ∈ c.elements
  link : ∀ i ∈ c.elements, i = s.phi ∨ (.inst i ∈ s.func.users ∧ IsLink s.func s.loop c.kind i)
  looked : ∀ e ∈ c.elements, e ∉ c.queue → ∀ u ∈ s.uses.usersOf (.inst e),
    s.Allowed c e u ∨ e = cur ∧ u ∈ rest

variable {cur : InstId} {rest : List User} {n : Nat}

/-- A user has been looked at. -/
theorem Valid.step (hu : u ∈ s.func.users) {observable : Bool}
    (ho : observable = true → s.Observable cur) (hv : s.Valid cur (u :: rest) n c)
    (h : s.visitUser observable c u = some c') : s.Valid cur rest n c' := by
  obtain ⟨hallowed, rfl | ⟨i, rfl, ha⟩⟩ := visitUser_eq_some ho h
  · refine { hv with looked := fun e he hq w hw => ?_ }
    rcases hv.looked e he hq w hw with h | ⟨rfl, hmem⟩
    · exact .inl h
    · rcases List.mem_cons.mp hmem with rfl | hmem
      · exact .inl hallowed
      · exact .inr ⟨rfl, hmem⟩
  · have hmem : ∀ j, j ∈ c'.elements ↔ j ∈ c.elements ∨ j = i := by simp [ha.elements]
    refine ⟨?_, ?_, fun j hj => ?_, ?_, (hmem _).mpr (.inl hv.phi_mem), fun j hj => ?_,
      fun e he hq w hw => ?_⟩
    · rw [ha.elements]
      exact List.nodup_append.mpr ⟨hv.nodup, List.nodup_singleton i, by
        rintro a ha' b hb rfl
        exact ha.new (List.mem_singleton.mp hb ▸ ha')⟩
    · rw [ha.queue]
      exact List.nodup_cons.mpr ⟨fun hi => ha.new (hv.queue i hi), hv.nodup_queue⟩
    · rw [ha.queue] at hj
      rcases List.mem_cons.mp hj with rfl | hj
      · exact (hmem _).mpr (.inr rfl)
      · exact (hmem _).mpr (.inl (hv.queue j hj))
    · have := hv.length
      simp only [ha.elements, ha.queue, List.length_append, List.length_cons, List.length_nil]
      omega
    · rcases (hmem j).mp hj with hj | rfl
      · refine (hv.link j hj).imp id fun ⟨hatt, hlink⟩ => ⟨hatt, hlink.mem, hlink.op.imp id ?_⟩
        rintro ⟨k, args, hk, hop⟩
        exact ⟨k, args, ha.kind k hk, hop⟩
      · exact .inr ⟨hu, ha.link⟩
    · rw [ha.queue, List.mem_cons, not_or] at hq
      have he : e ∈ c.elements := ((hmem e).mp he).resolve_right hq.1
      rcases hv.looked e he hq.2 w hw with h | ⟨rfl, hw'⟩
      · exact .inl (ha.allowed h)
      · rcases List.mem_cons.mp hw' with rfl | hw'
        · exact .inl hallowed
        · exact .inr ⟨rfl, hw'⟩

/-- All users of an element have been looked at. -/
theorem Valid.steps {observable : Bool} (ho : observable = true → s.Observable cur)
    (hu : ∀ u ∈ rest, u ∈ s.func.users) (hv : s.Valid cur rest n c)
    (h : rest.foldlM (s.visitUser observable) c = some c') : s.Valid cur [] n c' := by
  induction rest generalizing c with
  | nil =>
    cases h
    exact hv
  | cons u rest ih =>
    rw [List.foldlM_cons] at h
    obtain ⟨c1, h1, h⟩ := Option.bind_eq_some_iff.mp h
    exact ih (fun u hu' => hu u (List.mem_cons_of_mem _ hu'))
      (hv.step (hu u List.mem_cons_self) ho h1) h

/-- The next element is taken from the queue. -/
theorem Valid.pop {queue : List InstId} (hv : s.Valid cur [] n c) (hq : c.queue = i :: queue) :
    s.Valid i (s.uses.usersOf (.inst i)) (n + 1) { c with queue } := by
  have hmem : ∀ j ∈ queue, j ∈ c.queue := fun j hj => hq ▸ List.mem_cons_of_mem _ hj
  refine ⟨hv.nodup, ?_, fun j hj => hv.queue j (hmem j hj), ?_, hv.phi_mem, hv.link,
    fun e he hnot u hu => ?_⟩
  · have := hv.nodup_queue
    rw [hq] at this
    exact (List.nodup_cons.mp this).2
  · have := hv.length
    rw [hq, List.length_cons] at this
    show c.elements.length = queue.length + (n + 1)
    omega
  · by_cases hei : e = i
    · exact .inr ⟨hei, hei ▸ hu⟩
    · have hnot : e ∉ c.queue := by
        rw [hq, List.mem_cons, not_or]
        exact ⟨hei, hnot⟩
      exact .inl ((hv.looked e he hnot u hu).resolve_right (by simp))

/-- A chain has no more elements than there are instructions. -/
theorem Valid.length_le (hlt : ∀ i, .inst i ∈ s.func.users → i < s.func.insts.size)
    (hphi : s.phi < s.func.insts.size) (hv : s.Valid cur rest n c) :
    c.elements.length ≤ s.func.insts.size := by
  have hsub : c.elements ⊆ List.range s.func.insts.size := by
    intro i hi
    rw [List.mem_range]
    rcases hv.link i hi with rfl | ⟨hatt, -⟩
    · exact hphi
    · exact hlt i hatt
  simpa using (hv.nodup.subperm hsub).length_le

/-- The fuel is not used up, since no element is looked at twice. -/
theorem follow_eq_some {fuel : Nat} (huses : s.uses = UseMap.compute s.func)
    (hlt : ∀ i, .inst i ∈ s.func.users → i < s.func.insts.size) (hphi : s.phi < s.func.insts.size)
    (hfuel : s.func.insts.size < fuel + n) (hv : s.Valid cur [] n c)
    (h : s.follow fuel c = some c') : ∃ cur n, s.Valid cur [] n c' ∧ c'.queue = [] := by
  induction fuel generalizing c cur n with
  | zero =>
    have hle := hv.length_le hlt hphi
    have hlen := hv.length
    omega
  | succ fuel ih =>
    unfold follow at h
    cases hq : c.queue with
    | nil =>
      rw [hq] at h
      cases h
      exact ⟨cur, n, hv, hq⟩
    | cons i queue =>
      rw [hq] at h
      obtain ⟨c1, h1, h⟩ := Option.bind_eq_some_iff.mp h
      refine ih (by omega) ((hv.pop hq).steps (fun ho => ?_) (fun u hu => ?_) h1) h
      · simpa [Observable] using ho
      · rw [huses] at hu
        exact (UseMap.mem_usersOf_compute.mp hu).1

/-- The search starts from the root. -/
theorem valid_start (s : Search) : s.Valid s.phi [] 0 { elements := [s.phi], queue := [s.phi] } where
  nodup := List.nodup_singleton _
  nodup_queue := List.nodup_singleton _
  queue _ := id
  length := rfl
  phi_mem := List.mem_singleton_self _
  link _ hi := .inl (List.mem_singleton.mp hi)
  looked _ he hq := absurd he hq

/-- The value of the root from inside the loop is the only one from there. -/
theorem latchValue?_eq_some {l : Loop} {incoming : List (BlockId × Value)} {v : Value}
    (h : latchValue? l incoming = some v) :
    ∀ p ∈ l.blocks, ∀ w, incoming.lookup p = some w → w = v := by
  intro p hp w hw
  unfold latchValue? at h
  split at h
  · rename_i a va b vb
    have hin : l.contains p = true := List.contains_iff_mem.mpr hp
    split at h
    · rename_i hb
      cases h
      have hne : (p == b) = false := beq_eq_false_iff_ne.mpr fun e => by simp [← e, hin] at hb
      cases hpa : p == a <;> simp [List.lookup_cons, hne, hpa] at hw
      exact hw.symm
    · rename_i ha _
      cases h
      have hne : (p == a) = false := beq_eq_false_iff_ne.mpr fun e => by simp [← e, hin] at ha
      cases hpb : p == b <;> simp [List.lookup_cons, hne, hpb] at hw
      exact hw.symm
    · cases h
  · cases h

end Search

/-! ## The result -/

variable {f : Func} {l : Loop} {phi : InstId} {r : Reduction}

/-- From inside the loop the root takes the value of the latch. -/
theorem IsChain.incoming (h : r.IsChain f l) {p : BlockId} (hp : p ∈ l.blocks) {v : Value}
    (hv : f.incomingValue? r.phi p = some v) : v = r.latchValue :=
  Search.latchValue?_eq_some h.latch_value p hp v hv

theorem any_contains_iff {v : Value} {elements : List InstId} :
    v.inst?.any elements.contains = true ↔ ∃ e ∈ elements, v = .inst e := by
  cases v <;> simp [Value.inst?]

/-- An update of two operands takes up the chain in one of them. -/
theorem one_of_two {v w : Value} {elements : List InstId}
    (h : ([v, w].filter fun v => v.inst?.any elements.contains).length = 1) :
    (∃ e ∈ elements, v = .inst e) ∧ (¬ ∃ e ∈ elements, w = .inst e) ∨
      (¬ ∃ e ∈ elements, v = .inst e) ∧ ∃ e ∈ elements, w = .inst e := by
  simp only [← any_contains_iff]
  by_cases hv : v.inst?.any elements.contains = true <;>
    by_cases hw : w.inst?.any elements.contains = true <;>
    simp [hv, hw] at h ⊢

/-- The search that finds a reduction. -/
def search (r : Reduction) (f : Func) (uses : UseMap) (l : Loop) : Search where
  func := f
  uses
  loop := l
  phi := r.phi
  latchValue := r.latchValue

/-- What has been found about a header phi that is the root of a reduction. -/
theorem ofHeaderPhi?_eq_some {uses : UseMap} {loops : LoopForest}
    (h : ofHeaderPhi? f uses loops l phi = some r) : r.phi = phi ∧ ∃ c,
      (r.search f uses l).follow (f.insts.size + 1) { elements := [phi], queue := [phi] } =
          some c ∧
        c.kind = some r.kind ∧ c.elements = r.elements ∧
        Search.latchValue? l (f.inst phi).incoming = some r.latchValue ∧
        (∃ e ∈ r.elements, r.latchValue = .inst e) ∧
        ∀ i ∈ r.elements, i ≠ phi → (r.search f uses l).isProper r.elements i = true := by
  unfold ofHeaderPhi? at h
  obtain ⟨v, hv, h⟩ := Option.bind_eq_some_iff.mp h
  split at h
  · cases h
  obtain ⟨c, hc, h⟩ := Option.bind_eq_some_iff.mp h
  obtain ⟨kind, hkind, h⟩ := Option.bind_eq_some_iff.mp h
  dsimp only at h
  split at h
  · cases h
  split at h
  · cases h
  rename_i hlatch
  split at h
  · cases h
  rename_i hproper
  cases h
  refine ⟨rfl, c, hc, hkind, rfl, hv, any_contains_iff.mp (by simpa using hlatch),
    fun i hi hne => ?_⟩
  simp only [Bool.not_eq_true', Bool.not_eq_false, List.all_eq_true, Bool.or_eq_true,
    beq_iff_eq] at hproper
  exact (hproper i hi).resolve_left hne

theorem Search.isProper_phi {s : Search} {elements : List InstId} {i : InstId}
    (hp : s.func.isPhi i = true) (h : s.isProper elements i = true) :
    ∀ v ∈ (s.func.inst i).inputs, ∃ e ∈ elements, v = .inst e := by
  have h := (if_pos hp).symm.trans h
  intro v hv
  exact any_contains_iff.mp (List.all_eq_true.mp h v hv)

theorem Search.isProper_update {s : Search} {elements : List InstId} {i : InstId}
    (hp : s.func.isPhi i = false) (h : s.isProper elements i = true) :
    ((s.func.inst i).inputs.filter fun v => v.inst?.any elements.contains).length = 1 := by
  have hp : ¬ (s.func.inst i).isPhi = true := Bool.eq_false_iff.mp hp
  exact beq_iff_eq.mp ((if_neg hp).symm.trans h)

theorem isChain_of_ofHeaderPhi? (hf : f.Ssa) (hl : l ∈ (Analyses.ofFunc f).loops.loops)
    (hphi : phi ∈ f.phis l.header)
    (h : ofHeaderPhi? f (UseMap.compute f) (Analyses.ofFunc f).loops l phi = some r) :
    r.IsChain f l := by
  obtain ⟨rfl, c, hc, hkind, helems, hlatch, hmem, hproper⟩ := ofHeaderPhi?_eq_some h
  have hbody := Func.mem_body_of_mem_phis hphi
  have hatt : ∀ i, .inst i ∈ f.users → i ∈ f.body (f.inst i).block := by
    intro i hi
    obtain ⟨b, -, hb⟩ := f.mem_users_inst.mp hi
    rw [hf.placed b i hb]
    exact hb
  obtain ⟨cur, n, hv, hqueue⟩ := Search.follow_eq_some (s := r.search f (UseMap.compute f) l) rfl
    (fun i hi => hf.body_lt _ i (hatt i hi)) (hf.body_lt _ _ hbody) (Nat.lt_succ_self _)
    (Search.valid_start _) hc
  have hlayout : ∀ b ∈ l.blocks, b ∈ f.layout := fun b hb =>
    (hf.layout b).mpr ((LoopForest.reachable_of_mem hf.toClosed hl hb).lt hf.toClosed)
  -- nothing has been left to look at
  have hallowed : ∀ e ∈ r.elements, ∀ u ∈ f.users, .inst e ∈ f.usedBy u →
      (r.search f (UseMap.compute f) l).Allowed c e u := by
    intro e he u hu huse
    refine (hv.looked e (helems ▸ he) (by simp [hqueue]) u ?_).resolve_right (by simp)
    exact UseMap.mem_usersOf_compute.mpr ⟨hu, huse⟩
  have hlink : ∀ i ∈ r.elements, i ≠ r.phi → .inst i ∈ f.users ∧
      Search.IsLink f l (some r.kind) i := fun i hi hne =>
    hkind ▸ (hv.link i (helems ▸ hi)).resolve_left hne
  refine ⟨hphi, helems ▸ hv.phi_mem, fun i hi => ?_, fun i hi hne hp => ⟨fun hb => ?_, ?_⟩,
    fun i hi hp => ?_, fun b hb i hi e he huse => ?_, fun b hb e he huse => ?_,
    fun u hu hout e he huse => ?_, hmem, hlatch⟩
  · by_cases hne : i = r.phi
    · exact ⟨l.header, LoopForest.header_mem hl, hne ▸ hbody⟩
    · exact ⟨_, (hlink i hi hne).2.mem, hatt i (hlink i hi hne).1⟩
  · obtain ⟨incoming, -, hout⟩ | ⟨k, args, -, hop, -⟩ := (hlink i hi hne).2.op
    · exact hout (hf.placed _ i hb)
    · rw [Func.isPhi, Instr.isPhi, hop] at hp
      cases hp
  · exact Search.isProper_phi hp (hproper i hi hne)
  · have hne : i ≠ r.phi := by
      rintro rfl
      rw [Func.isPhi_of_mem_phis hphi] at hp
      cases hp
    obtain ⟨incoming, hop, -⟩ | ⟨k, args, hk, hop, hmask⟩ := (hlink i hi hne).2.op
    · rw [Func.isPhi, Instr.isPhi, hop] at hp
      cases hp
    · cases hk
      have hcount : ((f.inst i).op.inputs.filter _).length = 1 :=
        Search.isProper_update hp (hproper i hi hne)
      rw [hop] at hcount
      exact ⟨hmask, args, hop, hcount⟩
  · have h := hallowed e he (.inst i) (f.mem_users_inst.mpr ⟨b, hlayout b hb, hi⟩) huse
    have hin : (f.inst i).block ∈ l.blocks := hf.placed b i hi ▸ hb
    rw [← helems]
    exact (Search.allowed_inst_of_mem hin).mp h
  · exact (hallowed e he (.terminator b) (f.mem_users_terminator.mpr (hlayout b hb)) huse).1 hb
  · have h := hallowed e he u hu huse
    refine Or.imp id Eq.symm ?_
    cases u with
    | terminator b => exact h.2
    | inst i => exact (Search.allowed_inst_of_not_mem hout).mp h

/-- The reductions that are found are chains. -/
theorem isChain_of_mem_findAll (hf : f.Ssa)
    (h : r ∈ findAll f (Analyses.ofFunc f).loops) (hl : l ∈ (Analyses.ofFunc f).loops.loops)
    (hphi : r.phi ∈ f.phis l.header) : r.IsChain f l := by
  obtain ⟨l', hl', h⟩ := List.mem_flatMap.mp h
  obtain ⟨phi, hphi', h⟩ := List.mem_filterMap.mp h
  have hchain := isChain_of_ofHeaderPhi? hf hl' hphi' h
  have e : l'.header = l.header := hf.eq_of_mem_body
    (Func.mem_body_of_mem_phis hchain.phi_mem) (Func.mem_body_of_mem_phis hphi)
  rw [← LoopForest.eq_of_header_eq hl' hl e]
  exact hchain

end Reduction

end Lockstep
