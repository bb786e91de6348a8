import Lockstep.Proofs.Eval.Refined
import Lockstep.Proofs.Eval.Settled
import Lockstep.Proofs.Forecast.Lowered
import Lockstep.Proofs.Forecast.Sharing

/-!
# What is known from the runs of the lanes

Runs of a function without cycles, one in each lane, tell beforehand what the lanes will do in a common
run: which blocks each of them comes by, with which operands it runs its effects, and what its values
are. Before anything is changed all of that agrees with the code (`expanding_ofRuns`).
-/

namespace Lockstep

open Run

/-- An operation looks at no more inputs than it has operands. -/
theorem Opcode.eval_congr {code : Opcode} {tys : List Ty} {ty ty' : Ty} (ht : code.Typed tys ty)
    {input input' : Nat → Scalar} (h : ∀ k < tys.length, input k = input' k) (source : Ty) :
    code.eval input source ty' = code.eval input' source ty' := by
  unfold Opcode.Typed at ht
  split at ht
  · unfold eval
    rw [h 0 (by simp), h 1 (by simp)]
  · unfold eval
    rw [h 0 (by simp), h 1 (by simp)]
  · unfold eval
    rw [h 0 (by simp), h 1 (by simp), h 2 (by simp)]
  · unfold eval
    rw [h 0 (by simp)]
  · unfold eval
    rw [h 0 (by simp), h 1 (by simp)]
  · rfl
  · rfl
  · rfl
  · exact ht.elim

namespace Func

/-- Well-formed code is supported by its own graph. -/
theorem WellFormed.supports {f : Func} (hf : f.WellFormed) (ht : f.WellTyped)
    (hm : ∀ b, ∀ i ∈ f.body b, (f.inst i).mask = none) : f.Supports f where
  coherent := hf.toCoherent
  typed := ht
  noMask := hm
  nodup := hf.nodup
  phisFirst := hf.phis_first
  uses b hb i hi hphi v hv := by
    obtain ⟨before, after, e⟩ := List.append_of_mem hi
    refine (hf.inst b hb before i after e hphi v (List.mem_append_left _ hv)).mono fun j hj => ?_
    refine hj.imp_left fun hj => ?_
    rw [e]
    exact (List.singleton_sublist.mpr hj).append ((List.nil_sublist _).cons_cons i)
  entries b hb phi hphi e he hr := by
    refine (hf.phi b hb phi hphi e he hr).mono fun j hj => ?_
    rcases hj with hj | ⟨d, -, hj, hd⟩
    · exact ⟨e.1, hj, .refl f e.1⟩
    · exact ⟨d, hj, hd⟩
  exit b hb v hv := by
    refine (hf.exit b hb v hv).mono fun j hj => ?_
    rcases hj with hj | ⟨d, -, hj, hd⟩
    · exact ⟨b, hj, .refl f b⟩
    · exact ⟨d, hj, hd⟩

end Func

variable {ι : Type}

namespace Doings

/-- What lanes do in a function, by the blocks that they come by and the machines they end with. -/
def ofRuns (f : Func) (tr : ι → List BlockId) (n : ι → Machine) : Doings ι where
  func := f
  trace := tr
  args l i := operands f (n l) i
  known :=
    { arg := fun l k => ((n l).value 1 (.param k)).lane 0
      inst := fun l i x => (∃ b ∈ tr l, i ∈ f.body b) ∧ x = ((n l).value 1 (.inst i)).lane 0 }

section

variable {s : Setup} {f : Func} {start n : ι → Machine} {ret : ι → Option Lanes}
  {tr : ι → List BlockId} {b c p : BlockId} {i : InstId} {v : Value} {l : ι} {x : Scalar}

variable (h : ∀ l, Ended s f (start l) (n l) (ret l) (tr l))

include h

/-- What is available in a block is known in the lanes that come by. -/
theorem knows_of_availableAt {before : List InstId} (hb : b ∈ tr l)
    (hbefore : ∀ j ∈ before, j ∈ f.body b) (hv : f.AvailableAt b before v) :
    (ofRuns f tr n).known.Knows l v (((n l).value 1 v).lane 0) := by
  cases v with
  | const c => rfl
  | param k => rfl
  | inst j =>
    refine ⟨?_, rfl⟩
    rcases hv with hj | ⟨d, -, hj, hd⟩
    · exact ⟨b, hb, hbefore j hj⟩
    · refine ⟨d, ?_, hj⟩
      by_contra hmem
      obtain ⟨rest, hrest⟩ := List.head?_eq_some_iff.mp (h l).head
      have hpath : f.Path (· ≠ d) f.entry b :=
        Func.path_along (hrest ▸ (h l).course.chain) (hrest ▸ hb) fun y hy e => hmem (e ▸ hrest ▸ hy)
      exact hmem (hd hpath ▸ hb)

theorem sure_ofRuns : (ofRuns f tr n).known.Sure f where
  hasTy l i x hx := by
    obtain ⟨-, rfl⟩ := hx
    exact (h l).typed_end.1.value (v := .inst i) trivial 1 0
  unique l i x y hx hy := hx.2.trans hy.2.symm
  arg l k := (h l).typed_end.1.value (v := .param k) trivial 1 0

theorem orderly_ofRuns [Nonempty ι] (ht : ∀ b, (f.term b).targets.Nodup)
    (he : ∀ b, ∀ v ∈ (f.term b).uses, v.IsTyped) : (ofRuns f tr n).Orderly :=
  let l : ι := Classical.arbitrary ι
  { coherent := (h l).wellFormed.toCoherent
    acyclic := (h l).acyclic
    course := fun l => (h l).course
    targets := ht
    exits := he }

/-- A machine on the way has room for the values of the code. -/
theorem lt_size_of_moment {m m' : Machine} (hm : Moment s f (start l) (n l) i m m')
    (hi : i ∈ f.body b) : i < m.values.size := by
  rw [hm.size, (h l).toSingleLane.size]
  exact (h l).wellFormed.toCoherent.body_lt b i hi

/-- An operation yields what it has computed. -/
theorem yields_ofRuns {code : Opcode} {args : List Value} (hi : i ∈ f.body b)
    (hop : (f.inst i).op = .apply code args) (hpure : code.hasSideEffects = false)
    (hx : (ofRuns f tr n).known.inst l i x) :
    (ofRuns f tr n).known.Yields f l code args (f.inst i).ty x := by
  obtain ⟨⟨b', hb', hi'⟩, rfl⟩ := hx
  obtain rfl := (h l).wellFormed.toCoherent.eq_of_mem_body hi' hi
  obtain ⟨pre, post, e⟩ := List.append_of_mem hb'
  obtain ⟨before, after, eb⟩ := List.append_of_mem (mem_nonPhis_of_apply hi hop)
  obtain ⟨m, m', hm⟩ := (h l).exists_moment e eb
  have hbody : f.body b' = (f.phis b' ++ before) ++ i :: after := by
    rw [← f.phis_append_nonPhis, eb, List.append_assoc]
  have hq : code.isQuiet = true := by
    cases code with
    | store | call _ => cases hpure
    | _ => rfl
  have hw : 0 < s.width := (h l).width ▸ Nat.one_pos
  obtain ⟨xs, ⟨-, hxs⟩, rfl⟩ := (instr_eq_ok_iff hw hop hq).mp hm.instr
  have hlane := hxs 0 hw
  unfold laneResult at hlane
  rw [(h l).width, laneOperation_eq_eval i hpure] at hlane
  rw [hm.result, Machine.value_setValue_self xs (lt_size_of_moment h hm hi)]
  intro input hin
  have htyped := ((h l).wellTyped.inst b' i hi).apply code args hop
  rw [← typeOf_input_zero hop, ← mapError_eq_ok hlane]
  refine Opcode.eval_congr htyped (fun k hk => ?_) _
  rw [List.length_map] at hk
  have hmem : args[k] ∈ (f.inst i).uses :=
    List.mem_append_left _ (by rw [inputs_of_op hop]; exact List.getElem_mem hk)
  have hreach : f.Reachable b' := (h l).reachable (by rw [e]; simp)
  have hphi := (h l).wellFormed.phis_first b' i (by rw [eb]; simp)
  have havail := (h l).wellFormed.inst b' hreach _ i after hbody hphi _ hmem
  have hknown := knows_of_availableAt h hb' (fun j hj => hbody ▸ List.mem_append_left _ hj) havail
  rw [hin.knows k args[k] _ (List.getElem?_eq_getElem hk) hknown, hm.uses _ hmem, List.getElem?_map,
    List.getElem?_eq_getElem hk]
  rfl

/-- The operands of what runs in a lane are known there. -/
theorem knows_uses {code : Opcode} {args : List Value} (hb : b ∈ tr l) (hi : i ∈ f.body b)
    (hop : (f.inst i).op = .apply code args) :
    List.Forall₂ ((ofRuns f tr n).known.Knows l) args (operands f (n l) i) := by
  obtain ⟨before, after, e⟩ := List.append_of_mem hi
  have hphi : f.isPhi i = false := by
    unfold Func.isPhi Instr.isPhi
    rw [hop]
    rfl
  unfold operands
  rw [inputs_of_op hop]
  refine List.forall₂_map_right_iff.mpr (List.forall₂_same.mpr fun v hv => ?_)
  have hmem : v ∈ (f.inst i).uses := List.mem_append_left _ (by rw [inputs_of_op hop]; exact hv)
  exact knows_of_availableAt h hb (fun j hj => e ▸ List.mem_append_left _ hj)
    ((h l).wellFormed.inst b ((h l).reachable hb) before i after e hphi v hmem)

/-- The entries of a phi are known where its block is come to along them. -/
theorem enters_ofRuns {phi : InstId} (hr : f.Reachable b) (hphi : phi ∈ f.phis b) (hf : f.WellFormed) :
    (ofRuns f tr n).known.Enters f.Reachable (f.way tr b) phi (f.inst phi).incoming where
  nodup := (hf.entries b hr phi hphi).nodup
  pred e he := (hf.entries b hr phi hphi).pred e.1 (List.mem_map_of_mem he)
  complete p hp hpb := (hf.entries b hr phi hphi).complete p hp hpb
  taken l e he ht x hx := by
    have hmem := (mem_of_pair ht).1
    obtain ⟨-, rfl⟩ := hx
    rw [(h l).value_phi ht hphi he]
    exact knows_of_availableAt h hmem (fun j hj => hj)
      (hf.phi b hr phi hphi e he ((h l).reachable hmem))
  away l hl e he x hx := by
    obtain ⟨⟨c, hc, hic⟩, -⟩ := hx
    rw [hf.toCoherent.eq_of_mem_body hic (Func.mem_body_of_mem_phis hphi)] at hc
    exact absurd hc hl

/-- A run starts in a block without phis. -/
theorem phis_entry (l : ι) : f.phis f.entry = [] := by
  obtain ⟨rest, hrest⟩ := List.head?_eq_some_iff.mp (h l).head
  obtain ⟨m, r, m', hv, -⟩ := (h l).exists_visit (show tr l = [] ++ f.entry :: rest from hrest)
  obtain ⟨mb, h1, -⟩ := block_eq_ok_iff.mp hv.block
  obtain ⟨new, hnew, -⟩ := phis_eq_ok_iff.mp h1
  cases hphis : f.phis f.entry with
  | nil => rfl
  | cons phi phis =>
    rw [hphis] at hnew
    obtain ⟨v, hv, -⟩ := (List.forall₂_cons_left_iff.mp hnew).choose_spec.choose_spec.1
    cases hv

/-- What is known from the runs agrees with the code. -/
theorem runs_ofRuns [Nonempty ι] : (ofRuns f tr n).Runs f (fun phi => f.way tr (f.inst phi).block)
    (ofRuns f tr n).known f := by
  have l : ι := Classical.arbitrary ι
  have hf := (h l).wellFormed
  refine ⟨hf.supports (h l).wellTyped (h l).plain.noMask, sure_ofRuns h, Nat.le_refl _, .refl _ _, rfl,
    phis_entry h l, fun b i hi code args hop hpure l x hx => yields_ofRuns h hi hop hpure hx,
    fun b hr phi hphi => ?_, fun b => rfl, fun b i hi heff => ?_⟩
  · rw [hf.toCoherent.placed b phi (Func.mem_body_of_mem_phis hphi)]
    exact enters_ofRuns h hr hphi hf
  · cases hop : (f.inst i).op with
    | phi incoming =>
      unfold Func.isEffect at heff
      rw [hop] at heff
      cases heff
    | apply code args => exact ⟨code, args, args, hop, rfl, rfl, fun l hb => knows_uses h hb hi hop⟩

/-- What is known from the runs is known before masks are made. -/
theorem expanding_ofRuns [Nonempty ι] {t : Stage} {width : Nat}
    (hdistinct : ∀ b, (f.term b).targets.Nodup) (ht : t.func = f) (hinfo : t.info = { width })
    (hmasks : t.masks = {}) :
    Stage.Expanding (ofRuns f tr n) (fun phi => f.way tr (f.inst phi).block) (ofRuns f tr n).known t := by
  have l : ι := Classical.arbitrary ι
  have hcoh := (h l).wellFormed.toCoherent
  subst ht
  refine ⟨⟨runs_ofRuns h, rfl, by rw [hinfo], fun b m hm => ?_, fun b => ?_, fun p c m hm => ?_,
    fun v hv => ?_, fun l b v x y hterm c hbc => ?_, fun l b v x y _ hb => hb, fun b v hv => ⟨v, hv, ?_⟩⟩,
    fun b => rfl, fun b => by rw [hinfo]; rfl, fun c phi hphi => ?_⟩
  · rw [hmasks] at hm
    cases hm
  · rw [hmasks, hinfo]
    rfl
  · rw [hmasks] at hm
    cases hm
  · rw [hinfo] at hv
    cases v with
    | const c => exact ⟨trivial, fun _ _ _ hx => hx⟩
    | param k => cases hv
    | inst i => cases hv
  · obtain ⟨q, hq, rfl⟩ := (h l).value_cond hbc hterm
    have hb := (mem_of_pair hbc).1
    have hknown := knows_of_availableAt h hb (fun j hj => hj)
      ((h l).wellFormed.exit b ((h l).reachable hb) v (by
        rw [hterm]
        exact List.mem_singleton_self v))
    rw [hq] at hknown
    refine ⟨q, hknown, ?_⟩
    have hxy : x ≠ y := by
      have hn := hdistinct b
      rw [hterm] at hn
      exact fun e => (List.nodup_cons.mp hn).1 (List.mem_singleton.mpr e)
    cases q with
    | true => simp
    | false => simp [hxy.symm]
  · cases v with
    | none => exact .none
    | some v => exact .some fun _ _ hx => hx
  · show t.func.way tr (t.func.inst phi).block = _
    rw [hcoh.placed c phi (Func.mem_body_of_mem_phis hphi)]
    rfl

/-- An effect on the way is run with the memory that the effects before it have made. -/
theorem exists_moment_effect {pre post : List BlockId} {before after : List InstId}
    (e : tr l = pre ++ b :: post) (eb : (ofRuns f tr n).effectsOf b = before ++ i :: after) :
    ∃ m m', Moment s f (start l) (n l) i m m' ∧ m.memory =
      (ofRuns f tr n).memoryOf l (pre.flatMap (ofRuns f tr n).effectsOf ++ before) (start l).memory := by
  have hi : i ∈ (ofRuns f tr n).effectsOf b := by rw [eb]; simp
  obtain ⟨hbody, heff⟩ := List.mem_filter.mp hi
  have hnon : i ∈ f.nonPhis b := by
    have hbody : i ∈ f.body b := hbody
    cases hop : (f.inst i).op with
    | phi incoming =>
      unfold ofRuns Func.isEffect at heff
      rw [hop] at heff
      cases heff
    | apply code args => exact mem_nonPhis_of_apply hbody hop
  obtain ⟨nb, na, en⟩ := List.append_of_mem hnon
  obtain ⟨m, m', hm, hmemory⟩ := (h l).exists_moment_memory e en
  refine ⟨m, m', hm, ?_⟩
  have hsplit : f.body b = (f.phis b ++ nb) ++ i :: na := by
    rw [← f.phis_append_nonPhis, en, List.append_assoc]
  have hbefore : (f.phis b ++ nb).filter f.isEffect = before := by
    have hfilter : before ++ i :: after =
        (f.phis b ++ nb).filter f.isEffect ++ i :: na.filter f.isEffect := by
      rw [← eb]
      show (f.body b).filter f.isEffect = _
      rw [hsplit, List.filter_append, List.filter_cons_of_pos (show f.isEffect i = true from heff)]
    have hn := ((h l).wellFormed.nodup b).filter f.isEffect
    have hn : (before ++ i :: after).Nodup := eb ▸ hn
    obtain ⟨h1, h2⟩ := notMem_of_nodup_middle hn
    exact ((List.append_cons_inj_of_notMem h1 h2).mp hfilter).1.symm
  rw [hmemory, ← replay_filter, List.filter_append, List.filter_flatMap]
  show _ = replay f _ (pre.flatMap (fun b => (f.body b).filter f.isEffect) ++ before) _
  rw [← hbefore]
  rfl

variable {memory : Array Scalar}

/-- What a lane has loaded or stored was at a place in the memory. -/
theorem address_ofRuns (hstart : (start l).memory = memory) (hb : b ∈ tr l)
    (hi : i ∈ (ofRuns f tr n).effectsOf b) {addr : Scalar} {xs : List Scalar}
    (hargs : operands f (n l) i = addr :: xs) : Addresses true addr memory := by
  obtain ⟨pre, post, e⟩ := List.append_of_mem hb
  obtain ⟨before, after, eb⟩ := List.append_of_mem hi
  obtain ⟨m, m', hm, hmemory⟩ := exists_moment_effect h e eb
  obtain ⟨hbody, heff⟩ := List.mem_filter.mp hi
  have hsize : m.memory.size = memory.size := by
    rw [hmemory, size_memoryOf, hstart]
  have hw : 0 < s.width := (h l).width ▸ Nat.one_pos
  have haddr : ∀ p, (f.inst i).inputs.head? = some p →
      Addresses (Run.active s.width m (f.inst i).mask 0) ((m.value s.width p).lane 0) m.memory →
        Addresses true addr memory := by
    intro p hp ha
    rw [(h l).plain.noMask b i hbody, (h l).width] at ha
    rw [hm.operands_eq, operands] at hargs
    obtain ⟨rest, hrest⟩ := List.head?_eq_some_iff.mp hp
    rw [hrest] at hargs
    cases hargs
    exact ha.of_size hsize
  rcases (h l).plain.cases (h l).wellTyped hbody heff with ⟨p, hop⟩ | ⟨p, v, hop⟩
  · exact haddr p (by rw [inputs_of_op hop]; rfl) (((instr_load_eq_ok_iff hw hop).mp hm.instr).1 0 hw)
  · exact haddr p (by rw [inputs_of_op hop]; rfl) (((instr_store_eq_ok_iff hop).mp hm.instr).1 0 hw)

/-- What a lane has loaded is what the effects before it have left there. -/
theorem load_ofRuns (hstart : (start l).memory = memory) {pre post : List BlockId}
    {before after : List InstId} (e : tr l = pre ++ b :: post)
    (eb : (ofRuns f tr n).effectsOf b = before ++ i :: after) {args : List Value}
    (hop : (f.inst i).op = .apply .load args) {addr : Scalar} (hargs : operands f (n l) i = [addr]) :
    (ofRuns f tr n).known.inst l i (loadLane true addr ((ofRuns f tr n).memoryOf l
      (pre.flatMap (ofRuns f tr n).effectsOf ++ before) memory)) := by
  obtain ⟨m, m', hm, hmemory⟩ := exists_moment_effect h e eb
  have hi : i ∈ (ofRuns f tr n).effectsOf b := by rw [eb]; simp
  obtain ⟨hbody, heff⟩ := List.mem_filter.mp hi
  obtain ⟨p, rfl⟩ : ∃ p, args = [p] := by
    rcases (h l).plain.cases (h l).wellTyped hbody heff with ⟨p, hop'⟩ | ⟨p, v, hop'⟩
    · exact ⟨p, (Op.apply.inj (hop.symm.trans hop')).2⟩
    · cases hop.symm.trans hop'
  have hw : 0 < s.width := (h l).width ▸ Nat.one_pos
  obtain ⟨-, xs, -, hxs, rfl⟩ := (instr_load_eq_ok_iff hw hop).mp hm.instr
  have hx := hxs 0 hw
  rw [hm.operands_eq, operands, inputs_of_op hop] at hargs
  cases hargs
  refine ⟨⟨b, by rw [e]; simp, hbody⟩, ?_⟩
  rw [hm.result, Machine.value_setValue_self xs (lt_size_of_moment h hm hbody), hx,
    (h l).plain.noMask b i hbody, (h l).width, ← hstart, ← hmemory]
  rfl

/-- A store has no value. -/
theorem store_ofRuns {args : List Value} (hop : (f.inst i).op = .apply .store args)
    (hx : (ofRuns f tr n).known.inst l i x) : x = .undefined := by
  obtain ⟨⟨b, hb, hbody⟩, rfl⟩ := hx
  have hbody : i ∈ f.body b := hbody
  obtain ⟨pre, post, e⟩ := List.append_of_mem hb
  obtain ⟨before, after, eb⟩ := List.append_of_mem (mem_nonPhis_of_apply hbody hop)
  obtain ⟨m, m', hm⟩ := (h l).exists_moment e eb
  have heff : (f.inst i).op.hasSideEffects = true := by
    rw [hop]
    rfl
  rcases (h l).plain.cases (h l).wellTyped hbody heff with ⟨p, hop'⟩ | ⟨p, v, hop'⟩
  · cases hop.symm.trans hop'
  · have hsize := lt_size_of_moment h hm hbody
    obtain ⟨-, rfl⟩ := (instr_store_eq_ok_iff hop').mp hm.instr
    have hself : ∀ M : Array Scalar, (Machine.setValue { m with memory := M } i
        (.splat s.width .undefined)).value 1 (.inst i) = .splat s.width .undefined :=
      fun M => Machine.value_setValue_self _ hsize
    rw [hm.result, hself]
    exact Lanes.lane_splat _ ((h l).width ▸ Nat.one_pos)

/-- The runs take each lane from its first memory to its last. -/
theorem plays_ofRuns (hstart : ∀ l, (start l).memory = memory) :
    (ofRuns f tr n).Plays memory fun l => (n l).memory where
  address l _ _ hb hi _ _ hargs := address_ofRuns h (hstart l) hb hi hargs
  load l _ _ _ _ _ _ e eb _ hop _ hargs := load_ofRuns h (hstart l) e eb hop hargs
  store _ _ _ _ hop hx := store_ofRuns h hop hx
  away l i x b hi hx := by
    obtain ⟨⟨c, hc, hic⟩, -⟩ := hx
    rwa [(h l).wellFormed.toCoherent.eq_of_mem_body hic hi] at hc
  ends l := by
    rw [(h l).memory_eq, ← replay_filter, List.filter_flatMap, hstart]
    rfl

end

end Doings

end Lockstep
