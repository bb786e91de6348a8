import Lockstep.Proofs.Forecast.Runs
import Lockstep.Proofs.Forecast.Wide
import Lockstep.Proofs.Func.Check
import Lockstep.Proofs.Pipeline.Predicated

/-!
# Functions without cycles in lock-step

What the pipeline makes of a function without cycles does in all lanes together what the function does in
each of them (`exists_run_of_acyclic`): the predicate of a block is true in the lanes that come by it on
their own, and the memory is what the lanes have made of it, as long as no lane writes a cell that another
one reads or writes.
-/

namespace Lockstep

open Run

namespace Run

/-- A run executes an operation with an opcode and the address of the cell `k`. -/
def Accesses (code : Opcode) (s : Setup) (f : Func) (start : Machine) (k : Nat) : Prop :=
  ∃ i args m a, (f.inst i).op = .apply code args ∧ Executes s f start i m ∧
    (m.value s.width ((f.inst i).input 0)).lane 0 = .int a ∧ a.toInt.toNat = k

/-- A run reads the cell `k`. -/
def Reads : Setup → Func → Machine → Nat → Prop := Accesses .load

/-- A run writes the cell `k`. -/
def Writes : Setup → Func → Machine → Nat → Prop := Accesses .store

/-- Whether an effect acts on a given cell. -/
def actsOn (s : Setup) (f : Func) (k : Nat) (i : InstId) (m : Machine) : Bool :=
  !(f.inst i).op.hasSideEffects || match (m.value s.width ((f.inst i).input 0)).lane 0 with
    | .int a => a.toInt.toNat == k
    | _ => true

theorem Accesses.eq_of_holds {code : Opcode} {s : Setup} {f : Func} {start : Machine} {steps k c : Nat}
    (h : holdsOfBlocks (actsOn s f c) s f steps none f.entry start = true)
    (hk : Accesses code s f start k) (hcode : code.hasSideEffects = true) : k = c := by
  obtain ⟨i, args, m, a, hop, hx, ha, rfl⟩ := hk
  have hacts := hx.holds h
  have heff : (f.inst i).op.hasSideEffects = true := by
    rw [hop]
    exact hcode
  unfold actsOn at hacts
  rw [heff, ha] at hacts
  exact beq_iff_eq.mp hacts

/-- No run writes a cell that another one reads or writes. -/
def Apart {ι : Type} (s : Setup) (f : Func) (start : ι → Machine) : Prop :=
  ∀ l l' k, l ≠ l' → Writes s f (start l) k → ¬ Reads s f (start l') k ∧ ¬ Writes s f (start l') k

end Run

namespace Doings

variable {ι : Type} {s : Setup} {f : Func} {start n : ι → Machine} {ret : ι → Option Lanes}
  {tr : ι → List BlockId} {l : ι} {k : Nat}

variable (h : ∀ l, Ended s f (start l) (n l) (ret l) (tr l))

include h

theorem accesses_ofRuns {b : BlockId} {i : InstId} {code : Opcode} {args : List Value} {a : Int64}
    {xs : List Scalar} (hb : b ∈ tr l) (hi : i ∈ (ofRuns f tr n).effectsOf b)
    (hop : (f.inst i).op = .apply code args) (hargs : (ofRuns f tr n).args l i = .int a :: xs) :
    Accesses code s f (start l) a.toInt.toNat := by
  obtain ⟨pre, post, e⟩ := List.append_of_mem hb
  obtain ⟨before, after, eb⟩ := List.append_of_mem hi
  obtain ⟨m, m', hm, -⟩ := exists_moment_effect h e eb
  refine ⟨i, args, m, a, hop, hm.executes, ?_, rfl⟩
  change operands f (n l) i = _ at hargs
  rw [hm.operands_eq] at hargs
  unfold operands at hargs
  rw [(h l).width, Instr.input]
  rw [inputs_of_op hop] at hargs ⊢
  cases args with
  | nil => cases hargs
  | cons v args => exact (List.cons.inj hargs).1

theorem writes_ofRuns (hk : (ofRuns f tr n).Writes l k) : Run.Writes s f (start l) k := by
  obtain ⟨b, hb, i, hi, ⟨args, hop⟩, a, xs, hargs, rfl⟩ := hk
  exact accesses_ofRuns h hb hi hop hargs

theorem touches_ofRuns (hk : (ofRuns f tr n).Touches l k) :
    Run.Reads s f (start l) k ∨ Run.Writes s f (start l) k := by
  obtain ⟨b, hb, i, hi, a, xs, hargs, rfl⟩ := hk
  obtain ⟨hbody, heff⟩ := List.mem_filter.mp hi
  rcases (h l).plain.cases (h l).wellTyped hbody heff with ⟨p, hop⟩ | ⟨p, v, hop⟩
  · exact .inl (accesses_ofRuns h hb hi hop hargs)
  · exact .inr (accesses_ofRuns h hb hi hop hargs)

/-- Runs that keep apart are lanes that do. -/
theorem separate_ofRuns [Nonempty ι] {memory : Array Scalar} (hstart : ∀ l, (start l).memory = memory)
    (hapart : Run.Apart s f start) : (ofRuns f tr n).Separate memory fun l => (n l).memory where
  toPlays := plays_ofRuns h hstart
  coherent := (h (Classical.arbitrary ι)).wellFormed.toCoherent
  plain := (h (Classical.arbitrary ι)).plain
  apart l l' k hne hk ht := by
    obtain ⟨h1, h2⟩ := hapart l l' k hne (writes_ofRuns h hk)
    exact (touches_ofRuns h ht).elim h1 h2

end Doings

/-! ## The pipeline -/

namespace Vectorizer

variable {v : Vectorizer} {j j' : Job} {stats : PipelineStats} {ι : Type} {D : Doings ι}
  {ways : InstId → Way ι} {K : Knowledge ι}

/-- A pipeline that succeeds on a function without cycles has linearized it, and has done nothing else. -/
theorem lowered_of_runPipeline (hconfig : v.config = {}) (hext : ∀ slot, v.external slot = none)
    (hD : D.Orderly) (hfunc : j.stage.func = D.func)
    (hu : ∀ p, j.stage.info.isUniform (.inst p) = false)
    (hx : Stage.Expanding D ways K { j.stage with masks := {} })
    (h : v.runPipeline j = (.ok stats, j')) :
    ∃ P K t, Stage.Lowered D v.markers P K t j'.stage := by
  have hflow : v.config.controlFlow = true := by rw [hconfig]
  rcases hlin : v.linearize j.stage with ⟨r, u⟩
  cases r with
  | error e =>
    rw [runPipeline_of_error hflow hlin] at h
    cases h
  | ok r =>
    obtain ⟨P, K, t, hlowered⟩ :=
      triple_linearize_lowered hD (by rw [hconfig]) hfunc hu hx j.stage r u rfl hlin
    have hregion : u.info.region = none := by
      rw [hlowered.info]
      exact hlowered.steady.foretold.region
    rw [runPipeline_of_ok hflow hext (fun _ => hregion) hlin] at h
    cases h
    exact ⟨P, K, t, hlowered⟩

end Vectorizer

/-! ## Lanes -/

/-- What lane `l` starts with on its own. -/
def laneStart (s : Setup) (f : Func) (args : List Lanes) (memory : Array Scalar) (l : Nat) : Machine :=
  startMachine s f (args.map fun xs => [xs.lane l]) memory

theorem ArgsTyped.lane {f : Func} {args : List Lanes} (h : ArgsTyped f args) (l : Nat) :
    ArgsTyped f (args.map fun xs => [xs.lane l]) := by
  intro k ys hk l'
  rw [List.getElem?_map] at hk
  obtain ⟨xs, hxs, rfl⟩ := Option.map_eq_some_iff.mp hk
  rcases l' with - | l'
  · exact h k xs hxs l
  · exact Scalar.hasTy_undefined _

/-- Arguments with a scalar for each lane are taken as they are. -/
theorem arguments_of_length {s : Setup} {f : Func} {args : List Lanes} (hw : 1 ≤ s.width)
    (hw' : s.width ≤ Lanes.maxCount) (hlen : args.length = f.params.length)
    (hargs : ∀ xs ∈ args, xs.length = s.width) : arguments s f args = .ok args := by
  have hone : ∀ xs ∈ args, argument s.width xs = .ok xs := by
    intro xs hxs
    have h := hargs xs hxs
    unfold argument
    split
    · rw [← h]
      rfl
    · rw [if_pos h]
  unfold arguments
  rw [if_neg (by omega), if_neg (not_not.mpr hlen)]
  exact mapM_eq_ok_iff.mpr (List.forall₂_same.mpr hone)

theorem length_of_arguments {s : Setup} {f : Func} {args params : List Lanes}
    (h : arguments s f args = .ok params) : args.length = f.params.length := by
  unfold arguments at h
  split at h
  · cases h
  · split at h
    · cases h
    · rename_i hlen
      exact not_not.mp hlen

namespace Vectorizer

variable {v : Vectorizer} {j j' : Job} {stats : PipelineStats}

section

variable {W : Nat} {s s₁ : Setup} {args : List Lanes} {memory : Array Scalar} {ret : Fin W → Option Lanes}
  {m : Fin W → Machine}

theorem length_args {f : Func} (hW : 1 ≤ W)
    (hrun : ∀ l : Fin W, f.run s₁ (args.map fun xs => [xs.lane l]) memory = (.ok (ret l), m l)) :
    args.length = f.params.length := by
  obtain ⟨params, hp⟩ := Func.exists_arguments (hrun ⟨0, hW⟩)
  rw [← length_of_arguments hp, List.length_map]

/-- Each lane on its own comes to the end of a run. -/
theorem ended_of_run {f : Func} (hf : f.WellFormed) (hacyclic : f.Acyclic) (htyped : f.WellTyped)
    (hplain : f.Plain) (hw₁ : s₁.width = 1) (hargs : ArgsTyped f args)
    (hrun : ∀ l : Fin W, f.run s₁ (args.map fun xs => [xs.lane l]) memory = (.ok (ret l), m l))
    (hout : ∀ l : Fin W, OutsideTyped s₁ f (laneStart s₁ f args memory l)) (l : Fin W) :
    Ended s₁ f (laneStart s₁ f args memory l) (m l) (ret l) (m l).trace := by
  obtain ⟨params, hp⟩ := Func.exists_arguments (hrun l)
  rw [arguments_one hw₁ hp] at hp
  have e := hrun l
  rw [Func.run_eq hp] at e
  obtain ⟨tr, htrail, htrace⟩ := exists_trail e
  rw [htrace]
  exact ⟨singleLane_start hw₁ (hargs.lane l) (hout l) hp, hf, htyped, hacyclic, hplain, htrail⟩

/-- What the pipeline makes of a function without cycles runs in all lanes together if the function does in
each of them, and then everything is as known from their runs. -/
theorem exists_lowered_run (hconfig : v.config = {}) (hext : ∀ slot, v.external slot = none)
    (hW : 1 ≤ W) (hW' : W ≤ Lanes.maxCount) (hinfo : j.stage.info = { width := W })
    (htargets : ∀ b, (j.stage.func.term b).targets.Nodup)
    (hexits : ∀ b, ∀ x ∈ (j.stage.func.term b).uses, x.IsTyped)
    (h : v.runPipeline j = (.ok stats, j')) (hw : s.width = W)
    (hlimit : j.stage.func.blocks.size ≤ s.limit) (hlen : ∀ xs ∈ args, xs.length = W)
    (hnum : args.length = j.stage.func.params.length)
    (hends : ∀ l : Fin W, Ended s₁ j.stage.func (laneStart s₁ j.stage.func args memory l) (m l) (ret l)
      (m l).trace)
    (hsep : (Doings.ofRuns j.stage.func (fun l => (m l).trace) m).Separate memory fun l => (m l).memory) :
    ∃ P K t x m', Stage.Lowered (Doings.ofRuns j.stage.func (fun l => (m l).trace) m) v.markers P K t
        j'.stage ∧
      j'.stage.func.run s args memory = (.ok (x.map (m'.value W)), m') ∧
      (∀ l, K.Holds t.func (t.func.Ran (P l) []) m') ∧
      (Doings.ofRuns j.stage.func (fun l => (m l).trace) m).Shares memory (fun l => (m l).trace.flatMap
        (Doings.ofRuns j.stage.func (fun l => (m l).trace) m).effectsOf) m'.memory ∧
      ∀ l, ∃ z, (P l).getLast? = some z ∧ t.func.term z = .ret x := by
  have : Nonempty (Fin W) := ⟨⟨0, hW⟩⟩
  obtain ⟨P, K, t, hlowered⟩ := lowered_of_runPipeline hconfig hext
    (Doings.orderly_ofRuns hends htargets hexits) rfl (fun p => by rw [hinfo]; rfl)
    (Doings.expanding_ofRuns hends htargets rfl hinfo rfl) h
  have hparam : ∀ (l : Fin W) k, (args[k]?.getD (.splat W .undefined)).lane l =
      (Doings.ofRuns j.stage.func (fun l => (m l).trace) m).known.arg l k := by
    intro l k
    show _ = ((m l).value 1 (.param k)).lane 0
    rw [(hends l).trail.value fun _ _ _ _ e => by cases e]
    show _ = Lanes.lane ((args.map fun xs => [xs.lane l])[k]?.getD _) 0
    rw [List.getElem?_map]
    cases args[k]? with
    | none => exact (Lanes.lane_splat _ l.isLt).trans (Lanes.lane_splat _ Nat.one_pos).symm
    | some xs => rfl
  obtain ⟨x, m', e, hm', hshares, hx⟩ := hlowered.exists_run hw hW hsep hlimit hlen hparam
  refine ⟨P, K, t, x, m', hlowered, ?_, hm', hshares, hx⟩
  have hparams : args.length = j'.stage.func.params.length :=
    hnum.trans (congrArg List.length (hlowered.params.trans hlowered.runs.params)).symm
  rw [Func.run_eq (arguments_of_length (hw ▸ hW) (hw ▸ hW') hparams fun xs hxs => hw ▸ hlen xs hxs)]
  exact e

end

/-- What the pipeline makes of a function without cycles runs in all lanes together if the function does in
each of them, with predicates that are true where the lanes come by and with the memory of all lanes. -/
theorem exists_run_of_acyclic {W : Nat} (hconfig : v.config = {}) (hext : ∀ slot, v.external slot = none)
    (hW : 1 ≤ W) (hW' : W ≤ Lanes.maxCount) (hinfo : j.stage.info = { width := W })
    (hf : j.stage.func.WellFormed) (hacyclic : j.stage.func.Acyclic) (htyped : j.stage.func.WellTyped)
    (hplain : j.stage.func.Plain) (htargets : ∀ b, (j.stage.func.term b).targets.Nodup)
    (hexits : ∀ b, ∀ x ∈ (j.stage.func.term b).uses, x.IsTyped)
    (h : v.runPipeline j = (.ok stats, j')) {s s₁ : Setup} (hw : s.width = W)
    (hlimit : j.stage.func.blocks.size ≤ s.limit) (hw₁ : s₁.width = 1) {args : List Lanes}
    (hlen : ∀ xs ∈ args, xs.length = W) (hargs : ArgsTyped j.stage.func args) {memory : Array Scalar}
    {ret : Fin W → Option Lanes} {m : Fin W → Machine}
    (hrun : ∀ l : Fin W, j.stage.func.run s₁ (args.map fun xs => [xs.lane l]) memory = (.ok (ret l), m l))
    (hout : ∀ l : Fin W, OutsideTyped s₁ j.stage.func (laneStart s₁ j.stage.func args memory l))
    (hapart : Run.Apart s₁ j.stage.func fun l : Fin W => laneStart s₁ j.stage.func args memory l) :
    ∃ ret' m', j'.stage.func.run s args memory = (.ok ret', m') ∧
      (∀ b, j.stage.func.Reachable b → ∃ p, j'.stage.info.predicate? b = some p ∧
        ∀ l : Fin W, m'.IsTrueIn W p l ↔ b ∈ (m l).trace) ∧
      (∀ (l : Fin W) k, Run.Writes s₁ j.stage.func (laneStart s₁ j.stage.func args memory l) k →
        m'.memory[k]? = (m l).memory[k]?) ∧
      ∀ k, (∀ l : Fin W, ¬ Run.Writes s₁ j.stage.func (laneStart s₁ j.stage.func args memory l) k) →
        m'.memory[k]? = memory[k]? := by
  have : Nonempty (Fin W) := ⟨⟨0, hW⟩⟩
  have hends := ended_of_run hf hacyclic htyped hplain hw₁ hargs hrun hout
  have hsep := Doings.separate_ofRuns hends (fun _ => rfl) hapart
  have hwrites : ∀ (l : Fin W) k, (Doings.ofRuns j.stage.func (fun l => (m l).trace) m).Writes l k →
      Run.Writes s₁ j.stage.func (laneStart s₁ j.stage.func args memory l) k :=
    fun _ _ => Doings.writes_ofRuns hends
  obtain ⟨P, K, t, x, m', hlowered, e, hm', hshares, -⟩ := exists_lowered_run hconfig hext hW hW' hinfo
    htargets hexits h hw hlimit hlen (length_args hW hrun) hends hsep
  refine ⟨_, m', e, fun b hb => hlowered.exists_predicate hm' hb, fun l k hk => ?_, fun k hk => ?_⟩
  · exact hshares.ends hsep.toPlays fun l' hne hk' =>
      (hapart l' l k hne (hwrites l' k hk')).2 hk
  · exact hshares.unchanged fun l hk' => hk l (hwrites l k hk')

/-! ## A store under two conditions -/

/-- A store under two conditions, the second of which is loaded where the first one is true. -/
def storeIfLess : Job where
  stage.func := {
    params := [.bool, .ptr (.int 32)]
    retTy := .void
    blocks := #[
      { term := .brIf (.param 0) 1 3 },
      { insts := [0, 1], term := .brIf (.inst 1) 2 3 },
      { insts := [2], term := .br 3 },
      { term := .ret none }]
    insts := #[
      { op := .apply .load [.param 1], ty := .int 32, block := 1 },
      { op := .apply (.cmp .slt) [.inst 0, .ofInt (.int 32) 5], ty := .bool, block := 1 },
      { op := .apply .store [.param 1, .ofInt (.int 32) 9], ty := .void, block := 2 }]
    layout := [0, 1, 2, 3] }
  stage.info := { width := 3 }

/-- Three lanes, each with a cell of its own: the first goes around everything, the third around the
store. -/
def threeLanes : List Lanes := [[.bool false, .bool true, .bool true], [.int 0, .int 1, .int 2]]

/-- The predicate of the block of the store is true in the second lane, and a cell to which no lane points
stays as it is. -/
theorem exists_run_storeIfLess : ∃ ret m',
    (bare.runPipeline storeIfLess).2.stage.func.run { width := 3, limit := 4 } threeLanes
      #[.int 3, .int 4, .int 6, .int 8] = (.ok ret, m') ∧
    m'.memory[3]? = some (.int 8) ∧
    ∃ p, (bare.runPipeline storeIfLess).2.stage.info.predicate? 2 = some p ∧
      ∀ l : Fin 3, m'.IsTrueIn 3 p l ↔ l = 1 := by
  let f := storeIfLess.stage.func
  let s₁ : Setup := { width := 1, limit := 4 }
  let memory : Array Scalar := #[.int 3, .int 4, .int 6, .int 8]
  let m (l : Fin 3) := (f.run s₁ (threeLanes.map fun xs => [xs.lane l]) memory).2
  have hchecks : f.Checks := by decide +kernel
  have hacyclic : f.Acyclic := Func.acyclic_of_lt (by decide)
  have hplain : f.Plain := Func.plain_of_insts (forall_inst (P := fun d => d.mask = none ∧ d.callee? = none)
    (by decide) (by decide))
  have hexits : ∀ b, ∀ x ∈ (f.term b).uses, x.IsTyped :=
    forall_term (P := fun t => ∀ x ∈ t.uses, x.IsTyped) (by decide) (by decide)
  have hpipe : (bare.runPipeline storeIfLess).1 =
      .ok { linearizedRegions := 2, linearizedBlocks := 5 } := by
    decide +kernel
  have hrun : ∀ l : Fin 3, (f.run s₁ (threeLanes.map fun xs => [xs.lane l]) memory).1 = .ok none := by
    decide +kernel
  have htrace : ∀ l : Fin 3, 2 ∈ (m l).trace ↔ l = 1 := by decide +kernel
  have hargs : ArgsTyped f threeLanes := argsTyped_of_forall₂ (by decide +kernel)
  have hout : ∀ l : Fin 3, OutsideTyped s₁ f (laneStart s₁ f threeLanes memory l) := by
    have hgives : ∀ l : Fin 3, holdsOfBlocks (givesTyped s₁ f) s₁ f 4 none f.entry
        (laneStart s₁ f threeLanes memory l) = true := by decide +kernel
    exact fun l => outsideTyped_of_holds (hgives l)
  have hacts : ∀ l : Fin 3, holdsOfBlocks (actsOn s₁ f l) s₁ f 4 none f.entry
      (laneStart s₁ f threeLanes memory l) = true := by decide +kernel
  have hapart : Run.Apart s₁ f fun l : Fin 3 => laneStart s₁ f threeLanes memory l := by
    intro l l' k hne hk
    have hkl : k = l := Accesses.eq_of_holds (hacts l) hk rfl
    exact ⟨fun hk' => hne (Fin.ext (hkl.symm.trans (Accesses.eq_of_holds (hacts l') hk' rfl))),
      fun hk' => hne (Fin.ext (hkl.symm.trans (Accesses.eq_of_holds (hacts l') hk' rfl)))⟩
  obtain ⟨ret', m', e, hpredicate, -, hunchanged⟩ := exists_run_of_acyclic (m := m) rfl (fun _ => rfl)
    (by decide) (by decide) rfl hchecks.wellFormed hacyclic hchecks.wellTyped hplain hchecks.nodup_targets
    hexits (Prod.fst_eq_iff.mp hpipe) (s := { width := 3, limit := 4 }) rfl (by decide)
    (show s₁.width = 1 from rfl) (by decide) hargs (fun l => Prod.fst_eq_iff.mp (hrun l)) hout hapart
  have hreach : f.Reachable 2 :=
    ((Func.reachable_entry f).step (show 1 ∈ (f.term f.entry).targets by decide)).step (by decide)
  obtain ⟨p, hp, hlanes⟩ := hpredicate 2 hreach
  refine ⟨ret', m', e, ?_, p, hp, fun l => (hlanes l).trans (htrace l)⟩
  rw [hunchanged 3 fun l hk => ?_]
  · rfl
  · have := Accesses.eq_of_holds (hacts l) hk rfl
    have := l.isLt
    omega

end Vectorizer

end Lockstep
